import Rapido.KvReads

namespace Rapido.KvConf
open Text
variable {map : Map} {val tail : Str} {s : LineState}

inductive Style where
  | double
  | single
  | bare
deriving DecidableEq, Repr

def escapeIn (chars : List Char) (c : Char) : Str := if c ∈ chars then [backslash,c] else [c]

def render : Style → Str → Str
  | .double,val => doubleQuote :: (val.flatMap (escapeIn [backslash,doubleQuote,dollar]) ++ [doubleQuote])
  | .single,val => singleQuote :: (val ++ [singleQuote])
  | .bare,val => val.flatMap (escapeIn [backslash,doubleQuote,singleQuote,space,tab,dollar])

inductive ConfLine where
  | pair (key val : Str) (style : Style)
  | blank (text : Str)
  | comment (indent text : Str)
deriving DecidableEq, Repr

def ConfLine.text : ConfLine → Str
  | .pair key val style => key ++ '=' :: render style val
  | .blank text => text
  | .comment indent text => indent ++ '#' :: text

def ConfLine.Valid : ConfLine → Prop
  | .pair key val style => (key ≠ [] ∧ '=' ∉ key ∧ newline ∉ key ∧ (∀ c ∈ key, invalidInKey c = false) ∧
      ∀ c, key.head? = some c → whitespace c = false) ∧ newline ∉ val ∧ (style = .single → singleQuote ∉ val)
  | .blank text => (∀ c ∈ text, whitespace c = true) ∧ newline ∉ text
  | .comment indent text => (∀ c ∈ indent, whitespace c = true) ∧ newline ∉ indent ∧ newline ∉ text

def ConfLine.assign (map : Map) : ConfLine → Map
  | .pair key val _ => map.insert key val
  | .blank _ => map
  | .comment _ _ => map

-- One line each; the last one may lack its newline.
def confText (lines : List ConfLine) (closed : Bool) : Str :=
  let whole := lines.flatMap fun line => line.text ++ [newline]
  if closed then whole else whole.dropLast

-- A value with some characters escaped is read back, if the others stand for
-- themselves in the state they are read in.
theorem reads_escapes (chars : List Char) (ready : Ready s) (outside : s.inquote ≠ .single)
    (escapable : ∀ c ∈ chars, special c = true)
    (kept : ∀ c ∉ chars, special c = true → s.inquote = .double ∧ c ≠ backslash ∧ c ≠ doubleQuote ∧ c ≠ dollar)
    (clean : newline ∉ val) : Reads map s (val.flatMap (escapeIn chars)) (s.push val) := by
  induction val generalizing s with
  | nil =>
    have same : s.push [] = s := by simp [LineState.push]
    rw [same]
    exact .refl map s
  | cons c val ih =>
    have here : Reads map s (escapeIn chars c) (s.push [c]) := by
      unfold escapeIn
      by_cases escaped : c ∈ chars
      · rw [if_pos escaped]
        exact reads_escaped ready outside (escapable c escaped)
      · rw [if_neg escaped]
        cases ends : special c with
        | true => exact reads_kept ready ends (.inr (kept c escaped ends))
        | false =>
          refine reads_plain ready ?_ ?_
          · intro b member
            rw [List.mem_singleton.mp member]
            exact ends
          · exact fun member => clean (List.mem_cons.mpr (.inl (List.mem_singleton.mp member)))
    have rest := ih (ready.push [c]) outside kept fun member => clean (List.mem_cons_of_mem _ member)
    have whole := here.append rest
    simpa [LineState.push] using whole

theorem reads_double (ready : Ready s) (inside : s.inquote = .double) (clean : newline ∉ val) :
    Reads map s (val.flatMap (escapeIn [backslash,doubleQuote,dollar])) (s.push val) := by
  refine reads_escapes _ ready (by rw [inside]; decide) ?_ ?_ clean
  · intro c member
    simp only [List.mem_cons,List.not_mem_nil,or_false] at member
    rcases member with rfl | rfl | rfl <;> rfl
  · intro c other _
    exact ⟨inside,by simpa using other⟩

theorem reads_bare (ready : Ready s) (outside : s.inquote = .no) (clean : newline ∉ val) :
    Reads map s (val.flatMap (escapeIn [backslash,doubleQuote,singleQuote,space,tab,dollar])) (s.push val) := by
  refine reads_escapes _ ready (by rw [outside]; decide) ?_ ?_ clean
  · intro c member
    simpa [special] using member
  · intro c other ends
    exact absurd (by simpa [special] using ends) other

theorem reads_single (ready : Ready s) (inside : s.inquote = .single) (clean : newline ∉ val) (unquoted : singleQuote ∉ val) :
    Reads map s val (s.push val) := by
  induction val generalizing s with
  | nil =>
    have same : s.push [] = s := by simp [LineState.push]
    rw [same]
    exact .refl map s
  | cons c val ih =>
    have here : Reads map s [c] (s.push [c]) := by
      cases ends : special c with
      | true => exact reads_kept ready ends (.inl ⟨inside,fun same => unquoted (same ▸ List.mem_cons_self)⟩)
      | false =>
        refine reads_plain ready ?_ ?_
        · intro b member
          rw [List.mem_singleton.mp member]
          exact ends
        · exact fun member => clean (List.mem_cons.mpr (.inl (List.mem_singleton.mp member)))
    have rest := ih (ready.push [c]) inside (fun member => clean (List.mem_cons_of_mem _ member))
      fun member => unquoted (List.mem_cons_of_mem _ member)
    have whole := here.append rest
    simpa [LineState.push] using whole

theorem ready_start : Ready {} := ⟨rfl,rfl,rfl⟩

theorem reads_render (clean : newline ∉ val) (single : style = .single → singleQuote ∉ val) :
    Reads map {} (render style val) {unquotedVal:=val} := by
  have ready : ∀ quote, Ready {inquote:=quote} := fun _ => ⟨rfl,rfl,rfl⟩
  cases style with
  | double =>
    have opened : Reads map {} [doubleQuote] {inquote:=.double} := reads_turned ready_start (.inl ⟨rfl,rfl,rfl⟩)
    have body : Reads map {inquote:=.double} _ _ := reads_double (ready .double) rfl clean
    have closed : Reads map {inquote:=.double,unquotedVal:=val} [doubleQuote] {unquotedVal:=val} :=
      reads_turned ⟨rfl,rfl,rfl⟩ (.inr (.inl ⟨rfl,rfl,rfl⟩))
    exact opened.append (body.append closed)
  | single =>
    have opened : Reads map {} [singleQuote] {inquote:=.single} := reads_turned ready_start (.inr (.inr (.inl ⟨rfl,rfl,rfl⟩)))
    have body : Reads map {inquote:=.single} _ _ := reads_single (ready .single) rfl clean (single rfl)
    have closed : Reads map {inquote:=.single,unquotedVal:=val} [singleQuote] {unquotedVal:=val} :=
      reads_turned ⟨rfl,rfl,rfl⟩ (.inr (.inr (.inr ⟨rfl,rfl,rfl⟩)))
    exact opened.append (body.append closed)
  | bare => exact reads_bare ready_start rfl clean

theorem readText_render (clean : newline ∉ val) (single : style = .single → singleQuote ∉ val)
    (ending : tail = [] ∨ tail = [newline]) (map : Map) :
    readText map {} (render style val ++ tail) = .ok {unquotedVal:=val} := by
  rw [reads_render clean single]
  rcases ending with rfl | rfl
  · exact readText_nil map _
  · exact readText_newline ⟨rfl,rfl,rfl⟩

theorem key_starts (named : key ≠ []) (characters : ∀ c ∈ key, invalidInKey c = false)
    (head : ∀ c, key.head? = some c → whitespace c = false) (rest : Str) :
    trimStart (key ++ rest) = key ++ rest ∧ startsWith '#' (key ++ rest) = false := by
  cases key with
  | nil => exact absurd rfl named
  | cons b key =>
    refine ⟨trimStart_keeps fun c first => head c first,?_⟩
    apply Bool.eq_false_iff.mpr
    intro hash
    have same : b = '#' := by simpa [startsWith] using hash
    have allowed := characters b (by simp)
    rw [same] at allowed
    exact absurd allowed (by decide)

-- A key that kv_process accepts.
structure Key where
  text : Str
  named : text ≠ []
  noEquals : '=' ∉ text
  characters : ∀ c ∈ text, invalidInKey c = false
  head : ∀ c, text.head? = some c → whitespace c = false

-- What kv_process makes of the state that the blocks of a value leave.
def settled (key line : Str) : Except KvError LineState → Except KvError (Option (Str × Str)) × Str
  | .error e => (.error e,line)
  | .ok s => if s.inquote ≠ .no then (.ok none,retained s.inquote line) else (.ok (some (key,s.unquotedVal)),[])

theorem process_key (key : Key) (val : Str) (map : Map) :
    kvProcess (key.text ++ '=' :: val) map = settled key.text (key.text ++ '=' :: val) (readText map {} val) := by
  obtain ⟨kept,started⟩ := key_starts key.named key.characters key.head ('=' :: val)
  have allowed : key.text.any invalidInKey = false := by
    apply List.any_eq_false.mpr
    intro c member
    rw [key.characters c member]
    simp
  unfold readText
  cases looped : blockLoop map {} (splitInclusive special val) <;>
    simp [kvProcess,kept,started,splitOnce_at key.noEquals,key.named,allowed,looped,settled]

-- A buffer holding one line, whatever the variables in scope are.
theorem process_line (line : ConfLine) (valid : line.Valid) (ending : tail = [] ∨ tail = [newline]) (map : Map) :
    kvProcess (line.text ++ tail) map = (.ok (match line with
      | .pair key val _ => some (key,val)
      | _ => none),[]) := by
  have white : ∀ c ∈ tail, whitespace c = true := by
    intro c inside
    rcases ending with rfl | rfl
    · cases inside
    · cases List.mem_singleton.mp inside
      decide
  cases line with
  | blank text =>
    have empty : trimStart (text ++ tail) = [] := by
      apply List.dropWhile_eq_nil_iff.mpr
      intro c member
      rcases List.mem_append.mp member with inside | last
      · exact valid.1 c inside
      · exact white c last
    simp [kvProcess,ConfLine.text,empty]
  | comment indent text =>
    have hash : trimStart (indent ++ '#' :: (text ++ tail)) = '#' :: (text ++ tail) := by
      rw [trimStart,List.dropWhile_append_of_pos valid.1]
      rfl
    simp [kvProcess,ConfLine.text,hash,startsWith]
  | pair key val style =>
    obtain ⟨⟨named,noEquals,_,characters,head⟩,clean,single⟩ := valid
    have read := process_key ⟨key,named,noEquals,characters,head⟩ (render style val ++ tail) map
    rw [readText_render clean single ending] at read
    simpa [ConfLine.text,settled] using read

theorem text_clean (line : ConfLine) (valid : line.Valid) : newline ∉ line.text := by
  cases line with
  | blank text => exact valid.2
  | comment indent text =>
    obtain ⟨_,before,after⟩ := valid
    simp +decide [ConfLine.text,before,after]
  | pair key val style =>
    obtain ⟨⟨_,_,before,_,_⟩,after,_⟩ := valid
    have escaped : ∀ chars, newline ∉ chars → newline ∉ val.flatMap (escapeIn chars) := by
      intro chars outside member
      obtain ⟨c,inside,here⟩ := List.mem_flatMap.mp member
      unfold escapeIn at here
      split at here
      · rename_i found
        rcases List.mem_cons.mp here with slash | same
        · cases slash
        · exact outside (List.mem_singleton.mp same ▸ found)
      · exact after (List.mem_singleton.mp here ▸ inside)
    cases style with
    | double => simp +decide [ConfLine.text,render,before,escaped [backslash,doubleQuote,dollar] (by decide)]
    | single => simp +decide [ConfLine.text,render,before,after]
    | bare =>
      simp +decide [ConfLine.text,render,before,escaped [backslash,doubleQuote,singleQuote,space,tab,dollar] (by decide)]

theorem linesOf_lines (lines : List ConfLine) (valid : ∀ line ∈ lines, line.Valid) (last : Str) (clean : newline ∉ last) :
    linesOf ((lines.flatMap fun line => line.text ++ [newline]) ++ last) =
      (lines.map fun line => line.text ++ [newline]) ++ if last = [] then [] else [last] := by
  have plain : ∀ text : Str, newline ∉ text → ∀ b ∈ text, (b == newline) = false := by
    intro text absent b member
    apply beq_eq_false_iff_ne.mpr
    intro same
    exact absent (same ▸ member)
  induction lines with
  | nil => exact splitInclusive_plain (plain last clean)
  | cons line lines ih =>
    have here := plain line.text (text_clean line (valid line (by simp)))
    have rest := ih fun line member => valid line (List.mem_cons_of_mem _ member)
    unfold linesOf at rest ⊢
    simp only [List.flatMap_cons,List.append_assoc,List.cons_append,List.nil_append,List.map_cons]
    rw [splitInclusive_piece here (by simp)]
    exact congrArg _ (by simpa using rest)

-- The lines of a text, each with the ending it has there.
theorem append_run (pieces : List (ConfLine × Str))
    (fine : ∀ piece ∈ pieces, piece.1.Valid ∧ (piece.2 = [] ∨ piece.2 = [newline]) ∧
      utf8Len (piece.1.text ++ piece.2) ≤ CONF_LINE_MAX) (linenum : Nat) (map : Map) :
    appendLines linenum [] map (pieces.map fun piece => piece.1.text ++ piece.2) =
      (.ok (),(pieces.map Prod.fst).foldl ConfLine.assign map) := by
  induction pieces generalizing linenum map with
  | nil => rfl
  | cons piece pieces ih =>
    obtain ⟨line,ending⟩ := piece
    obtain ⟨valid,ends,short⟩ := fine (line,ending) (by simp)
    have rest := ih fun piece member => fine piece (List.mem_cons_of_mem _ member)
    have processed := process_line line valid ends map
    rw [List.map_cons,append_step short processed]
    cases line with
    | pair key val style => exact rest (linenum+1) (map.insert key val)
    | blank text => exact rest (linenum+1) map
    | comment indent text => exact rest (linenum+1) map

-- The text read back is its lines, each with its ending; a last line without
-- text and newline is no line at all, and assigns nothing.
theorem confText_pieces (lines : List ConfLine) (closed : Bool) (valid : ∀ line ∈ lines, line.Valid) :
    ∃ pieces : List (ConfLine × Str), linesOf (confText lines closed) = pieces.map (fun piece => piece.1.text ++ piece.2) ∧
      (∀ piece ∈ pieces, piece.1.Valid ∧ (piece.2 = [] ∨ piece.2 = [newline])) ∧
      ∀ map, (pieces.map Prod.fst).foldl ConfLine.assign map = lines.foldl ConfLine.assign map := by
  have ended : ∀ front : List ConfLine, (∀ line ∈ front, line.Valid) → ∀ piece ∈ front.map (fun line => (line,[newline])),
      piece.1.Valid ∧ (piece.2 = [] ∨ piece.2 = [newline]) := by
    intro front sound piece member
    obtain ⟨line,inside,rfl⟩ := List.mem_map.mp member
    exact ⟨sound line inside,.inr rfl⟩
  cases closed with
  | true =>
    refine ⟨lines.map fun line => (line,[newline]),?_,ended lines valid,?_⟩
    · have cut := linesOf_lines lines valid [] (by simp)
      simpa [confText,Function.comp_def] using cut
    · simp [Function.comp_def]
  | false =>
    rcases List.eq_nil_or_concat lines with rfl | ⟨front,last,rfl⟩
    · exact ⟨[],rfl,nofun,fun map => rfl⟩
    · have earlier : ∀ line ∈ front, line.Valid := fun line member => valid line (by simp [member])
      have final : last.Valid := valid last (by simp)
      have cut := linesOf_lines front earlier last.text (text_clean last final)
      have whole : confText (front ++ [last]) false =
          (front.flatMap fun line => line.text ++ [newline]) ++ last.text := by
        simp only [confText,Bool.false_eq_true,if_false,List.flatMap_append,List.flatMap_singleton]
        rw [← List.append_assoc,List.dropLast_concat]
      rw [List.concat_eq_append,whole,cut]
      by_cases empty : last.text = []
      · have same : ∀ map, last.assign map = map := by
          intro map
          cases last with
          | pair key val style => simp [ConfLine.text] at empty
          | blank text => rfl
          | comment indent text => rfl
        refine ⟨front.map fun line => (line,[newline]),?_,ended front earlier,?_⟩
        · simp [empty,Function.comp_def]
        · simp [same,Function.comp_def]
      · refine ⟨(front.map fun line => (line,[newline])) ++ [(last,[])],?_,?_,?_⟩
        · simp [empty,Function.comp_def]
        · intro piece member
          rcases List.mem_append.mp member with inside | only
          · exact ended front earlier piece inside
          · rw [List.mem_singleton.mp only]
            exact ⟨final,.inl rfl⟩
        · simp [Function.comp_def]

theorem quoting_roundtrip (lines : List ConfLine) (closed : Bool) (map : Map) (valid : ∀ line ∈ lines, line.Valid)
    (short : ∀ line ∈ linesOf (confText lines closed), utf8Len line ≤ CONF_LINE_MAX) :
    kvConfProcessAppend (confText lines closed) map = (.ok (),lines.foldl ConfLine.assign map) := by
  obtain ⟨pieces,cut,sound,assigned⟩ := confText_pieces lines closed valid
  rw [cut] at short
  have fine : ∀ piece ∈ pieces, piece.1.Valid ∧ (piece.2 = [] ∨ piece.2 = [newline]) ∧
      utf8Len (piece.1.text ++ piece.2) ≤ CONF_LINE_MAX := by
    intro piece member
    obtain ⟨lineValid,ending⟩ := sound piece member
    exact ⟨lineValid,ending,short _ (List.mem_map.mpr ⟨piece,member,rfl⟩)⟩
  rw [kvConfProcessAppend,cut,append_run pieces fine 1 map,assigned]

-- A comment, a blank line and a key assigned twice, in two styles of quoting.
def sampleLines : List ConfLine :=
  [.comment [] [' ','c'],.pair ['A'] ['x',dollar] .double,.blank [space],.pair ['A'] ['y',space,'z'] .bare]

theorem sampleLines_valid : ∀ line ∈ sampleLines, line.Valid := by
  have letter : ∀ c ∈ ['A'], c = 'A' := fun c inside => List.mem_singleton.mp inside
  have key : (['A'] ≠ [] ∧ '=' ∉ ['A'] ∧ newline ∉ ['A'] ∧ (∀ c ∈ ['A'], invalidInKey c = false) ∧
      ∀ c, ['A'].head? = some c → whitespace c = false) := by
    refine ⟨by decide,by decide,by decide,fun c inside => letter c inside ▸ (by decide),fun c first => ?_⟩
    cases first
    decide
  intro line member
  simp only [sampleLines,List.mem_cons,List.not_mem_nil,or_false] at member
  rcases member with rfl | rfl | rfl | rfl
  · exact ⟨fun c none => absurd none List.not_mem_nil,by decide,by decide⟩
  · exact ⟨key,by decide,nofun⟩
  · exact ⟨fun c only => List.mem_singleton.mp only ▸ (by decide),by decide⟩
  · exact ⟨key,by decide,nofun⟩

theorem quoting_roundtrip_last_wins :
    (kvConfProcessAppend (confText sampleLines false) .empty).2 ['A'] = some ['y',space,'z'] := by
  rw [quoting_roundtrip sampleLines false .empty sampleLines_valid (by decide +kernel)]
  rfl

end Rapido.KvConf
