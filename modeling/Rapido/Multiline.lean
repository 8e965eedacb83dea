import Rapido.KvQuoting
import Rapido.ConfDefaults

-- Double-quoted values that go over several lines.
namespace Rapido.KvConf
open Text
variable {map : Map} {s : LineState} {front val got : Str} {c : Char}

def esc (val : Str) : Str := val.flatMap (escapeIn [backslash,doubleQuote,dollar])

-- A line of the value that is not its last, and whether an unescaped backslash
-- stands before its newline.
structure Segment where
  text : Str
  continued : Bool
  filled : text ≠ []
  clean : newline ∉ text
  unpadded : ∀ c, text.getLast? = some c → whitespace c = false

structure Multiline where
  key : Key
  segments : List Segment
  last : Str
  key_clean : newline ∉ key.text
  several : segments ≠ []
  last_clean : newline ∉ last

def Segment.ending (seg : Segment) : Str := if seg.continued then [backslash,newline] else [newline]
def Segment.line (seg : Segment) : Str := esc seg.text ++ seg.ending
def Segment.value (seg : Segment) : Str := if seg.continued then seg.text else seg.text ++ [space]

-- The backslash that ends the line is the second half of an escape.
def Segment.swallowed (seg : Segment) : Bool := !seg.continued && endsWith backslash seg.text

-- The lines behind the opening quote.
def Multiline.lines (v : Multiline) : List Str := v.segments.map Segment.line ++ [esc v.last ++ [doubleQuote,newline]]
def Multiline.start (v : Multiline) : Str := v.key.text ++ ['=',doubleQuote]
def Multiline.text (v : Multiline) : Str := v.start ++ v.lines.flatten
def Multiline.value (v : Multiline) : Str := v.segments.flatMap Segment.value ++ v.last

theorem esc_cons (c : Char) (val : Str) : esc (c :: val) = escapeIn [backslash,doubleQuote,dollar] c ++ esc val := rfl
theorem esc_append (front back : Str) : esc (front ++ back) = esc front ++ esc back := List.flatMap_append

theorem esc_mem (member : c ∈ esc val) : c = backslash ∨ c ∈ val := by
  obtain ⟨d,inside,here⟩ := List.mem_flatMap.mp member
  unfold escapeIn at here
  split at here
  · rcases List.mem_cons.mp here with slash | same
    · exact .inl slash
    · exact .inr (List.mem_singleton.mp same ▸ inside)
  · exact .inr (List.mem_singleton.mp here ▸ inside)

theorem esc_clean (clean : newline ∉ val) : newline ∉ esc val := by
  intro member
  rcases esc_mem member with slash | inside
  · cases slash
  · exact clean inside

-- A text and its escaped form end alike.
theorem esc_last (val : Str) : (esc val).getLast? = val.getLast? := by
  rcases List.eq_nil_or_concat val with rfl | ⟨front,c,rfl⟩
  · rfl
  · rw [List.concat_eq_append,esc_append,List.getLast?_append_of_ne_nil]
    · simp only [List.getLast?_concat]
      rw [esc,List.flatMap_singleton,escapeIn]
      split <;> rfl
    · rw [esc,List.flatMap_singleton,escapeIn]
      split <;> simp

-- What a line of an open double quote leaves in the buffer.
def Segment.kept (seg : Segment) : Str :=
  if seg.continued then esc seg.text
  else if seg.swallowed then (esc seg.text).dropLast else esc seg.text ++ [space]

theorem trimEnd_newline (front : Str) : trimEnd (front ++ [newline]) = trimEnd front :=
  List.rdropWhile_concat_pos _ _ _ (by decide)

theorem trimEnd_visible (last : front.getLast? = some c) (visible : whitespace c = false) : trimEnd front = front := by
  obtain ⟨rest,rfl⟩ := List.getLast?_eq_some_iff.mp last
  exact List.rdropWhile_concat_neg _ _ _ (by simp [visible])

theorem Segment.esc_visible (seg : Segment) (front : Str) :
    ∃ c, (front ++ esc seg.text).getLast? = some c ∧ seg.text.getLast? = some c ∧ whitespace c = false := by
  have filled : esc seg.text ≠ [] := by
    intro empty
    have last := esc_last seg.text
    rw [empty] at last
    exact seg.filled (List.getLast?_eq_none_iff.mp last.symm)
  cases last : seg.text.getLast? with
  | none => exact absurd (List.getLast?_eq_none_iff.mp last) seg.filled
  | some c => exact ⟨c,by rw [List.getLast?_append_of_ne_nil _ filled,esc_last,last],rfl,seg.unpadded c last⟩

-- A segment whose escaped form ends in a whole escaped backslash.
theorem Segment.swallowed_cut (seg : Segment) (swallowed : seg.swallowed = true) :
    ∃ front, seg.continued = false ∧ seg.text = front ++ [backslash] ∧ esc seg.text = esc front ++ [backslash] ++ [backslash] := by
  obtain ⟨plain,ends⟩ : seg.continued = false ∧ endsWith backslash seg.text = true := by
    simpa [Segment.swallowed] using swallowed
  have last : seg.text.getLast? = some backslash := by simpa [endsWith] using ends
  obtain ⟨front,equal⟩ := List.getLast?_eq_some_iff.mp last
  exact ⟨front,plain,equal,by rw [equal,esc_append,List.append_assoc]; rfl⟩

theorem retained_line (seg : Segment) (front : Str) :
    retained .double (front ++ seg.line) = front ++ seg.kept := by
  obtain ⟨c,last,lastText,visible⟩ := seg.esc_visible front
  have trimmed := trimEnd_visible last visible
  cases continued : seg.continued with
  | true =>
    have shape : front ++ seg.line = front ++ esc seg.text ++ [backslash] ++ [newline] := by
      simp [Segment.line,Segment.ending,continued]
    have kept : trimEnd (front ++ esc seg.text ++ [backslash]) = front ++ esc seg.text ++ [backslash] :=
      trimEnd_visible List.getLast?_concat (by decide)
    rw [shape,retained,trimEnd_newline,kept]
    simp only [endsWith_snoc,List.dropLast_concat,trimmed,beq_self_eq_true,and_self,if_true]
    simp [Segment.kept,continued]
  | false =>
    have shape : front ++ seg.line = front ++ esc seg.text ++ [newline] := by
      simp [Segment.line,Segment.ending,continued]
    rw [shape,retained,trimEnd_newline,trimmed]
    cases swallowed : seg.swallowed with
    | true =>
      obtain ⟨rest,_,_,equal⟩ := seg.swallowed_cut swallowed
      have kept : trimEnd (front ++ (esc rest ++ [backslash])) = front ++ (esc rest ++ [backslash]) := by
        rw [← List.append_assoc]
        exact trimEnd_visible List.getLast?_concat (by decide)
      rw [equal,← List.append_assoc front]
      simp only [endsWith_snoc,List.dropLast_concat,kept,beq_self_eq_true,and_self,if_true]
      simp [Segment.kept,continued,swallowed,equal]
    | false =>
      have other : endsWith backslash (front ++ esc seg.text) = false := by
        have ends : endsWith backslash seg.text = false := by simpa [Segment.swallowed,continued] using swallowed
        simpa [endsWith,last,lastText] using ends
      simp [other,Segment.kept,continued,swallowed]

-- The state inside the double quotes, perhaps behind a backslash.
def inDouble (escape : Bool) (got : Str) : LineState := {inquote:=.double,escapeNext:=escape,unquotedVal:=got}

theorem ready_double (got : Str) : Ready (inDouble false got) := ⟨rfl,rfl,rfl⟩

-- A buffer that begins with the key and an open quote.
theorem process_open (key : Key) (read : Reads map (inDouble false []) front s) (line : Str) :
    kvProcess (key.text ++ ['=',doubleQuote] ++ front ++ line) map =
      settled key.text (key.text ++ ['=',doubleQuote] ++ front ++ line) (readText map s line) := by
  have opened : Reads map {} [doubleQuote] (inDouble false []) := reads_turned ready_start (.inl ⟨rfl,rfl,rfl⟩)
  have whole := process_key key (doubleQuote :: (front ++ line)) map
  have start : readText map {} (doubleQuote :: (front ++ line)) = readText map s line := by
    have all := opened.append read line
    simpa using all
  rw [start] at whole
  simpa using whole

theorem reads_value (clean : newline ∉ val) (got : Str) : Reads map (inDouble false got) (esc val) (inDouble false (got ++ val)) :=
  reads_double (ready_double got) rfl clean

theorem readText_closing (got : Str) : readText map (inDouble false got) [doubleQuote,newline] = .ok {unquotedVal:=got} := by
  have closed : Reads map (inDouble false got) [doubleQuote] {unquotedVal:=got} :=
    reads_turned (ready_double got) (.inr (.inl ⟨rfl,rfl,rfl⟩))
  exact (closed [newline]).trans (readText_newline ⟨rfl,rfl,rfl⟩)

-- A line break leaves the quote open, behind a backslash or not.
theorem readText_break (escape : Bool) (got : Str) : readText map (inDouble escape got) [newline] = .ok (inDouble escape got) := by
  cases escape with
  | false => exact readText_newline (ready_double got)
  | true =>
    have step : blockStep map (inDouble true got) [newline] = .ok (.brk (inDouble true got)) := by
      simp +decide [blockStep,inDouble,escapedBlock]
    rw [readText_plain map (by simp [Plain]; decide) (by simp),step]

theorem reads_slash (got : Str) : Reads map (inDouble true got) [backslash] (inDouble false (got ++ [backslash])) :=
  reads_taken rfl rfl

theorem Segment.reads_good (seg : Segment) (good : seg.swallowed = false) (got : Str) :
    Reads map (inDouble false got) seg.kept (inDouble false (got ++ seg.value)) := by
  have body : Reads map (inDouble false got) (esc seg.text) (inDouble false (got ++ seg.text)) := reads_value seg.clean got
  cases continued : seg.continued with
  | true => simpa [Segment.kept,Segment.value,continued] using body
  | false =>
    have gap : Reads map (inDouble false (got ++ seg.text)) [space] (inDouble false (got ++ seg.text ++ [space])) :=
      reads_kept (ready_double _) rfl (.inr ⟨rfl,by decide,by decide,by decide⟩)
    have both := body.append gap
    simpa [Segment.kept,Segment.value,continued,good] using both

-- A line that leaves the quote open.
theorem Segment.process_inside (seg : Segment) (key : Key) (read : Reads map (inDouble false []) front s)
    (body : Reads map s (esc seg.text) (inDouble escape got)) :
    kvProcess (key.text ++ ['=',doubleQuote] ++ front ++ seg.line) map =
      (.ok none,key.text ++ ['=',doubleQuote] ++ (front ++ seg.kept)) := by
  obtain ⟨behind,more,ran⟩ : ∃ behind more, readText map s seg.line = .ok (inDouble behind more) := by
    unfold Segment.line Segment.ending
    cases seg.continued with
    | false => exact ⟨escape,got,(body [newline]).trans (readText_break escape _)⟩
    | true =>
      obtain ⟨behind,more,slash⟩ : ∃ behind more, Reads map (inDouble escape got) [backslash] (inDouble behind more) := by
        cases escape with
        | false => exact ⟨true,got,reads_backslash (ready_double _) (by simp [inDouble])⟩
        | true => exact ⟨false,got ++ [backslash],reads_slash got⟩
      have whole := (body.append slash) [newline]
      rw [readText_break] at whole
      exact ⟨behind,more,by simpa using whole⟩
  have left := retained_line seg (key.text ++ ['=',doubleQuote] ++ front)
  rw [process_open key read,ran]
  simpa [settled,inDouble] using left

-- Segments that keep their backslashes leave the quote open with their text
-- in the buffer.
theorem append_good (key : Key) (segments : List Segment) (rest : List Str)
    (short : ∀ seg ∈ segments, utf8Len seg.line ≤ CONF_LINE_MAX) (good : ∀ seg ∈ segments, seg.swallowed = false)
    (linenum : Nat) (read : Reads map (inDouble false []) front (inDouble false got)) :
    ∃ left, Reads map (inDouble false []) left (inDouble false (got ++ segments.flatMap Segment.value)) ∧
      appendLines linenum (key.text ++ ['=',doubleQuote] ++ front) map (segments.map Segment.line ++ rest) =
        appendLines (linenum+segments.length) (key.text ++ ['=',doubleQuote] ++ left) map rest := by
  induction segments generalizing linenum front got with
  | nil => exact ⟨front,by simpa using read,rfl⟩
  | cons seg segments ih =>
    have small := short seg List.mem_cons_self
    obtain ⟨left,reads,run⟩ := ih (fun seg member => short seg (List.mem_cons_of_mem _ member))
      (fun seg member => good seg (List.mem_cons_of_mem _ member)) (linenum+1)
      (read.append (seg.reads_good (good seg List.mem_cons_self) got))
    refine ⟨left,by simpa using reads,?_⟩
    rw [List.map_cons,List.cons_append,append_step small (seg.process_inside key read (reads_value seg.clean got)),assignResult]
    rw [run,List.length_cons,Nat.add_assoc,Nat.add_comm 1]

-- The line with the closing quote.
theorem append_closing (key : Key) (last : Str) (clean : newline ∉ last)
    (short : utf8Len (esc last ++ [doubleQuote,newline]) ≤ CONF_LINE_MAX) (linenum : Nat)
    (read : Reads map (inDouble false []) front (inDouble false got)) :
    appendLines linenum (key.text ++ ['=',doubleQuote] ++ front) map [esc last ++ [doubleQuote,newline]] =
      (.ok (),map.insert key.text (got ++ last)) := by
  have body : Reads map (inDouble false got) (esc last) (inDouble false (got ++ last)) := reads_value clean got
  have ran : readText map (inDouble false got) (esc last ++ [doubleQuote,newline]) = .ok {unquotedVal:=got ++ last} :=
    (body _).trans (readText_closing _)
  have processed := process_open key read (esc last ++ [doubleQuote,newline])
  rw [ran] at processed
  rw [append_step short processed]
  rfl

theorem utf8Len_suffix (front line : Str) : utf8Len line ≤ utf8Len (front ++ line) := by
  rw [utf8Len_append]
  exact Nat.le_add_left _ _

theorem append_start (small : utf8Len (front ++ line) ≤ CONF_LINE_MAX) (linenum : Nat) (rest : List Str) :
    appendLines linenum [] map ((front ++ line) :: rest) = appendLines linenum front map (line :: rest) := by
  have part : utf8Len line ≤ CONF_LINE_MAX := le_trans (utf8Len_suffix front line) small
  simp only [appendLines,kvReadLine,if_neg (Nat.not_lt.mpr small),if_neg (Nat.not_lt.mpr part),List.nil_append]

end Rapido.KvConf
