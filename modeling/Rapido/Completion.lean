import Rapido.Manifest

-- src/bin/bash-completion.rs, as the release build runs it.
namespace Rapido.Completion
open UnixPath Text Cut

-- Where complete_rapido can panic. Writing to `out` never fails.
inductive Panic where
  | charBoundary
  | marker
  | unwrapped
  | command
deriving DecidableEq, Repr

-- What is written to `out` so far.
abbrev Complete := Eff Panic (List UInt8)

-- What a completion sees of the machine it runs on.
structure Shell where
  -- fs::read_dir, each entry with its path
  readDir : Path → Except IoError (List (Except IoError Path))
  -- bash --norc --noprofile -c: stdout and status.success()
  bash : Str → Except IoError (List UInt8 × Bool)

def RAPIDO_CUT_DIR : Path := Utf8.encode "cut".toList
def RAPIDO_CMDS : List Str := ["boot","cut","help","list","setup-network","teardown-network"].map String.toList

def writeln (text : Str) : Complete Unit := .update (· ++ Utf8.encode text ++ [10])

def unwrap : Option α → Complete α
  | none => .fail .unwrapped
  | some value => pure value

-- The loop over the directory. It ends at the first entry that is an error.
def scriptNames (filterInc : Str) : List (Except IoError Path) → Complete Bool
  | [] => pure true
  | .error _ :: _ => pure false
  | .ok path :: rest => match (fileStem path).bind Utf8.decode with
    | none => scriptNames filterInc rest
    | some stem => do
      let ent := stem.map fun c => if c = '_' then '-' else c
      Eff.runIf (filterInc <+: ent) (writeln ent)
      scriptNames filterInc rest

def completeCutScriptName (shell : Shell) (filterInc : Str) : Complete Bool :=
  match shell.readDir RAPIDO_CUT_DIR with
  | .error _ => pure false
  | .ok cutLs => scriptNames filterInc cutLs

def completeFilter (options : List Str) (filterInc : Str) : Complete Unit :=
  Eff.forEach (fun param => Eff.runIf (filterInc <+: param) (writeln param)) options

def completeLocalFile (shell : Shell) (filterInc : Str) : Complete Bool :=
  match shell.bash ("compgen -o filenames -A file -- ".toList ++ filterInc) with
  | .error _ => pure false
  | .ok (stdout,success) => do
    Eff.update (· ++ stdout)
    return success

-- -B is only valid once.
def completeCutAnyParam (shell : Shell) (cursorCmpl : Str) (seenB : Bool) : Complete Bool := do
  completeFilter ((if seenB then ["-f","-x"] else ["-B","-f","-x"]).map String.toList) cursorCmpl
  completeCutScriptName shell cursorCmpl

def completeCut (shell : Shell) (priorArgs : List Str) (cursorCmpl : Str) (seenB : Bool) : Complete Bool := do
  let command ← unwrap priorArgs[1]?
  if command ≠ "cut".toList then .fail .command
  else if priorArgs.length = 2 then completeCutAnyParam shell cursorCmpl false
  else do
    let last ← unwrap priorArgs.getLast?
    if last = "-f".toList then completeLocalFile shell cursorCmpl
    else if last = "-x".toList then pure false
    else if last = "-B".toList then completeCutAnyParam shell cursorCmpl true
    else if priorArgs.length ≤ 3 then pure false
    else match priorArgs[priorArgs.length - 2]? with
      -- behind the file of a -f; behind -x and anything else there is nothing
      | some p => if p = "-f".toList then completeCutAnyParam shell cursorCmpl seenB else pure false
      | none => pure false

def nul : Char := '\x00'

def completeNilArgUnderCursor (s : Str) (compTok : Option Char) : Except Panic (Str × Bool) :=
  if nul ∈ s then
    match compTok with
    | some t => .ok (s.map fun c => if c = nul then t else c,true)
    | none => if s.getLast? = some nul then .ok (s.dropLast,true) else .error .marker
  else .ok (s,false)

-- str::is_char_boundary, with the two sides of the boundary.
def splitAtByte : Nat → Str → Option (Str × Str)
  | 0,s => some ([],s)
  | _+1,[] => none
  | n+1,c :: s =>
    if c.utf8Size ≤ n+1 then (splitAtByte (n+1 - c.utf8Size) s).map fun (front,back) => (c :: front,back) else none

-- String::replace_range: the range is one of bytes.
def replaceRange (s : Str) (start stop : Nat) (replacement : Str) : Except Panic Str :=
  match splitAtByte start s,splitAtByte stop s with
  | some (front,_),some (_,back) => .ok (front ++ replacement ++ back)
  | _,_ => .error .charBoundary

-- The line with a NUL at the cursor, and what stood there.
def markCursor (compLine : Str) (compPoint : Nat) : Except Panic (Str × Option Char) :=
  match compLine[compPoint]? with
  | some t =>
    -- a space stays one, so that the words at both sides of it are not joined
    if whitespace t then (replaceRange compLine compPoint (compPoint + 1) [nul,' ']).map fun line => (line,none)
    else (replaceRange compLine compPoint (compPoint + 1) [nul]).map fun line => (line,some t)
  | none => .ok (compLine ++ [nul],none)

-- The loop over the words; `args` are those before the i-th one.
def wordLoop (shell : Shell) (compTok : Option Char) (i : Nat) (args : List Str) (seenMinusB : Bool) : List Str → Complete Bool
  | [] => pure false
  | s :: rest =>
    if s = "-x".toList then pure false
    else do
      let (arg,underCursor) ← Eff.ofExcept (completeNilArgUnderCursor s compTok)
      if underCursor then
        if i = 0 then pure false
        else if i = 1 then do
          completeFilter RAPIDO_CMDS arg
          return true
        else do
          let command ← unwrap args[1]?
          if command = "cut".toList then completeCut shell args arg seenMinusB else pure false
      else wordLoop shell compTok (i+1) (args ++ [arg]) (seenMinusB || arg = "-B".toList) rest

def completeRapido (shell : Shell) (compLine : Str) (compPoint : Nat) : Complete Bool := do
  let (line,compTok) ← Eff.ofExcept (markCursor compLine compPoint)
  wordLoop shell compTok 0 [] false (splitWhitespace line)

-- Bytes and characters.
theorem splitAtByte_iff : splitAtByte n s = some (front,back) ↔ s = front ++ back ∧ utf8Len front = n := by
  induction s generalizing n front with
  | nil =>
    cases n with
    | zero =>
      constructor
      · intro found
        cases found
        exact ⟨rfl,rfl⟩
      · rintro ⟨whole,_⟩
        obtain ⟨rfl,rfl⟩ := List.nil_eq_append_iff.mp whole
        rfl
    | succ n =>
      constructor
      · nofun
      · rintro ⟨whole,length⟩
        obtain ⟨rfl,rfl⟩ := List.nil_eq_append_iff.mp whole
        cases length
  | cons c s ih =>
    have positive := c.utf8Size_pos
    cases n with
    | zero =>
      constructor
      · intro found
        cases found
        exact ⟨rfl,rfl⟩
      · rintro ⟨whole,length⟩
        cases front with
        | nil =>
          cases whole
          rfl
        | cons b front =>
          rw [utf8Len_cons] at length
          have := b.utf8Size_pos
          omega
    | succ n =>
      unfold splitAtByte
      constructor
      · intro found
        split at found
        · rename_i fits
          obtain ⟨⟨before,after⟩,later,made⟩ := Option.map_eq_some_iff.mp found
          cases made
          obtain ⟨whole,length⟩ := ih.mp later
          refine ⟨by rw [whole]; rfl,?_⟩
          rw [utf8Len_cons,length]
          omega
        · cases found
      · rintro ⟨whole,length⟩
        cases front with
        | nil => cases length
        | cons b front =>
          cases whole
          rw [utf8Len_cons] at length
          rw [if_pos (by omega),ih.mpr ⟨rfl,show utf8Len front = n+1 - c.utf8Size by omega⟩]
          rfl

-- A character of one byte starts at this byte.
def ByteCharAt (line : Str) (point : Nat) : Prop := ∃ front c back, line = front ++ c :: back ∧ utf8Len front = point ∧ c.utf8Size = 1

theorem replaceRange_byte (s : Str) (n : Nat) (r : Str) :
    (∃ front c back, s = front ++ c :: back ∧ utf8Len front = n ∧ c.utf8Size = 1 ∧
      replaceRange s n (n+1) r = .ok (front ++ r ++ back)) ∨
      (¬ByteCharAt s n ∧ replaceRange s n (n+1) r = .error .charBoundary) := by
  by_cases single : ByteCharAt s n
  · obtain ⟨front,c,back,rfl,starts,one⟩ := single
    have left : splitAtByte n (front ++ c :: back) = some (front,c :: back) := splitAtByte_iff.mpr ⟨rfl,starts⟩
    have right : splitAtByte (n+1) (front ++ c :: back) = some (front ++ [c],back) := by
      refine splitAtByte_iff.mpr ⟨by simp,?_⟩
      rw [utf8Len_append,utf8Len_cons,starts,one]
      rfl
    exact .inl ⟨front,c,back,rfl,starts,one,by rw [replaceRange,left,right]⟩
  · refine .inr ⟨single,?_⟩
    unfold replaceRange
    split
    · rename_i front tail ahead back left right
      -- two boundaries one byte apart have such a character between them
      obtain ⟨whole,starts⟩ := splitAtByte_iff.mp left
      obtain ⟨again,ends⟩ := splitAtByte_iff.mp right
      rw [whole] at again
      rcases List.append_eq_append_iff.mp again with ⟨middle,rfl,rest⟩ | ⟨middle,rfl,rest⟩
      · rw [utf8Len_append] at ends
        cases middle with
        | nil =>
          have none : utf8Len [] = 0 := rfl
          omega
        | cons c middle =>
          have positive := c.utf8Size_pos
          rw [utf8Len_cons] at ends
          refine absurd ⟨front,c,middle ++ back,by rw [whole,rest]; rfl,starts,?_⟩ single
          omega
      · rw [utf8Len_append] at starts
        omega
    · rfl

-- What follows a marker is whitespace or nothing.
def Sealed (text : Str) : Prop := ∀ front back, text = front ++ nul :: back → ∀ b, back.head? = some b → whitespace b = true

theorem Sealed.tail (sealed : Sealed (c :: text)) : Sealed text :=
  fun front back whole => sealed (c :: front) back (by rw [whole]; rfl)

-- The marker of a sealed text is the last character of its word.
theorem wordsFrom_marker (sealed : Sealed rest)
    (marked : nul ∈ acc → acc.getLast? = some nul ∧ ∀ b, rest.head? = some b → whitespace b = true) :
    ∀ w ∈ wordsFrom acc rest, nul ∈ w → w.getLast? = some nul := by
  induction rest generalizing acc with
  | nil =>
    intro w member
    unfold wordsFrom at member
    split at member
    · cases member
    · rw [List.mem_singleton.mp member]
      exact fun inside => (marked inside).1
  | cons c rest ih =>
    unfold wordsFrom
    by_cases space : whitespace c = true
    · have later : ∀ w ∈ wordsFrom [] rest, nul ∈ w → w.getLast? = some nul := ih sealed.tail nofun
      rw [if_pos space]
      split
      · exact later
      · intro w member
        rcases List.mem_cons.mp member with rfl | inside
        · exact fun found => (marked found).1
        · exact later w inside
    · rw [if_neg space]
      refine ih sealed.tail fun inside => ?_
      rcases List.mem_append.mp inside with before | here
      · exact absurd ((marked before).2 c rfl) space
      · have same : c = nul := (List.mem_singleton.mp here).symm
        subst same
        exact ⟨by simp,sealed [] rest rfl⟩

theorem sealed_marker (before : nul ∉ front) (behind : nul ∉ back) (next : ∀ b, back.head? = some b → whitespace b = true) :
    Sealed (front ++ nul :: back) := by
  intro left right whole
  rcases List.append_eq_append_iff.mp whole with ⟨middle,rfl,rest⟩ | ⟨middle,rfl,rest⟩
  · cases middle with
    | nil =>
      cases rest
      exact next
    | cons b middle =>
      cases rest
      exact absurd (List.mem_append_right _ List.mem_cons_self) behind
  · cases middle with
    | nil =>
      cases rest
      exact next
    | cons b middle =>
      cases rest
      exact absurd (List.mem_append_right _ List.mem_cons_self) before

-- Whenever the marker is to be removed, it ends its word.
theorem markCursor_sealed (clean : nul ∉ compLine) (marked : markCursor compLine compPoint = .ok (line,none)) : Sealed line := by
  unfold markCursor at marked
  split at marked
  · rename_i t _
    split at marked
    · rcases replaceRange_byte compLine compPoint [nul,' '] with ⟨front,c,back,rfl,_,_,made⟩ | ⟨_,failed⟩
      · rw [made] at marked
        cases marked
        rw [List.append_assoc]
        change Sealed (front ++ nul :: ' ' :: back)
        refine sealed_marker (fun inside => clean (List.mem_append_left _ inside)) ?_ ?_
        · intro inside
          rcases List.mem_cons.mp inside with space | inside
          · exact absurd space (by decide)
          · exact clean (List.mem_append_right _ (List.mem_cons_of_mem _ inside))
        · intro b first
          cases first
          decide
      · rw [failed] at marked
        cases marked
    · cases replaced : replaceRange compLine compPoint (compPoint + 1) [nul] with
      | error e =>
        rw [replaced] at marked
        cases marked
      | ok line =>
        rw [replaced] at marked
        cases marked
  · cases marked
    exact sealed_marker clean List.not_mem_nil nofun

theorem replaceRange_ok (s : Str) (n : Nat) (r : Str) (f : Str → α) :
    (∃ made, (replaceRange s n (n+1) r).map f = .ok made) ↔ ByteCharAt s n := by
  rcases replaceRange_byte s n r with ⟨front,c,back,whole,starts,one,made⟩ | ⟨none,failed⟩
  · rw [made]
    exact ⟨fun _ => ⟨front,c,back,whole,starts,one⟩,fun _ => ⟨_,rfl⟩⟩
  · rw [failed]
    exact ⟨nofun,fun single => absurd single none⟩

theorem markCursor_ok (inside : compPoint ≤ compLine.length) :
    (∃ marked, markCursor compLine compPoint = .ok marked) ↔ compPoint = compLine.length ∨ ByteCharAt compLine compPoint := by
  rcases Nat.lt_or_eq_of_le inside with within | last
  · have found : compLine[compPoint]? = some compLine[compPoint] := List.getElem?_eq_getElem within
    rw [or_iff_right (Nat.ne_of_lt within)]
    unfold markCursor
    rw [found]
    dsimp only
    split
    · exact replaceRange_ok compLine compPoint [nul,' '] _
    · exact replaceRange_ok compLine compPoint [nul] _
  · refine ⟨fun _ => .inl last,fun _ => ⟨(compLine ++ [nul],none),?_⟩⟩
    unfold markCursor
    rw [last,List.getElem?_eq_none (Nat.le_refl _)]

-- The completions themselves have nothing to panic about.
abbrev Calm (act : Complete α) : Prop := Eff.FailsOnly (fun _ => False) act

theorem writeln_calm : Calm (writeln text) := .update

theorem completeFilter_calm : Calm (completeFilter options filterInc) := .forEach fun _ _ => .runIf writeln_calm

theorem scriptNames_calm (filterInc : Str) (entries : List (Except IoError Path)) : Calm (scriptNames filterInc entries) := by
  induction entries with
  | nil => exact .pure
  | cons entry rest ih =>
    unfold scriptNames
    cases entry with
    | error e => exact .pure
    | ok path =>
      dsimp only
      split
      · exact ih
      · exact .bind (.runIf writeln_calm) fun _ => ih

theorem completeCutScriptName_calm : Calm (completeCutScriptName shell filterInc) := by
  unfold completeCutScriptName
  split
  · exact .pure
  · exact scriptNames_calm _ _

theorem completeLocalFile_calm : Calm (completeLocalFile shell filterInc) := by
  unfold completeLocalFile
  split
  · exact .pure
  · exact .bind .update fun _ => .pure

theorem completeCutAnyParam_calm : Calm (completeCutAnyParam shell cursorCmpl seenB) :=
  .bind completeFilter_calm fun _ => completeCutScriptName_calm

theorem unwrap_calm {next : α → Complete β} (found : value = some v) (calm : Calm (next v)) : Calm (unwrap value >>= next) := by
  subst found
  exact ⟨calm.ok,calm.error⟩

theorem completeCut_calm {priorArgs : List Str} (command : priorArgs[1]? = some "cut".toList) (cursorCmpl : Str) (seenB : Bool) :
    Calm (completeCut shell priorArgs cursorCmpl seenB) := by
  have filled : priorArgs ≠ [] := by
    intro none
    rw [none] at command
    cases command
  unfold completeCut
  refine unwrap_calm command ?_
  rw [if_neg (not_not.mpr rfl)]
  split
  · exact completeCutAnyParam_calm
  · refine unwrap_calm (List.getLast?_eq_some_getLast filled) ?_
    split
    · exact completeLocalFile_calm
    · split
      · exact .pure
      · split
        · exact completeCutAnyParam_calm
        · split
          · exact .pure
          · split
            · split
              · exact completeCutAnyParam_calm
              · exact .pure
            · exact .pure

theorem nilArg_calm (sealed : compTok = none → nul ∈ s → s.getLast? = some nul) (e : Panic) :
    completeNilArgUnderCursor s compTok ≠ .error e := by
  intro failed
  unfold completeNilArgUnderCursor at failed
  split at failed
  · rename_i marked
    cases compTok with
    | some t => cases failed
    | none =>
      dsimp only at failed
      rw [if_pos (sealed rfl marked)] at failed
      cases failed
  · cases failed

-- Each word before the i-th one is in `args`.
theorem wordLoop_calm (shell : Shell) (words : List Str)
    (sealed : compTok = none → ∀ w ∈ words, nul ∈ w → w.getLast? = some nul) (i : Nat) (args : List Str) (collected : args.length = i) (seenMinusB : Bool) : Calm (wordLoop shell compTok i args seenMinusB words) := by
  induction words generalizing i args seenMinusB with
  | nil => exact .pure
  | cons s rest ih =>
    unfold wordLoop
    split
    · exact .pure
    · have here := nilArg_calm fun none => sealed none s List.mem_cons_self
      refine .bind (.ofExcept fun e failed => here e failed) fun (arg,underCursor) => ?_
      dsimp only
      split
      · split
        · exact .pure
        · split
          · exact .bind completeFilter_calm fun _ => .pure
          · rename_i notFirst notSecond
            have within : 1 < args.length := by omega
            refine unwrap_calm (List.getElem?_eq_getElem within) ?_
            split
            · rename_i cut
              exact completeCut_calm (by rw [List.getElem?_eq_getElem within,cut]) arg seenMinusB
            · exact .pure
      · refine ih (fun none w member => sealed none w (List.mem_cons_of_mem _ member)) (i+1) _ ?_ _
        rw [List.length_append,collected]
        rfl

theorem completion_returns (shell : Shell) (compLine : Str) (compPoint : Nat) (out : List UInt8) (clean : nul ∉ compLine)
    (inside : compPoint ≤ compLine.length) :
    (∃ completed, ((completeRapido shell compLine compPoint).run out).1 = .ok completed) ↔
      compPoint = compLine.length ∨
        ∃ front c back, compLine = front ++ c :: back ∧ utf8Len front = compPoint ∧ c.utf8Size = 1 := by
  refine Iff.trans ?_ (markCursor_ok inside)
  unfold completeRapido
  cases marked : markCursor compLine compPoint with
  | error e =>
    rw [Eff.ofExcept_error,Eff.fail_bind_run]
    exact ⟨nofun,nofun⟩
  | ok pair =>
    obtain ⟨line,compTok⟩ := pair
    have sealed : compTok = none → ∀ w ∈ splitWhitespace line, nul ∈ w → w.getLast? = some nul := by
      rintro rfl
      exact wordsFrom_marker (markCursor_sealed clean marked) nofun
    have calm := wordLoop_calm shell (splitWhitespace line) sealed 0 [] rfl false
    refine ⟨fun _ => ⟨_,rfl⟩,fun _ => ?_⟩
    rw [Eff.ofExcept_ok,Eff.pure_bind_run]
    cases ran : (wordLoop shell compTok 0 [] false (splitWhitespace line)).run out with
    | mk result after =>
      cases result with
      | ok completed => exact ⟨completed,rfl⟩
      | error e => exact (calm.error out e after trivial ran).elim

-- No cut directory, and a compgen without matches.
def bareShell : Shell := ⟨fun _ => .error (.ofKind .notFound),fun _ => .ok ([],false)⟩

-- The cursor is on the u.
theorem completion_returns_inside : nul ∉ "rapido cut".toList ∧ 8 ≤ "rapido cut".toList.length ∧
    ∃ completed, ((completeRapido bareShell "rapido cut".toList 8).run []).1 = .ok completed := by
  have clean : nul ∉ "rapido cut".toList := by decide +kernel
  have within : 8 ≤ "rapido cut".toList.length := by decide +kernel
  refine ⟨clean,within,(completion_returns bareShell _ 8 [] clean within).mpr (.inr ?_)⟩
  exact ⟨"rapido c".toList,'u',"t".toList,by decide +kernel,by decide +kernel,by decide +kernel⟩

-- The cursor is on the last character, which takes two bytes.
theorem completion_panics : nul ∉ "rapido cut é".toList ∧ 11 ≤ "rapido cut é".toList.length ∧
    ((completeRapido bareShell "rapido cut é".toList 11).run []).1 = .error .charBoundary := by decide +kernel

end Rapido.Completion
