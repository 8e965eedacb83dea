import Mathlib.Data.List.DropRight
import Mathlib.Algebra.Order.Ring.Nat
import Mathlib.Logic.Function.Basic

-- str: a text is its sequence of characters.
namespace Rapido.Text

abbrev Str := List Char

instance decidableMemWords (word : Str) (words : List Str) : Decidable (word ∈ words) := inferInstanceAs (Decidable (word ∈ words))

-- char::is_whitespace, the Unicode property White_Space.
def whitespace (c : Char) : Bool :=
  let n := c.toNat
  (9 ≤ n && n ≤ 13) || n == 0x20 || n == 0x85 || n == 0xa0 || n == 0x1680 || (0x2000 ≤ n && n ≤ 0x200a) ||
    n == 0x2028 || n == 0x2029 || n == 0x202f || n == 0x205f || n == 0x3000

def trimStart (s : Str) : Str := s.dropWhile whitespace
def trimEnd (s : Str) : Str := s.rdropWhile whitespace
def trim (s : Str) : Str := trimEnd (trimStart s)

-- str::len
def utf8Len (s : Str) : Nat := (s.map Char.utf8Size).sum

def endsWith (c : Char) (s : Str) : Bool := s.getLast? == some c
def startsWith (c : Char) (s : Str) : Bool := s.head? == some c

-- str::split_inclusive: every piece but the last ends in a separator.
def splitInclusive (separator : Char → Bool) : Str → List Str
  | [] => []
  | c :: rest => if separator c then [c] :: splitInclusive separator rest
    else match splitInclusive separator rest with
      | [] => [[c]]
      | piece :: pieces => (c :: piece) :: pieces

-- str::split_once
def splitOnce (separator : Char) : Str → Option (Str × Str)
  | [] => none
  | c :: rest => if c = separator then some ([],rest)
    else (splitOnce separator rest).map fun (front,back) => (c :: front,back)

variable {separator ok : Char → Bool} {s front rest piece : Str} {pieces : List Str} {c : Char}

theorem utf8Len_append (s t : Str) : utf8Len (s ++ t) = utf8Len s + utf8Len t := by simp [utf8Len]
theorem utf8Len_cons (c : Char) (s : Str) : utf8Len (c :: s) = c.utf8Size + utf8Len s := by simp [utf8Len]

theorem visible_of_all (all : (s.all fun c => !whitespace c) = true) : ∀ c ∈ s, whitespace c = false := by
  simpa using all

theorem splitInclusive_piece (plain : ∀ b ∈ front, separator b = false) (ends : separator c = true) (rest : Str) :
    splitInclusive separator (front ++ c :: rest) = (front ++ [c]) :: splitInclusive separator rest := by
  induction front with
  | nil => simp [splitInclusive,ends]
  | cons b front ih =>
    have first := plain b (by simp)
    rw [List.cons_append,splitInclusive,ih fun b member => plain b (List.mem_cons_of_mem _ member)]
    simp [first]

theorem splitInclusive_plain (plain : ∀ b ∈ s, separator b = false) :
    splitInclusive separator s = if s = [] then [] else [s] := by
  induction s with
  | nil => rfl
  | cons b s ih =>
    rw [splitInclusive,ih fun b member => plain b (List.mem_cons_of_mem _ member),plain b (by simp)]
    by_cases empty : s = [] <;> simp [empty]

-- A text cut at the first character of a kind.
theorem first_found (member : c ∈ s) (found : ok c = true) :
    ∃ front d rest, s = front ++ d :: rest ∧ (∀ b ∈ front, ok b = false) ∧ ok d = true := by
  induction s with
  | nil => cases member
  | cons b s ih =>
    cases here : ok b with
    | true => exact ⟨[],b,s,rfl,by simp,here⟩
    | false =>
      have later : c ∈ s := by
        rcases List.mem_cons.mp member with rfl | later
        · rw [found] at here; cases here
        · exact later
      obtain ⟨front,d,rest,equal,before,kind⟩ := ih later
      refine ⟨b :: front,d,rest,by rw [equal]; rfl,?_,kind⟩
      intro x inside
      rcases List.mem_cons.mp inside with rfl | more
      · exact here
      · exact before x more

theorem splitOnce_at (before : c ∉ front) (rest : Str) :
    splitOnce c (front ++ c :: rest) = some (front,rest) := by
  induction front with
  | nil => simp [splitOnce]
  | cons b front ih =>
    have other : b ≠ c := fun same => before (same ▸ List.mem_cons_self ..)
    rw [List.cons_append,splitOnce,if_neg other,ih fun member => before (List.mem_cons_of_mem _ member)]
    rfl

theorem splitOnce_eq (cut : splitOnce c s = some (front,rest)) : s = front ++ c :: rest := by
  induction s generalizing front with
  | nil => cases cut
  | cons b s ih =>
    unfold splitOnce at cut
    split at cut
    · rename_i same
      cases cut
      rw [same]
      rfl
    · cases later : splitOnce c s with
      | none => simp [later] at cut
      | some pair =>
        obtain ⟨front',rest'⟩ := pair
        rw [later] at cut
        cases cut
        rw [ih later]
        rfl

theorem splitOnce_before (cut : splitOnce c s = some (front,rest)) : c ∉ front := by
  induction s generalizing front with
  | nil => cases cut
  | cons b s ih =>
    unfold splitOnce at cut
    split at cut
    · cases cut
      exact List.not_mem_nil
    · rename_i other
      cases later : splitOnce c s with
      | none => simp [later] at cut
      | some pair =>
        obtain ⟨front',rest'⟩ := pair
        rw [later] at cut
        cases cut
        exact List.not_mem_cons_of_ne_of_not_mem (Ne.symm other) (ih later)

theorem trimStart_keeps (first : ∀ b, s.head? = some b → whitespace b = false) : trimStart s = s := by
  cases s with
  | nil => rfl
  | cons b s => simp [trimStart,first b rfl]

theorem trimStart_head (first : (trimStart s).head? = some c) : whitespace c = false := by
  induction s with
  | nil => cases first
  | cons b s ih =>
    rw [trimStart,List.dropWhile_cons] at first
    split at first
    · exact ih first
    · rename_i visible
      cases first
      simpa using visible

theorem flatten_splitInclusive (separator : Char → Bool) (s : Str) : (splitInclusive separator s).flatten = s := by
  induction s with
  | nil => rfl
  | cons b s ih =>
    unfold splitInclusive
    split
    · rw [List.flatten_cons,ih]
      rfl
    · split
      · rename_i none
        rw [none] at ih
        rw [← ih]
        rfl
      · rename_i piece pieces some
        rw [some] at ih
        rw [← ih]
        rfl

theorem splitInclusive_ne_nil (member : piece ∈ splitInclusive separator s) : piece ≠ [] := by
  induction s generalizing piece with
  | nil => cases member
  | cons b s ih =>
    unfold splitInclusive at member
    split at member
    · rcases List.mem_cons.mp member with rfl | later
      · simp
      · exact ih later
    · split at member
      · rw [List.mem_singleton.mp member]
        simp
      · rename_i first pieces some
        rcases List.mem_cons.mp member with rfl | later
        · simp
        · exact ih (by rw [some]; exact List.mem_cons_of_mem _ later)

def EndsIn (ok : Char → Bool) (s : Str) : Prop := ∃ c, s.getLast? = some c ∧ ok c = true

-- Pieces that all end properly, the last one excepted.
def Terminated (ok : Char → Bool) : List Str → Prop
  | [] => True
  | piece :: rest => (rest ≠ [] → EndsIn ok piece) ∧ Terminated ok rest

theorem splitInclusive_terminated (separator : Char → Bool) (s : Str) :
    Terminated separator (splitInclusive separator s) := by
  induction s with
  | nil => trivial
  | cons b s ih =>
    unfold splitInclusive
    split
    · rename_i ends
      exact ⟨fun _ => ⟨b,rfl,ends⟩,ih⟩
    · split
      · exact ⟨fun more => absurd rfl more,trivial⟩
      · rename_i piece pieces some
        rw [some] at ih
        refine ⟨fun more => ?_,ih.2⟩
        obtain ⟨c,last,ends⟩ := ih.1 more
        exact ⟨c,by rw [List.getLast?_cons,last]; rfl,ends⟩

theorem Terminated.mono (weaker : ∀ c, separator c = true → ok c = true) (terminated : Terminated separator pieces) :
    Terminated ok pieces := by
  induction pieces with
  | nil => trivial
  | cons piece rest ih =>
    refine ⟨fun more => ?_,ih terminated.2⟩
    obtain ⟨c,last,ends⟩ := terminated.1 more
    exact ⟨c,last,weaker c ends⟩

-- Once the whole text ends properly, so does its last piece.
theorem Terminated.all (terminated : Terminated ok pieces) (whole : EndsIn ok pieces.flatten)
    (filled : ∀ piece ∈ pieces, piece ≠ []) : ∀ piece ∈ pieces, EndsIn ok piece := by
  induction pieces with
  | nil => intro piece member; cases member
  | cons first rest ih =>
    cases rest with
    | nil =>
      intro piece member
      rw [List.mem_singleton.mp member]
      rwa [List.flatten_singleton] at whole
    | cons second rest =>
      have later : EndsIn ok (second :: rest).flatten := by
        obtain ⟨c,last,ends⟩ := whole
        have some : (second :: rest).flatten ≠ [] := by simp [filled second (by simp)]
        rw [List.flatten_cons,List.getLast?_append_of_ne_nil _ some] at last
        exact ⟨c,last,ends⟩
      intro piece member
      rcases List.mem_cons.mp member with rfl | inside
      · exact terminated.1 (by simp)
      · exact ih terminated.2 later (fun piece member => filled piece (List.mem_cons_of_mem _ member)) piece inside

end Rapido.Text
