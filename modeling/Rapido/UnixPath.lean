import Mathlib.Data.List.DropRight
import Mathlib.Algebra.Order.BigOperators.Group.List
import Mathlib.Algebra.Order.Ring.Nat

-- std::path on Unix: a path is its bytes, and two paths are equal (also as
-- keys of a HashSet) when their component sequences are.
namespace Rapido.UnixPath

abbrev Path := List UInt8
abbrev slash : UInt8 := 47
abbrev dot : UInt8 := 46

inductive Component where
  | rootDir
  | curDir
  | parentDir
  | normal (name : List UInt8)
deriving DecidableEq, Repr

-- Looked up in a set of paths, of components or of names.
instance decidableMemKeys (key : List Component) (keys : List (List Component)) : Decidable (key ∈ keys) :=
  inferInstanceAs (Decidable (key ∈ keys))
instance decidableMemPaths (p : Path) (paths : List Path) : Decidable (p ∈ paths) := inferInstanceAs (Decidable (p ∈ paths))

def segments (p : Path) : List (List UInt8) := p.splitOn slash

-- Empty and "." segments are no components of a path's body.
def parseSingle (segment : List UInt8) : Option Component :=
  if segment = [] ∨ segment = [dot] then none
  else if segment = [dot,dot] then some .parentDir
  else some (.normal segment)

def trivialSegment (segment : List UInt8) : Bool := (parseSingle segment).isNone

def isAbsolute (p : Path) : Bool := p.head? == some slash

-- A leading "." is kept as a component of a relative path.
def includeCurDir : Path → Bool
  | [b] => b == dot
  | b :: c :: _ => b == dot && c == slash
  | [] => false

def body (p : Path) : List Component := (segments p).filterMap parseSingle

def components (p : Path) : List Component :=
  (if isAbsolute p then [.rootDir] else if includeCurDir p then [.curDir] else []) ++ body p

def unsegments (parts : List (List UInt8)) : Path := [slash].intercalate parts

-- Components::as_path once the root or the leading "." has been consumed.
def trimBody (bytes : List UInt8) : Path :=
  unsegments (((segments bytes).dropWhile trivialSegment).rdropWhile trivialSegment)

-- p.strip_prefix("/")
def stripRoot (p : Path) : Option Path :=
  if isAbsolute p then some (trimBody (p.drop 1)) else none

-- p.strip_prefix("./"), which is p.strip_prefix(".")
def stripCurDir (p : Path) : Option Path :=
  if includeCurDir p then some (trimBody (p.drop 1)) else none

-- Path::join and PathBuf::push
def join (p q : Path) : Path :=
  if isAbsolute q then q
  else if p.getLast?.all (· == slash) then p ++ q
  else p ++ slash :: q

-- Path::parent: the path before its last component, none for "/" and "".
def parent (p : Path) : Option Path :=
  let front := if isAbsolute p || includeCurDir p then p.take 1 else []
  let rest := (segments (p.drop front.length)).rdropWhile trivialSegment
  if rest = [] then (if includeCurDir p then some [] else none)
  else some (front ++ unsegments (rest.dropLast.rdropWhile trivialSegment))

-- Path::file_name
def fileName (p : Path) : Option (List UInt8) :=
  match (components p).getLast? with
  | some (.normal name) => some name
  | _ => none

-- The part of a file name before its last dot and the one behind it. A name
-- that starts with its only dot has no extension.
def rsplitFileAtDot (file : List UInt8) : Option (List UInt8) × Option (List UInt8) :=
  if file = [dot,dot] then (some file,none)
  else match file.reverse.dropWhile (· ≠ dot) with
    | [] => (none,some file)
    | _ :: front =>
      if front = [] then (some file,none) else (some front.reverse,some (file.reverse.takeWhile (· ≠ dot)).reverse)

-- Path::file_stem and Path::extension
def fileStem (p : Path) : Option (List UInt8) := (fileName p).bind fun file => (rsplitFileAtDot file).1.or (rsplitFileAtDot file).2
def extension (p : Path) : Option (List UInt8) := (fileName p).bind fun file => (rsplitFileAtDot file).1.bind fun _ => (rsplitFileAtDot file).2

-- std::path::absolute: "." components go, ".." components stay, exactly two
-- leading slashes stay, a trailing slash stays.
def absolute (cwd p : Path) : Option Path :=
  if p = [] then none else
  let parts := ((stripCurDir p).getD p)
  let start : Path :=
    if isAbsolute p then (if [slash,slash] <+: p ∧ ¬[slash,slash,slash] <+: p then [slash,slash] else [slash])
    else cwd
  let pushed := (body parts).foldl (fun acc c => match c with
    | .normal name => join acc name
    | .parentDir => join acc [dot,dot]
    | _ => acc) start
  some (if p.getLast? = some slash then join pushed [] else pushed)

theorem mem_unsegments (member : b ∈ unsegments parts) : b = slash ∨ ∃ part ∈ parts, b ∈ part := by
  induction parts with
  | nil => simp [unsegments] at member
  | cons part rest ih =>
    cases rest with
    | nil =>
      rw [unsegments,List.intercalate_singleton] at member
      exact .inr ⟨part,by simp,member⟩
    | cons second rest =>
      rw [unsegments,List.intercalate_cons_cons] at member
      rcases List.mem_append.mp member with front | tail
      · rcases List.mem_append.mp front with here | separator
        · exact .inr ⟨part,by simp,here⟩
        · exact .inl (List.mem_singleton.mp separator)
      · rcases ih tail with separator | ⟨other,present,inside⟩
        · exact .inl separator
        · exact .inr ⟨other,List.mem_cons_of_mem _ present,inside⟩

theorem unsegments_mem (present : part ∈ parts) (inside : b ∈ part) : b ∈ unsegments parts := by
  induction parts with
  | nil => cases present
  | cons head rest ih =>
    cases rest with
    | nil =>
      rw [unsegments,List.intercalate_singleton,← List.mem_singleton.mp present]
      exact inside
    | cons second rest =>
      rw [unsegments,List.intercalate_cons_cons]
      rcases List.mem_cons.mp present with rfl | later
      · exact List.mem_append_left _ (List.mem_append_left _ inside)
      · exact List.mem_append_right _ (ih later)

theorem segments_mem (present : part ∈ segments p) (inside : b ∈ part) : b ∈ p := by
  have whole : unsegments (segments p) = p := List.intercalate_splitOn slash
  rw [← whole]
  exact unsegments_mem present inside

theorem trimBody_mem (member : b ∈ trimBody bytes) : b = slash ∨ b ∈ bytes := by
  rcases mem_unsegments member with separator | ⟨part,present,inside⟩
  · exact .inl separator
  · have kept := (List.dropWhile_suffix _).subset ((List.rdropWhile_prefix _ _).subset present)
    exact .inr (segments_mem kept inside)

theorem length_unsegments (parts : List (List UInt8)) :
    (unsegments parts).length = (parts.map fun part => part.length + 1).sum - 1 := by
  induction parts with
  | nil => rfl
  | cons part rest ih =>
    cases rest with
    | nil => simp [unsegments]
    | cons second rest =>
      rw [unsegments,List.intercalate_cons_cons,List.length_append,List.length_append,← unsegments,ih]
      simp only [List.map_cons,List.sum_cons,List.length_singleton]
      omega

theorem length_unsegments_sublist (inside : fewer.Sublist parts) : (unsegments fewer).length ≤ (unsegments parts).length := by
  have less := (inside.map fun part => part.length + 1).sum_le_sum fun _ _ => Nat.zero_le _
  rw [length_unsegments,length_unsegments]
  omega

theorem length_trimBody_le (bytes : List UInt8) : (trimBody bytes).length ≤ bytes.length := by
  have inside : (((segments bytes).dropWhile trivialSegment).rdropWhile trivialSegment).Sublist (segments bytes) :=
    (List.rdropWhile_prefix _ _).sublist.trans (List.dropWhile_sublist _)
  have whole : unsegments (segments bytes) = bytes := List.intercalate_splitOn slash
  have less := length_unsegments_sublist inside
  rwa [whole] at less

end Rapido.UnixPath
