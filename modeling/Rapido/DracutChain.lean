import Rapido.DracutProgram

-- Runs of dracut-cpio one after the other: what a file of chained archives holds.
namespace Rapido.DracutCpio
open UnixPath Cpio Newc Text Arguments

variable {props : ArchiveProperties}

theorem fromMetadata_props {state : ArchiveState} (same : state.props = props) (md : Metadata) :
    ArchiveMd.fromMetadata state md = ArchiveMd.fromMetadata (.new props) md := by
  subst same
  rfl

-- The calls for these paths, as the host describes them.
abbrev CallsFor (fs : FileSystem) (props : ArchiveProperties) (paths : List Path) (calls : List Call) : Prop :=
  List.Forall₂ (fun path call => pathCall fs (.new props) path = .ok call) paths calls

theorem CallsFor.bodies (called : CallsFor fs props paths calls) : ∀ c ∈ calls, c ≠ .trailer := by
  induction called with
  | nil => exact nofun
  | cons here rest ih => exact List.forall_mem_cons.mpr ⟨(pathCall_target here).2,ih⟩

-- The data of a large file lies at a multiple of the alignment, counted from the
-- start of the file that the archive was appended to. The name and the padding
-- have to fit in the name field.
def Placed (props : ArchiveProperties) (off : Nat) (calls : List Call) (bytes : List UInt8) : Prop :=
  (∃ k, props.dataAlign.toNat = 2^k) → ∀ front p md data back, calls = front ++ .file p md data :: back → md.len > props.dataAlign →
    (∀ fname, pathTrimPrefixes p = .ok fname → fname.length + props.dataAlign.toNat ≤ props.namesizeMax.toNat) →
    ∃ lead rest, bytes = lead ++ data ++ rest ∧ (off + lead.length) % props.dataAlign.toNat = 0

-- Whatever follows, the archive is read as these calls, if none of them has the
-- trailer's name.
def ReadBack (calls : List Call) (bytes : List UInt8) : Prop :=
  (∀ c ∈ calls, ¬c.Named trailerName) → ∀ rest, (bytes ++ rest).length < 2^63 →
    ∃ ents, Lists (bytes ++ rest) ents ∧ List.Forall₂ Carries calls ents

-- What one run has left in a file that was off bytes long: whole blocks, with
-- the paths that it was given.
structure Segment (inv : Invocation) (off : Nat) (bytes : List UInt8) : Prop where
  block : bytes.length % 512 = 0
  archived : ∃ output truncate props calls, paramsProcess inv.args = .ok (output,truncate,props) ∧
    CallsFor inv.toFileSystem props (listedPaths (listedLines inv.input)) calls ∧ ReadBack calls bytes ∧ Placed props off calls bytes

-- What was in the file is kept, unless it is to be emptied.
def existing (truncate : Bool) (bytes : List UInt8) : List UInt8 := bif truncate then [] else bytes

-- Archives one behind the other, each by its own run.
inductive Chained : Nat → List Invocation → List (List UInt8) → Prop where
  | nil : Chained off [] []
  | cons (here : Segment inv off bytes) (rest : Chained (off + bytes.length) runs archives) :
      Chained off (inv :: runs) (bytes :: archives)

theorem Chained.block (chained : Chained off runs archives) : archives.flatten.length % 512 = 0 := by
  induction chained with
  | nil => rfl
  | cons here rest ih =>
    have first := here.block
    rw [List.flatten_cons,List.length_append]
    omega

theorem Chained.snoc (chained : Chained off runs archives) (last : Segment inv (off + archives.flatten.length) bytes) :
    Chained off (runs ++ [inv]) (archives ++ [bytes]) := by
  induction chained with
  | nil => exact .cons last .nil
  | cons here rest ih =>
    rw [List.flatten_cons,List.length_append,← Nat.add_assoc] at last
    exact .cons here (ih last)

-- The runs whose archives a file still holds.
def keep (file : Path) (runs : List Invocation) (inv : Invocation) : List Invocation :=
  match paramsProcess inv.args with
  | .ok (path,truncate,_) => if path = file then (bif truncate then [inv] else runs ++ [inv]) else runs
  | .error _ => runs

end Rapido.DracutCpio
