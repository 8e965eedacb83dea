import Rapido.ConfDefaults
import Mathlib.Data.List.Infix

-- rapido.conf as the host and the guest read it.
namespace Rapido.KvConf
open Text

-- src/lib.rs
def confKmodDeps (conf : Map) : List Str :=
  let deps := match conf "QEMU_EXTRA_ARGS".toList with
    | some v => if "virtio-rng-pci".toList <:+: v then ["virtio_rng".toList] else []
    | none => []
  if (conf "VIRTFS_SHARE_PATH".toList).isSome then deps ++ ["9pnet".toList,"9pnet_virtio".toList,"9p".toList] else deps

-- The pairs a text assigns, in order, read from a given map on.
def assignments (buffer : Str) (map : Map) : List Str → List (Str × Str)
  | [] => []
  | line :: rest => match kvProcess (buffer ++ line) map with
    | (.error _,_) => []
    | (.ok (some (k,v)),buffer) => (k,v) :: assignments buffer (map.insert k v) rest
    | (.ok none,buffer) => assignments buffer map rest

def assignedKeys (text : Str) (map : Map) : List Str := (assignments [] map (linesOf text)).map Prod.fst

-- What the guest map holds, and the defaults elsewhere.
def overlay (guest defaults : Map) : Map := fun k => (guest k).or (defaults k)

theorem overlay_insert (guest defaults : Map) (k v : Str) :
    (overlay guest defaults).insert k v = overlay (guest.insert k v) defaults := by
  funext other
  by_cases same : other = k
  · simp [overlay,Map.insert,same]
  · simp [overlay,Map.insert,same]

-- A line that succeeds on the guest's map reads nothing the host has otherwise.
theorem process_overlay (defaults : Map) (ran : kvProcess line guest = (.ok result,buffer)) :
    kvProcess line (overlay guest defaults) = (.ok result,buffer) := by
  rw [← ran]
  refine (process_congr fun k member => ?_).symm
  cases found : guest k with
  | some v => simp [overlay,found]
  | none =>
    obtain ⟨e,left,failed⟩ := process_missing member found
    rw [ran] at failed
    cases failed

theorem assignments_step (processed : kvProcess (buffer ++ line) map = (.ok result,left)) (rest : List Str) :
    assignments buffer map (line :: rest) = result.toList ++ assignments left (assignResult map result) rest := by
  simp only [assignments,processed]
  cases result with
  | none => rfl
  | some pair => rfl

theorem overlay_assign (guest defaults : Map) (result : Option (Str × Str)) :
    assignResult (overlay guest defaults) result = overlay (assignResult guest result) defaults := by
  cases result with
  | none => rfl
  | some pair => exact overlay_insert guest defaults pair.1 pair.2

theorem append_overlay (defaults : Map) (lines : List Str) (linenum : Nat) (buffer : Str) (guest : Map)
    (ran : appendLines linenum buffer guest lines = (.ok (),final)) :
    appendLines linenum buffer (overlay guest defaults) lines = (.ok (),overlay final defaults) ∧
      assignments buffer (overlay guest defaults) lines = assignments buffer guest lines := by
  induction lines generalizing linenum buffer guest with
  | nil =>
    obtain ⟨rfl,rfl⟩ := append_done ran
    exact ⟨rfl,rfl⟩
  | cons line rest ih =>
    obtain ⟨short,result,left,processed,later⟩ := append_inverted ran
    have overlaid := process_overlay defaults processed
    obtain ⟨run,same⟩ := ih (linenum+1) left (assignResult guest result) later
    rw [append_step short overlaid,assignments_step overlaid,assignments_step processed,overlay_assign]
    exact ⟨run,by rw [same]⟩

-- A key holds what was assigned to it last, or what it held before.
theorem append_keys (lines : List Str) (linenum : Nat) (buffer : Str) (map : Map)
    (ran : appendLines linenum buffer map lines = (.ok (),final)) :
    (∀ k ∈ (assignments buffer map lines).map Prod.fst, (final k).isSome = true) ∧
      ∀ k, k ∉ (assignments buffer map lines).map Prod.fst → final k = map k := by
  induction lines generalizing linenum buffer map with
  | nil =>
    obtain ⟨_,rfl⟩ := append_done ran
    exact ⟨by simp [assignments],fun _ _ => rfl⟩
  | cons line rest ih =>
    obtain ⟨_,result,left,processed,ran⟩ := append_inverted ran
    rw [assignments_step processed]
    obtain ⟨later,kept⟩ := ih (linenum+1) left (assignResult map result) ran
    cases result with
    | none => exact ⟨later,kept⟩
    | some assigned =>
      obtain ⟨key,val⟩ := assigned
      refine ⟨?_,?_⟩
      · intro k member
        by_cases again : k ∈ (assignments left (map.insert key val) rest).map Prod.fst
        · exact later k again
        · have here : k = key := (List.mem_cons.mp member).resolve_right again
          rw [kept k again,here]
          simp [assignResult,Map.insert]
      · intro k absent
        have other : k ≠ key := fun same => absent (same ▸ List.mem_cons_self)
        rw [kept k fun member => absent (List.mem_cons_of_mem _ member)]
        simp [assignResult,Map.insert,other]

theorem kmodDeps_overlay (guest : Map) (member : dep ∈ confKmodDeps guest) :
    dep ∈ confKmodDeps (overlay guest confDefaults) := by
  have share : (overlay guest confDefaults) "VIRTFS_SHARE_PATH".toList = guest "VIRTFS_SHARE_PATH".toList := by
    have none : confDefaults "VIRTFS_SHARE_PATH".toList = none := by decide +kernel
    unfold overlay
    rw [none,Option.or_none]
  unfold confKmodDeps at member ⊢
  rw [share]
  cases args : guest "QEMU_EXTRA_ARGS".toList with
  | some v =>
    have same : (overlay guest confDefaults) "QEMU_EXTRA_ARGS".toList = some v := by
      unfold overlay
      rw [args,Option.some_or]
    rw [args] at member
    rw [same]
    exact member
  | none =>
    rw [args] at member
    dsimp only at member ⊢
    split
    · rename_i shared
      rw [if_pos shared] at member
      exact List.mem_append_right _ member
    · rename_i unshared
      rw [if_neg unshared] at member
      cases member

theorem kvConfProcess_ok (ran : kvConfProcess text = .ok map) : kvConfProcessAppend text .empty = (.ok (),map) := by
  unfold kvConfProcess at ran
  split at ran
  · rename_i found
    cases ran
    exact found
  · cases ran

theorem host_guest_agree (text : Str) (host guest : Map) (onHost : kvConfProcessAppend text confDefaults = (.ok (),host))
    (onGuest : kvConfProcess text = .ok guest) :
    assignedKeys text confDefaults = assignedKeys text .empty ∧
      (∀ k ∈ assignedKeys text .empty, ∃ v, host k = some v ∧ guest k = some v) ∧
      (∀ k, host k ≠ guest k → (confDefaults k).isSome = true ∧ k ∉ assignedKeys text .empty) ∧
      ∀ dep ∈ confKmodDeps guest, dep ∈ confKmodDeps host := by
  have read := kvConfProcess_ok onGuest
  have start : overlay .empty confDefaults = confDefaults := rfl
  obtain ⟨whole,same⟩ := append_overlay confDefaults (linesOf text) 1 [] .empty read
  rw [start] at whole same
  have equal : host = overlay guest confDefaults := by
    unfold kvConfProcessAppend at onHost
    rw [whole] at onHost
    exact (congrArg Prod.snd onHost).symm
  obtain ⟨set,unset⟩ := append_keys (linesOf text) 1 [] .empty read
  subst equal
  refine ⟨congrArg (List.map Prod.fst) same,?_,?_,?_⟩
  · intro k member
    obtain ⟨v,found⟩ := Option.isSome_iff_exists.mp (set k member)
    exact ⟨v,by simp [overlay,found],found⟩
  · intro k differs
    cases found : guest k with
    | some v => exact absurd (by simp [overlay,found]) differs
    | none =>
      refine ⟨?_,fun member => ?_⟩
      · cases default : confDefaults k with
        | some v => rfl
        | none => exact absurd (by simp [overlay,found,default]) differs
      · have present := set k member
        rw [found] at present
        cases present
  · exact fun dep member => kmodDeps_overlay guest member

-- A default that is overridden and then read.
theorem host_guest_agree_override : ∃ host guest, kvConfProcessAppend ownKey confDefaults = (.ok (),host) ∧
    kvConfProcess ownKey = .ok guest ∧ host "X".toList = guest "X".toList := by
  have accepted : (kvConfProcessAppend ownKey confDefaults).1 = .ok () := by decide +kernel
  have read : (kvConfProcessAppend ownKey .empty).1 = .ok () := by decide +kernel
  obtain ⟨host,onHost⟩ : ∃ host, kvConfProcessAppend ownKey confDefaults = (.ok (),host) := ⟨_,Prod.ext accepted rfl⟩
  obtain ⟨guest,onGuest⟩ : ∃ guest, kvConfProcess ownKey = .ok guest := by
    unfold kvConfProcess
    generalize kvConfProcessAppend ownKey .empty = pair at read
    obtain ⟨result,map⟩ := pair
    cases read
    exact ⟨map,rfl⟩
  have assigned : "X".toList ∈ assignedKeys ownKey .empty := by decide +kernel
  obtain ⟨_,values,_⟩ := host_guest_agree ownKey host guest onHost onGuest
  obtain ⟨v,left,right⟩ := values _ assigned
  exact ⟨host,guest,onHost,onGuest,left.trans right.symm⟩

-- No line refers to a key that a line before it has assigned.
def readsApart (seen : List Str) (buffer : Str) (map : Map) : List Str → Bool
  | [] => true
  | line :: rest => (kvRefs (buffer ++ line)).all (· ∉ seen) &&
    match kvProcess (buffer ++ line) map with
    | (.ok (some (k,v)),buffer) => readsApart (k :: seen) buffer (map.insert k v) rest
    | (.ok none,buffer) => readsApart seen buffer map rest
    | (.error _,_) => true

-- The keys outside `seen` are not set yet.
def Within (seen : List Str) (map : Map) : Prop := ∀ k, k ∉ seen → map k = none

theorem Within.insert (within : Within seen map) (key val : Str) : Within (key :: seen) (map.insert key val) := by
  intro k absent
  have other : k ≠ key := fun same => absent (same ▸ List.mem_cons_self)
  simp [Map.insert,other,within k fun member => absent (List.mem_cons_of_mem _ member)]

theorem process_apart (within : Within seen map) (apart : ∀ k ∈ kvRefs line, k ∉ seen) (varmap : Map) :
    kvProcess line (overlay map varmap) = kvProcess line varmap := by
  refine process_congr fun k member => ?_
  unfold overlay
  rw [within k (apart k member),Option.none_or]

theorem separate_overlay (varmap : Map) (lines : List Str) (linenum : Nat) (buffer : Str) (map : Map)
    (within : Within seen map) (apart : readsApart seen buffer (overlay map varmap) lines = true) :
    (appendLines linenum buffer (overlay map varmap) lines).1 = (separateLines linenum buffer varmap map lines).1 ∧
      (appendLines linenum buffer (overlay map varmap) lines).2 =
        overlay (separateLines linenum buffer varmap map lines).2 varmap := by
  induction lines generalizing linenum buffer map seen with
  | nil =>
    unfold appendLines separateLines
    cases kvReadLine linenum [] buffer with
    | error e => exact ⟨rfl,rfl⟩
    | ok _ => exact ⟨rfl,rfl⟩
  | cons line rest ih =>
    unfold appendLines separateLines kvReadLine
    dsimp only
    by_cases long : utf8Len line > CONF_LINE_MAX
    · rw [if_pos long]
      exact ⟨rfl,rfl⟩
    · rw [if_neg long]
      dsimp only
      unfold readsApart at apart
      obtain ⟨here,later⟩ := Bool.and_eq_true_iff.mp apart
      have outside : ∀ k ∈ kvRefs (buffer ++ line), k ∉ seen := by
        intro k member
        exact of_decide_eq_true (List.all_eq_true.mp here k member)
      -- the lookup sees none of what the lines so far assigned
      rw [process_apart within outside] at later ⊢
      cases processed : kvProcess (buffer ++ line) varmap with
      | mk result left =>
        rw [processed] at later
        cases result with
        | error e => exact ⟨rfl,rfl⟩
        | ok pair =>
          cases pair with
          | none => exact ih (linenum+1) left map within later
          | some assigned =>
            obtain ⟨k,v⟩ := assigned
            dsimp only at later ⊢
            rw [overlay_insert] at later ⊢
            exact ih (linenum+1) left (map.insert k v) (within.insert k v) later

theorem separate_agrees (text : Str) (map : Map) (apart : readsApart [] [] map (linesOf text) = true) :
    (kvConfProcessAppend text map).1 = (kvConfProcessAppendSeparate text map .empty).1 ∧
      (kvConfProcessAppend text map).2 = overlay (kvConfProcessAppendSeparate text map .empty).2 map := by
  have start : overlay .empty map = map := rfl
  have within : Within [] .empty := fun _ _ => rfl
  obtain ⟨result,final⟩ := separate_overlay map (linesOf text) 1 [] .empty within (by rw [start]; exact apart)
  rw [start] at result final
  exact ⟨result,final⟩

def separateKeys : Str := "key=separate\nnextkey=stuff$\x7bextra\x7d".toList
def extraVar : Map := (Map.insert .empty "key".toList "val".toList).insert "extra".toList "overhere".toList

theorem separate_agrees_varmap : (kvConfProcessAppend separateKeys extraVar).1 = .ok () ∧
    (kvConfProcessAppendSeparate separateKeys extraVar .empty).1 = .ok () ∧
    (kvConfProcessAppend separateKeys extraVar).2 "nextkey".toList = some "stuffoverhere".toList := by
  obtain ⟨result,final⟩ := separate_agrees separateKeys extraVar (by decide +kernel)
  have succeeds : (kvConfProcessAppendSeparate separateKeys extraVar .empty).1 = .ok () := by decide +kernel
  refine ⟨result.trans succeeds,succeeds,?_⟩
  rw [final]
  decide +kernel

end Rapido.KvConf
