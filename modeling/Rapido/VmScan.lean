import Rapido.VmAlignment

-- The loop of vm_resources_get stops behind the rapido-rsc entries, as if it had
-- read on to the end.
namespace Rapido.Vm
open Cpio Newc Radix

-- vm_resource_line_process with the &mut argument as it is left behind.
def vmResourceLineProcessMut (line : List UInt8) : Eff IoError VmResources Bool :=
  if RSC_CPU <+: line then do
    let cpus ← .ofExcept (parseCpus (line.drop RSC_CPU.length))
    Eff.update fun rscs => {rscs with cpus}
    return true
  else if RSC_MEM <+: line then do
    let mem ← .ofExcept (parseMem (line.drop RSC_MEM.length))
    Eff.update fun rscs => {rscs with mem}
    return true
  else if line = RSC_CUSTOM_ARGS then pure true
  else if line = RSC_NET then do
    Eff.update fun rscs => {rscs with net:=true}
    return true
  else if RSC <+: line then pure true
  else pure false

theorem processMut_run (line : List UInt8) (rscs : VmResources) : (vmResourceLineProcessMut line).run rscs =
    match vmResourceLineProcess line rscs with
    | .ok (inside,after) => (.ok inside,after)
    | .error e => (.error e,rscs) := by
  unfold vmResourceLineProcessMut vmResourceLineProcess
  split
  · cases parseCpus (line.drop RSC_CPU.length) <;> rfl
  · split
    · cases parseMem (line.drop RSC_MEM.length) <;> rfl
    · split
      · rfl
      · split
        · rfl
        · split <;> rfl

-- All names in order from the defaults.
def fullScan (names : List (List UInt8)) : Except IoError VmResources :=
  match (Eff.forEach (fun name => vmResourceLineProcessMut name >>= fun _ => pure ()) names).run .defaults with
  | (.ok (),rscs) => .ok rscs
  | (.error e,_) => .error e

theorem fullScan_settle (names : List (List UInt8)) : fullScan names = settle .defaults names := by
  unfold fullScan
  generalize VmResources.defaults = rscs
  induction names generalizing rscs with
  | nil => rfl
  | cons name rest ih =>
    rw [settle_cons,Eff.forEach]
    simp only [Eff.bind_run,processMut_run]
    cases vmResourceLineProcess name rscs with
    | error e => rfl
    | ok pair => exact ih pair.2

-- Between two rapido-rsc entries there are only others.
def Consecutive (names : List (List UInt8)) : Prop := ∀ a b c, [a,b,c].Sublist names → RSC <+: a → RSC <+: c → RSC <+: b

-- Behind one there is none after the first other entry.
def Closing (names : List (List UInt8)) : Prop := ∀ b c, [b,c].Sublist names → RSC <+: c → RSC <+: b

theorem Consecutive.closing (together : Consecutive (name :: rest)) (inside : RSC <+: name) : Closing rest :=
  fun b c sub => together name b c (sub.cons_cons name) inside

theorem Closing.tail (closing : Closing (name :: rest)) : Closing rest := fun b c sub => closing b c (sub.cons name)

theorem Closing.outside (closing : Closing (name :: rest)) (outside : ¬RSC <+: name) : ∀ c ∈ rest, ¬RSC <+: c :=
  fun c member inside => outside (closing name c ((List.singleton_sublist.mpr member).cons_cons name) inside)

theorem settle_outside (outside : ∀ c ∈ names, ¬RSC <+: c) (rscs : VmResources) : settle rscs names = .ok rscs := by
  induction names with
  | nil => rfl
  | cons name rest ih =>
    rw [settle_cons,process_outside (outside name List.mem_cons_self)]
    exact ih fun c member => outside c (List.mem_cons_of_mem _ member)

-- Whatever fuel the loop comes to its end with.
theorem loop_settles (lists : Lists img (front ++ rest))
    (grouped : if inRsc = true then Closing (rest.map ArchiveEnt.visible) else Consecutive (rest.map ArchiveEnt.visible))
    (ran : resourcesLoop fuel rscs inRsc (readerAt img front.length) = some result) :
    result = settle rscs (rest.map ArchiveEnt.visible) := by
  induction rest generalizing fuel front rscs inRsc with
  | nil =>
    cases fuel with
    | zero => cases ran
    | succ fuel =>
      rw [List.append_nil] at lists
      obtain ⟨r,ended⟩ := lists.last
      unfold resourcesLoop at ran
      rw [ended] at ran
      cases ran
      rfl
  | cons ent rest ih =>
    cases fuel with
    | zero => cases ran
    | succ fuel =>
      have shifted : Lists img ((front ++ [ent]) ++ rest) := by rwa [List.append_assoc]
      have onwards : ∀ rscs inRsc, (if inRsc = true then Closing (rest.map ArchiveEnt.visible) else Consecutive (rest.map ArchiveEnt.visible)) →
          resourcesLoop fuel rscs inRsc (readerAt img (front.length + 1)) = some result → result = settle rscs (rest.map ArchiveEnt.visible) := by
        intro rscs inRsc later loop
        have same : (front ++ [ent]).length = front.length + 1 := by simp
        rw [← same] at loop
        exact ih shifted later loop
      unfold resourcesLoop at ran
      rw [lists.step] at ran
      dsimp only at ran
      rw [List.map_cons,settle_cons]
      rw [show ent.name.take (ent.namesize.toNat - 1) = ent.visible from rfl] at ran
      by_cases inside : RSC <+: ent.visible
      · obtain ⟨outcome,processed⟩ := process_inside inside rscs
        rw [processed] at ran ⊢
        have closing : Closing (rest.map ArchiveEnt.visible) := by
          cases inRsc with
          | true => exact Closing.tail grouped
          | false => exact Consecutive.closing grouped inside
        cases outcome with
        | error e =>
          cases ran
          rfl
        | ok after => exact onwards after true closing ran
      · rw [process_outside inside] at ran ⊢
        cases inRsc with
        | true =>
          cases ran
          refine (settle_outside (fun c member => ?_) rscs).symm
          exact Closing.outside grouped inside c member
        | false =>
          refine onwards rscs false ?_ ran
          exact fun a b c sub => grouped a b c (sub.cons _)

-- What one name does to each of the resources.
structure Sets (name : List UInt8) (before after : VmResources) : Prop where
  cpus : RSC_CPU <+: name → parseCpus (name.drop RSC_CPU.length) = .ok after.cpus
  sameCpus : ¬RSC_CPU <+: name → after.cpus = before.cpus
  mem : RSC_MEM <+: name → parseMem (name.drop RSC_MEM.length) = .ok after.mem
  sameMem : ¬RSC_MEM <+: name → after.mem = before.mem
  net : after.net = true ↔ before.net = true ∨ name = RSC_NET

theorem cpu_not_mem (cpu : RSC_CPU <+: name) : ¬RSC_MEM <+: name := by
  intro mem
  have same := List.prefix_of_prefix_length_le cpu mem (by decide)
  exact absurd same (by decide)

theorem cpu_not_net (cpu : RSC_CPU <+: name) : name ≠ RSC_NET := by
  rintro rfl
  exact absurd cpu (by decide)

theorem mem_not_net (mem : RSC_MEM <+: name) : name ≠ RSC_NET := by
  rintro rfl
  exact absurd mem (by decide)

theorem process_sets (ran : vmResourceLineProcess name before = .ok (inside,after)) : Sets name before after := by
  unfold vmResourceLineProcess at ran
  split at ran
  · rename_i cpu
    split at ran
    · rename_i cpus parsed
      cases ran
      exact ⟨fun _ => parsed,fun no => absurd cpu no,fun mem => absurd mem (cpu_not_mem cpu),fun _ => rfl,by simp [cpu_not_net cpu]⟩
    · cases ran
  · rename_i noCpu
    split at ran
    · rename_i mem
      split at ran
      · rename_i value parsed
        cases ran
        exact ⟨fun cpu => absurd cpu noCpu,fun _ => rfl,fun _ => parsed,fun no => absurd mem no,by simp [mem_not_net mem]⟩
      · cases ran
    · rename_i noMem
      have rest : ∀ net, (net = true ↔ before.net = true ∨ name = RSC_NET) → Sets name before {before with net} :=
        fun net same => ⟨fun cpu => absurd cpu noCpu,fun _ => rfl,fun mem => absurd mem noMem,fun _ => rfl,same⟩
      split at ran
      · rename_i args
        cases ran
        exact rest before.net (by simp [args,RSC_CUSTOM_ARGS,RSC_NET])
      · split at ran
        · rename_i net
          cases ran
          exact rest true (by simp [net])
        · rename_i other
          split at ran
          · cases ran
            exact rest before.net (by simp [other])
          · cases ran
            exact rest before.net (by simp [other])

theorem settle_step (ran : settle before (name :: rest) = .ok last) :
    ∃ after, Sets name before after ∧ settle after rest = .ok last := by
  rw [settle_cons] at ran
  split at ran
  · rename_i after processed
    exact ⟨after,process_sets processed,ran⟩
  · cases ran

theorem settle_append (before : VmResources) (front back : List (List UInt8)) :
    settle before (front ++ back) = settle before front >>= fun middle => settle middle back := by
  unfold settle
  rw [List.foldlM_append]

theorem settle_cpus (none : ∀ n ∈ names, ¬RSC_CPU <+: n) (ran : settle before names = .ok last) : last.cpus = before.cpus := by
  induction names generalizing before with
  | nil =>
    cases ran
    rfl
  | cons name rest ih =>
    obtain ⟨after,sets,later⟩ := settle_step ran
    rw [ih (fun n inside => none n (List.mem_cons_of_mem _ inside)) later,sets.sameCpus (none name List.mem_cons_self)]

theorem settle_mem (none : ∀ n ∈ names, ¬RSC_MEM <+: n) (ran : settle before names = .ok last) : last.mem = before.mem := by
  induction names generalizing before with
  | nil =>
    cases ran
    rfl
  | cons name rest ih =>
    obtain ⟨after,sets,later⟩ := settle_step ran
    rw [ih (fun n inside => none n (List.mem_cons_of_mem _ inside)) later,sets.sameMem (none name List.mem_cons_self)]

theorem settle_net (ran : settle before names = .ok last) : last.net = true ↔ before.net = true ∨ RSC_NET ∈ names := by
  induction names generalizing before with
  | nil =>
    cases ran
    simp
  | cons name rest ih =>
    obtain ⟨after,sets,later⟩ := settle_step ran
    rw [ih later,sets.net,List.mem_cons,eq_comm (a := RSC_NET),or_assoc]

-- The last cpu and the last mem entry win, any net entry counts.
structure LastWins (names : List (List UInt8)) (last : VmResources) : Prop where
  cpus : ∀ front n back, names = front ++ n :: back → RSC_CPU <+: n → (∀ m ∈ back, ¬RSC_CPU <+: m) →
    parseCpus (n.drop RSC_CPU.length) = .ok last.cpus
  noCpus : (∀ n ∈ names, ¬RSC_CPU <+: n) → last.cpus = VmResources.defaults.cpus
  mem : ∀ front n back, names = front ++ n :: back → RSC_MEM <+: n → (∀ m ∈ back, ¬RSC_MEM <+: m) →
    parseMem (n.drop RSC_MEM.length) = .ok last.mem
  noMem : (∀ n ∈ names, ¬RSC_MEM <+: n) → last.mem = VmResources.defaults.mem
  net : last.net = true ↔ RSC_NET ∈ names

theorem settle_split (ran : settle before (front ++ n :: back) = .ok last) :
    ∃ middle after, Sets n middle after ∧ settle after back = .ok last := by
  rw [settle_append] at ran
  cases first : settle before front with
  | error e =>
    rw [first] at ran
    cases ran
  | ok middle =>
    rw [first] at ran
    obtain ⟨after,sets,later⟩ := settle_step ran
    exact ⟨middle,after,sets,later⟩

theorem settle_last (ran : settle .defaults names = .ok last) : LastWins names last where
  cpus := by
    rintro front n back rfl cpu none
    obtain ⟨middle,after,sets,later⟩ := settle_split ran
    rw [settle_cpus none later]
    exact sets.cpus cpu
  noCpus := fun none => settle_cpus none ran
  mem := by
    rintro front n back rfl mem none
    obtain ⟨middle,after,sets,later⟩ := settle_split ran
    rw [settle_mem none later]
    exact sets.mem mem
  noMem := fun none => settle_mem none ran
  net := by simpa [VmResources.defaults] using settle_net ran

theorem early_exit_full (lists : Lists img ents) (together : Consecutive (ents.map ArchiveEnt.visible)) :
    vmResourcesGet img = some (fullScan (ents.map ArchiveEnt.visible)) ∧
      (∀ last, fullScan (ents.map ArchiveEnt.visible) = .ok last → LastWins (ents.map ArchiveEnt.visible) last) ∧
      ∀ line before e after, (vmResourceLineProcessMut line).run before = (.error e,after) → after = before := by
  refine ⟨?_,fun last ran => ?_,fun line before e after failed => ?_⟩
  · obtain ⟨result,ran⟩ := vmResources_total img
    have whole : Lists img ([] ++ ents) := lists
    have grouped : if false = true then Closing (ents.map ArchiveEnt.visible) else Consecutive (ents.map ArchiveEnt.visible) := together
    rw [ran,loop_settles whole grouped ran,fullScan_settle]
  · rw [fullScan_settle] at ran
    exact settle_last ran
  · rw [processMut_run] at failed
    split at failed
    · cases failed
    · cases failed
      rfl

theorem consecutive_block (before : ∀ n ∈ front, ¬RSC <+: n) (inside : ∀ n ∈ block, RSC <+: n) (after : ∀ n ∈ back, ¬RSC <+: n) :
    Consecutive (front ++ (block ++ back)) := by
  intro a b c sub first last
  obtain ⟨outer,rest,split,early,later⟩ := List.sublist_append_iff.mp sub
  cases outer with
  | cons x outer =>
    have same : a = x := (List.cons.inj split).1
    exact absurd first (before a (same ▸ early.subset List.mem_cons_self))
  | nil =>
    rw [List.nil_append] at split
    subst split
    obtain ⟨within,behind,split,middle,ending⟩ := List.sublist_append_iff.mp later
    have member : c ∈ within ++ behind := by simp [← split]
    have only : behind = [] := by
      by_contra some
      have same : (within ++ behind).getLast? = behind.getLast? := List.getLast?_append_of_ne_nil within some
      rw [← split] at same
      exact after c (ending.subset (List.mem_of_getLast? same.symm)) last
    rw [only,List.append_nil] at split
    subst split
    exact inside b (middle.subset (by simp))

-- A directory, four resources and a file.
def emptyEntry (name : List UInt8) (short : name.length < 64) : Entry where
  ino := 0
  md := ⟨1,0o100644,0,0,0,0,0,0⟩
  name := name ++ zeros 1
  data := []
  sized := List.length_nil
  named := by simp
  narrow := by
    rw [List.length_append,length_zeros]
    omega

def blockEntries : List Entry := [emptyEntry [97] (by decide),emptyEntry RSC (by decide),emptyEntry (RSC_CPU ++ [52]) (by decide),
  emptyEntry (RSC_CPU ++ [56]) (by decide),emptyEntry RSC_NET (by decide),emptyEntry [98] (by decide)]
def blockImage : List UInt8 := blockEntries.flatMap Entry.encode ++ (trailerEntry.encode ++ [])
def blockNames : List (List UInt8) := [[97]] ++ ([RSC,RSC_CPU ++ [52],RSC_CPU ++ [56],RSC_NET] ++ [[98]])

theorem early_exit_full_block : vmResourcesGet blockImage = some (.ok ⟨8,[53,49,50,77],true⟩) ∧ LastWins blockNames ⟨8,[53,49,50,77],true⟩ := by
  have lists : Lists blockImage ((shown blockEntries).map entOf) := encoded_lists [] blockEntries (by decide +kernel) (by decide +kernel)
  have names : ((shown blockEntries).map entOf).map ArchiveEnt.visible = blockNames := by decide +kernel
  have together : Consecutive blockNames := consecutive_block (by decide +kernel) (by decide +kernel) (by decide +kernel)
  have full : fullScan blockNames = .ok ⟨8,[53,49,50,77],true⟩ := by decide +kernel
  obtain ⟨same,wins,_⟩ := early_exit_full lists (names ▸ together)
  rw [names,full] at same
  rw [names] at wins
  exact ⟨same,wins _ full⟩

end Rapido.Vm
