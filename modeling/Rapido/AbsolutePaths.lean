import Rapido.BelowRoot
import Rapido.ElfClosure

-- Where the destinations come from whose parents gather_archive_dirs walks, and
-- when it finds one that is not absolute.
namespace Rapido.Cut
open UnixPath Cpio Text KvConf Eff
variable {host : Host} {fs : FileSystem} {conf : Map} {dst : Path} {amd : ArchiveMd}

def relativePanic : IoError := ⟨.panic,"non-absolute path, check path_stat and dst paths"⟩

def Calm (e : IoError) : Prop := e ≠ relativePanic

theorem calm_kind (kind : e.kind ≠ .panic) : Calm e := by
  rintro rfl
  exact kind rfl

theorem InvalidInput.calm (invalid : InvalidInput e) : Calm e := by
  apply calm_kind
  rw [show e.kind = .invalidInput from invalid]
  exact nofun

theorem WriterError.calm (refused : WriterError e) : Calm e := by
  rcases refused with invalid | short | rfl | rfl
  · exact invalid.calm
  · apply calm_kind
    rw [short]
    exact nofun
  · unfold Calm relativePanic
    decide +kernel
  · unfold Calm relativePanic
    decide +kernel

-- A panic is not among the errors that the system calls return.
structure Returns (fs : FileSystem) : Prop where
  symlinkMetadata : ∀ p e, fs.symlinkMetadata p = .error e → e.kind ≠ .panic
  fileOpen : ∀ p e, fs.fileOpen p = .error e → e.kind ≠ .panic
  readDir : ∀ p e, fs.readDir p = .error e → e.kind ≠ .panic
  readLink : ∀ p e, fs.readLink p = .error e → e.kind ≠ .panic

-- The modules that are loaded go below an absolute directory.
def KmodsRooted (s : State) : Prop := ∀ gk, s.gk = some gk → isAbsolute gk.kmodDstRoot = true

def Ceases (e : IoError) (s : State) : Prop := Calm e ∧ KmodsRooted s

abbrev Calmly (act : Gather α) : Prop := Triple KmodsRooted act (fun _ => KmodsRooted) Ceases

theorem rooted_stored : Stored (fun _ => False) KmodsRooted where
  archived := fun _ _ _ before _ => before
  refused := fun _ _ _ _ before _ _ => before
  inserted := fun _ _ before => before
  missing := fun _ => False.elim

-- What keeps the modules and fails calmly does both.
theorem calmly_kept (kept : Keeps (fun _ => False) KmodsRooted act) (calm : FailsOnly Calm act) : Calmly act :=
  ⟨kept.ok,fun s e t before ran => ⟨calm.error s e t trivial ran,kept.error s e t before ran id⟩⟩

theorem archive_calm : Calmly (archive c) :=
  calmly_kept (archive_keeps rooted_stored) (archive_fails ((call_refuses c).mono fun _ => WriterError.calm))

theorem insertPath_calm : Calmly (insertPath p) := insertPath_triple (fun _ before _ => before) fun _ before _ => before

theorem pathSeen_calm : Calmly (pathSeen p) := .read fun _ before => before

theorem archiveMd_calm : Calmly (archiveMd md) :=
  archiveMd_triple (fun _ _ before _ => before) fun _ _ before refused => ⟨InvalidInput.calm (fromMetadata_rejects refused),before⟩

theorem gatherArchiveDirs_calm (absolute : isAbsolute dst = true) : Calmly (gatherArchiveDirs (parent dst) amd) :=
  calmly_kept (gatherArchiveDirs_keeps rooted_stored) ((gatherArchiveDirs_invalid absolute).mono fun _ => InvalidInput.calm)

theorem archiveNew_calm (absolute : isAbsolute dst = true) : Calmly (archiveNew dst amd c) :=
  .bind (gatherArchiveDirs_calm absolute) fun _ => .bind archive_calm fun _ => .bind insertPath_calm fun _ => .pure fun _ h => h

-- gather_archive_elfs
theorem statByName_calm (failed : statByName fs dirs missing n = .error e) : Calm e := by
  unfold statByName at failed
  split at failed
  · split at failed
    · split at failed
      · cases failed
      · cases failed
        unfold Calm relativePanic
        decide +kernel
    · cases failed
      exact calm_kind nofun
  · split at failed
    · cases failed
    · cases failed
      exact calm_kind nofun

theorem pathStat_calm {ent : GatherEnt} (returns : Returns fs) (failed : pathStat fs ent = .error e) : Calm e := by
  cases ent with
  | name n => exact statByName_calm failed
  | nameStatic n => exact statByName_calm failed
  | nameDst n d => exact statByName_calm failed
  | nameTry n => exact statByName_calm failed
  | lib n => exact statByName_calm failed
  | manifest n => exact statByName_calm failed
  | path p =>
    unfold pathStat at failed
    dsimp only at failed
    split at failed
    · cases failed
    · rename_i e' refused
      cases failed
      exact calm_kind (returns.symlinkMetadata p e refused)
  | libRunPath n paths =>
    unfold pathStat at failed
    dsimp only at failed
    split at failed
    · exact statByName_calm failed
    · split at failed
      · cases failed
      · exact statByName_calm failed

-- Every entry but a library from a runpath is found at an absolute path.
def EntRooted : GatherEnt → Prop
  | .path p => isAbsolute p = true
  | .manifest _ => False
  | _ => True

-- What keeps an entry from being archived before its parents are.
def Passed (got : Fsent) (s : State) : Prop :=
  components got.path ∈ s.pathsSeen ∨ ∃ e, ArchiveMd.fromMetadata s.archive.state got.md = .error e

-- A library that is found through a runpath is found at an absolute path, unless
-- it is not archived at all.
def RunpathRooted (fs : FileSystem) (ent : GatherEnt) (s : State) : Prop :=
  ∀ n paths got, ent = .libRunPath n paths → slash ∉ n → firstStat fs n paths = some got → isAbsolute got.path = true ∨ Passed got s

theorem pathStat_rooted (rooted : EntRooted ent) (runpath : RunpathRooted fs ent s) (found : pathStat fs ent = .ok got) :
    isAbsolute got.path = true ∨ ((∃ n paths, ent = .libRunPath n paths) ∧ Passed got s) := by
  cases ent with
  | libRunPath n paths =>
    unfold pathStat at found
    dsimp only at found
    split at found
    · exact .inl (statByName_absolute libPaths_absolute found)
    · rename_i plain
      split at found
      · rename_i first
        cases found
        exact (runpath n paths _ rfl plain first).imp_right fun passed => ⟨⟨n,paths,rfl⟩,passed⟩
      · exact .inl (statByName_absolute libPaths_absolute found)
  | manifest n => exact rooted.elim
  | _ => exact .inl (pathStat_absolute (by exact rooted) found)

theorem elfFile_calm (returns : Returns host.toFileSystem) (kept : ∀ e ∈ rest, EntRooted e) :
    Triple KmodsRooted (elfFile host ent src dst amd rest) (fun items s => KmodsRooted s ∧ ∀ e ∈ items, EntRooted e)
      Ceases := by
  refine .ofExcept_bind (fun ⟨_,bytes⟩ _ => ?_) fun e failed _ before => ⟨calm_kind (returns.fileOpen src e failed),before⟩
  have parsed : Triple KmodsRooted (depsFor host ent amd bytes) (fun deps s => KmodsRooted s ∧ ∀ e ∈ deps, EntRooted e) Ceases := by
    unfold depsFor
    split
    · refine elfDepsOrNone_triple fun s deps result names before ran => ⟨before,?_⟩
      obtain ⟨ran,rfl⟩ := ran
      cases result with
      | error e => exact nofun
      | ok found =>
        obtain ⟨file,_,_,rfl,_⟩ := elfDeps_ok ran
        intro e inside
        obtain ⟨n,_,rfl⟩ := List.mem_map.mp inside
        unfold depEnt
        split <;> trivial
    · exact .pure fun _ before => ⟨before,nofun⟩
  refine .bind parsed fun deps => .assuming fun rooted => .bind archive_calm fun _ => .bind insertPath_calm fun _ => .pure fun _ after => ⟨after,?_⟩
  intro e inside
  rcases List.mem_append.mp inside with new | old
  · exact rooted e (List.mem_reverse.mp new)
  · exact kept e old

theorem elfSymlink_calm (kept : ∀ e ∈ rest, EntRooted e) :
    Triple KmodsRooted (elfSymlink fs ent dst amd rest) (fun items s => KmodsRooted s ∧ ∀ e ∈ items, EntRooted e) Ceases := by
  unfold elfSymlink
  split
  · exact .pure fun _ before => ⟨before,kept⟩
  · refine .bind archive_calm fun _ => ?_
    split
    · refine .bind insertPath_calm fun _ => .pure fun _ after => ⟨after,fun e inside => ?_⟩
      rcases List.mem_cons.mp inside with rfl | old
      · split <;> trivial
      · exact kept e old
    · exact .fail fun _ before => ⟨calm_kind nofun,before⟩

theorem elfDir_calm (returns : Returns fs) (absolute : isAbsolute src = true) (kept : ∀ e ∈ rest, EntRooted e) :
    Triple KmodsRooted (elfDir fs src dst amd rest) (fun items s => KmodsRooted s ∧ ∀ e ∈ items, EntRooted e) Ceases := by
  refine .bind archive_calm fun _ => .ofExcept_bind (fun names _ => ?_) fun e failed _ before => ⟨calm_kind (returns.readDir src e failed),before⟩
  refine .bind insertPath_calm fun _ => .pure fun _ after => ⟨after,fun e inside => ?_⟩
  rcases List.mem_append.mp inside with child | old
  · obtain ⟨n,_,rfl⟩ := List.mem_map.mp (List.mem_reverse.mp child)
    exact join_absolute absolute
  · exact kept e old

theorem elfOther_calm (kept : ∀ e ∈ rest, EntRooted e) :
    Triple KmodsRooted (elfOther dst amd rest) (fun items s => KmodsRooted s ∧ ∀ e ∈ items, EntRooted e) Ceases :=
  .bind archive_calm fun _ => .bind insertPath_calm fun _ => .pure fun _ after => ⟨after,kept⟩

theorem elfGot_calm (returns : Returns host.toFileSystem) (found : isAbsolute src = true) (absolute : isAbsolute dst = true)
    (kept : ∀ e ∈ rest, EntRooted e) :
    Triple KmodsRooted (elfGot host ent src dst md rest) (fun items s => KmodsRooted s ∧ ∀ e ∈ items, EntRooted e) Ceases := by
  refine elfGot_triple (fun _ before _ => ⟨before,kept⟩) (fun _ e before failed => ⟨InvalidInput.calm (fromMetadata_rejects failed),before⟩)
    (fun amd => ?_) (fun _ before => ⟨calm_kind nofun,before⟩) (fun _ _ => elfSymlink_calm kept) (fun _ _ => elfFile_calm returns kept)
    (fun _ _ => elfDir_calm returns found kept) fun _ _ => elfOther_calm kept
  exact (gatherArchiveDirs_calm absolute).weaken (fun _ before => before.1) fun _ _ h => h

theorem elfGot_passed {got : Fsent} (passed : Passed got s) :
    (elfGot host ent src got.path got.md rest).run s = (.ok rest,s) ∨
      ∃ e, InvalidInput e ∧ (elfGot host ent src got.path got.md rest).run s = (.error e,s) := by
  unfold elfGot pathSeen
  rw [read_bind_run]
  by_cases seen : components got.path ∈ s.pathsSeen
  · rw [decide_eq_true seen]
    exact .inl rfl
  · obtain ⟨e,refused⟩ := passed.resolve_left seen
    refine .inr ⟨e,fromMetadata_rejects refused,?_⟩
    rw [decide_eq_false seen,if_neg Bool.noConfusion]
    unfold archiveMd
    apply bind_run_error
    rw [read_bind_run,refused]
    rfl

theorem elfVisit_calm (returns : Returns host.toFileSystem) (rooted : ∀ e ∈ ent :: rest, EntRooted e)
    (runpath : RunpathRooted host.toFileSystem ent s) (start : KmodsRooted s) :
    Triple (fun t => t = s) (elfVisit host ent rest) (fun items t => KmodsRooted t ∧ ∀ e ∈ items, EntRooted e) Ceases := by
  have kept : ∀ e ∈ rest, EntRooted e := fun e inside => rooted e (List.mem_cons_of_mem _ inside)
  have before : ∀ t, t = s → KmodsRooted t := fun t same => same ▸ start
  unfold elfVisit
  split
  · rename_i e failed
    split
    · exact .pure fun t same => ⟨before t same,kept⟩
    · exact .fail fun t same => ⟨pathStat_calm returns failed,before t same⟩
  · rename_i got found
    rcases pathStat_rooted (rooted ent List.mem_cons_self) runpath found with absolute | ⟨⟨n,paths,rfl⟩,passed⟩
    · split
      · split
        · refine .fail fun t same => ⟨?_,before t same⟩
          unfold Calm relativePanic
          decide +kernel
        · rename_i given
          exact (elfGot_calm returns absolute (by simpa using given) kept).weaken before fun _ _ h => h
      · exact (elfGot_calm returns absolute absolute kept).weaken before fun _ _ h => h
    · constructor
      · rintro _ items t rfl ran
        rcases elfGot_passed passed with skipped | ⟨e,_,refused⟩
        · cases skipped.symm.trans ran
          exact ⟨start,kept⟩
        · cases refused.symm.trans ran
      · rintro _ e t rfl ran
        rcases elfGot_passed passed with skipped | ⟨e',invalid,refused⟩
        · cases skipped.symm.trans ran
        · cases refused.symm.trans ran
          exact ⟨invalid.calm,start⟩

def ElfsRooted (host : Host) (ent : GatherEnt) (s : State) : Prop :=
  Worklist.Meets (elfVisit host) (fun ent _ t => RunpathRooted host.toFileSystem ent t) [ent] s

def RootedEnts (ents : List GatherEnt) (s : State) : Prop := KmodsRooted s ∧ ∀ e ∈ ents, EntRooted e

theorem elfs_calm (returns : Returns host.toFileSystem) (rooted : EntRooted ent) (runpaths : ElfsRooted host ent s) (start : KmodsRooted s) :
    Triple (fun t => t = s) (gatherArchiveElfs host fuel [ent]) (fun _ => KmodsRooted) Ceases := by
  have loop := Worklist.loop_meeting RootedEnts (fun _ s before => show Ceases spent s from ⟨calm_kind nofun,before.1⟩)
    (fun ent rest t (before : RootedEnts (ent :: rest) t) (here : RunpathRooted host.toFileSystem ent t) =>
      elfVisit_calm returns before.2 here before.1) fuel [ent]
  refine loop.weaken ?_ fun _ _ after => after.1
  rintro _ rfl
  exact ⟨⟨start,fun e only => List.mem_singleton.mp only ▸ rooted⟩,runpaths⟩

-- gather_archive_data
def RootedItems (items : List GatherItem) (s : State) : Prop := KmodsRooted s ∧ ∀ i ∈ items, isAbsolute i.dst = true

theorem dataItem_calm {item : GatherItem} (returns : Returns fs) (rooted : ∀ i ∈ item :: rest, isAbsolute i.dst = true) :
    Triple KmodsRooted (dataItem fs item amd rest) RootedItems Ceases := by
  have kept : ∀ i ∈ rest, isAbsolute i.dst = true := fun i inside => rooted i (List.mem_cons_of_mem _ inside)
  refine dataItem_triple (fun _ _ => archive_calm) (fun e s failed before => ⟨?_,before⟩)
    (fun e s failed before => ⟨calm_kind (returns.readDir _ e failed),before⟩) (fun names s _ after => ⟨after,fun i inside => ?_⟩)
    fun s _ after => ⟨after,kept⟩
  · rcases failed with opening | reading
    · exact calm_kind (returns.fileOpen _ e opening)
    · exact calm_kind (returns.readLink _ e reading)
  · rcases List.mem_append.mp inside with child | old
    · obtain ⟨n,_,rfl⟩ := List.mem_map.mp (List.mem_reverse.mp child)
      exact join_absolute (rooted item List.mem_cons_self)
    · exact kept i old

theorem dataVisit_calm (returns : Returns fs) (item : GatherItem) (rest : List GatherItem) :
    Triple (RootedItems (item :: rest)) (dataVisit fs item rest) RootedItems Ceases := by
  refine .assuming fun rooted => dataVisit_triple (fun e s failed before => ⟨?_,before⟩)
    (fun _ _ _ before failed => ⟨InvalidInput.calm (fromMetadata_rejects failed),before⟩)
    (fun _ before _ => ⟨before,fun i inside => rooted i (List.mem_cons_of_mem _ inside)⟩) (fun amd _ => ?_) (fun _ _ before _ => before)
    fun _ _ _ _ => dataItem_calm returns rooted
  · unfold missingItem
    split
    · exact calm_kind nofun
    · exact calm_kind (returns.symlinkMetadata _ e failed)
  · refine (gatherArchiveDirs_calm (rooted item List.mem_cons_self)).weaken ?_ fun _ _ h => h
    rintro _ ⟨s,before,_,rfl⟩
    exact before

-- Kernel modules
theorem archiveKmodPath_calm (returns : Returns fs) (absolute : isAbsolute dst = true) : Calmly (archiveKmodPath fs src dst) := by
  refine .ofExcept_bind (fun md _ => .bind archiveMd_calm fun amd => .bind (gatherArchiveDirs_calm absolute) fun _ => ?_)
    fun e failed _ before => ⟨calm_kind (returns.symlinkMetadata src e failed),before⟩
  exact .ofExcept_bind (fun ⟨_,bytes⟩ _ => archive_calm) fun e failed _ before => ⟨calm_kind (returns.fileOpen src e failed),before⟩

theorem ignoreNotFound_calm (calm : Calmly act) : Calmly (ignoreNotFound act) :=
  ignoreNotFound_triple calm (fun _ _ _ left => left.2) fun _ _ _ left => left

theorem insertNew_calm {act : Gather Unit} (calm : Calmly act) : Calmly (insertPath dst >>= fun new => Eff.runIf (new = true) act) :=
  .bind insertPath_calm fun _ => .runIf (fun _ => calm) fun _ _ h => h

theorem kmodAndDeps_calm (returns : Returns fs) (rooted : isAbsolute gk.kmodDstRoot = true) :
    Calmly (gatherArchiveKmodAndDeps fs name gk) := by
  have file : ∀ src rel, Calmly (archiveKmodPath fs src (join gk.kmodDstRoot rel)) :=
    fun src rel => archiveKmodPath_calm returns (join_absolute rooted)
  refine kmodAndDeps_triple (fun _ _ before => ⟨calm_kind nofun,before⟩) (fun m _ _ => (file _ _).weaken ?_ fun _ _ h => h)
    (fun _ _ _ _ _ => insertNew_calm (file _ _)) fun _ _ _ _ _ => ?_
  · rintro _ ⟨s,before,_,rfl⟩
    exact before
  · exact archiveSoftDep_triple fun _ _ _ => insertNew_calm (ignoreNotFound_calm (file _ _))

theorem gatherOneKmod_calm (returns : Returns fs) (rooted : isAbsolute gk.kmodDstRoot = true) (ignoreMissing : Bool) :
    Calmly (gatherOneKmod fs gk ignoreMissing name) :=
  gatherOneKmod_triple (kmodAndDeps_calm returns rooted) (fun _ _ _ left => left.2) (fun _ _ _ _ left => ⟨calm_kind nofun,left.2⟩)
    (fun _ _ _ left => left) ignoreMissing

theorem kernelVersParse_calm (failed : hostKernelVersParse kvers = .error e) : Calm e := by
  unfold hostKernelVersParse at failed
  split at failed
  · cases failed
    exact calm_kind nofun
  · split at failed
    · split at failed
      · cases failed
      · cases failed
        exact calm_kind nofun
    · cases failed
      exact calm_kind nofun

theorem kernelVers_calm (returns : Returns fs) (failed : confSrcOrHostKernelVers fs conf = .error e) : Calm e := by
  unfold confSrcOrHostKernelVers at failed
  split at failed
  · rename_i c rest _
    cases opened : fs.fileOpen (Utf8.encode (c :: rest ++ "/include/config/kernel.release".toList)) with
    | ok file =>
      rw [opened] at failed
      cases failed
    | error e' =>
      rw [opened] at failed
      cases failed
      exact calm_kind (returns.fileOpen _ _ opened)
  · split at failed
    · cases failed
    · unfold hostKernelVers at failed
      cases opened : fs.fileOpen (Utf8.encode "/proc/version".toList) with
      | ok file =>
        rw [opened] at failed
        exact kernelVersParse_calm failed
      | error e' =>
        rw [opened] at failed
        cases failed
        exact calm_kind (returns.fileOpen _ _ opened)

theorem modulesDir_absolute : isAbsolute (Utf8.encode "/usr/lib/modules/".toList) = true := by decide

theorem gatherKmodsInit_calm (returns : Returns host.toFileSystem) :
    Triple KmodsRooted (gatherKmodsInit host conf) (fun gk s => KmodsRooted s ∧ isAbsolute gk.kmodDstRoot = true) Ceases := by
  refine .ofExcept_bind (fun krel _ => ?_) fun e failed _ before => ⟨kernelVers_calm returns failed,before⟩
  have rooted : isAbsolute (join (Utf8.encode "/usr/lib/modules/".toList) (Utf8.encode krel)) = true := join_absolute modulesDir_absolute
  dsimp only
  split
  · exact .fail fun _ before => ⟨calm_kind nofun,before⟩
  · refine .bind (.forEach fun rel _ => ?_) fun _ => .pure fun s after => ⟨after,rooted⟩
    exact insertNew_calm (ignoreNotFound_calm (archiveKmodPath_calm returns (join_absolute rooted)))

theorem knownKmods_calm (returns : Returns host.toFileSystem) :
    Triple KmodsRooted (knownKmods host conf) (fun gk s => KmodsRooted s ∧ isAbsolute gk.kmodDstRoot = true) Ceases := by
  refine .read_bind fun found => ?_
  cases found with
  | some gk => exact .pure fun s before => ⟨before.1,before.1 gk before.2⟩
  | none =>
    refine .bind ((gatherKmodsInit_calm returns).weaken (fun _ before => before.1) fun _ _ h => h) fun gk => ?_
    refine .bind (.update fun s after => ⟨fun other same => ?_,after.2⟩) fun _ => .pure fun _ h => h
    cases same
    exact after.2

theorem gatherArchiveKmods_calm (returns : Returns host.toFileSystem) (kmods : List Name) (ignoreMissing : Bool) :
    Calmly (gatherArchiveKmods host conf kmods ignoreMissing) :=
  .bind (knownKmods_calm returns) fun _ => .assuming fun rooted => .forEach fun _ _ => gatherOneKmod_calm returns rooted ignoreMissing

-- The directives
theorem nameSub_calm (failed : manifestNameSub conf name = .error e) : Calm e := by
  unfold manifestNameSub at failed
  split at failed
  · cases failed
    exact calm_kind nofun
  · split at failed
    · cases failed
      exact calm_kind nofun
    · cases failed

theorem nameSubAbsPath_calm (failed : manifestNameSubAbsPath fs conf name = .error e) : Calm e := by
  unfold manifestNameSubAbsPath at failed
  cases substituted : manifestNameSub conf name with
  | error e' =>
    rw [substituted] at failed
    cases failed
    exact nameSub_calm substituted
  | ok q =>
    rw [substituted] at failed
    simp only [bind,Except.bind] at failed
    split at failed
    · cases failed
      exact calm_kind nofun
    · cases failed

-- The destination of a directive, resolved against the working directory.
theorem absPath_bind {next : Path → Gather α} {name : Option Str} (each : ∀ p, isAbsolute p = true → Calmly (next p)) :
    Calmly (Eff.ofExcept (manifestNameSubAbsPath fs conf name) >>= next) :=
  .ofExcept_bind (fun p made => each p (nameSubAbsPath_absolute made)) fun _ failed _ before => ⟨nameSubAbsPath_calm failed,before⟩

theorem nameSub_bind {next : Name → Gather α} {name : Option Str} (each : ∀ n, Calmly (next n)) :
    Calmly (Eff.ofExcept (manifestNameSub conf name) >>= next) :=
  .ofExcept_bind (fun n _ => each n) fun _ failed _ before => ⟨nameSub_calm failed,before⟩

theorem fileOpen_bind {next : Metadata × List UInt8 → Gather α} (returns : Returns fs) (each : ∀ file, Calmly (next file)) :
    Calmly (Eff.ofExcept (fs.fileOpen p) >>= next) :=
  .ofExcept_bind (fun file _ => each file) fun e failed _ before => ⟨calm_kind (returns.fileOpen p e failed),before⟩

theorem manifestDir_calm : Calmly (manifestDir fs conf name) := by
  refine absPath_bind fun p absolute => .bind pathSeen_calm fun seen => ?_
  split
  · exact .pure fun _ h => h
  · exact archiveNew_calm absolute

theorem manifestSlink_calm : Calmly (manifestSlink fs conf name slinkTgt) := by
  refine absPath_bind fun p absolute => .bind pathSeen_calm fun seen => ?_
  split
  · exact .pure fun _ h => h
  · exact nameSub_bind fun tgt => archiveNew_calm absolute

theorem manifestFile_calm (returns : Returns fs) : Calmly (manifestFile fs conf name src) := by
  refine absPath_bind fun p absolute => .bind pathSeen_calm fun seen => ?_
  split
  · exact .pure fun _ h => h
  · cases src with
    | some location => exact nameSub_bind fun src => fileOpen_bind returns fun file => .bind archiveMd_calm fun amd => archiveNew_calm absolute
    | none => exact archiveNew_calm absolute

theorem manifestTree_calm (returns : Returns fs) : Calmly (manifestTree fs conf fuel name src) := by
  refine absPath_bind fun dst absolute => ?_
  split
  · exact .fail fun _ before => ⟨calm_kind nofun,before⟩
  · refine nameSub_bind fun src => ?_
    refine (Worklist.loop_triple RootedItems (fun _ _ before => ⟨calm_kind nofun,before.1⟩) (dataVisit_calm returns) fuel _).weaken
      (fun s before => ⟨before,fun i only => ?_⟩) fun _ _ after => after.1
    cases List.mem_singleton.mp only
    exact absolute

theorem manifestAutorun_calm (returns : Returns fs) : Calmly (manifestAutorun fs conf name) := by
  refine absPath_bind fun src _ => .bind (.read fun _ h => h) fun idx => .ofExcept_bind (fun dst _ => ?_) fun e failed _ before => ⟨?_,before⟩
  · refine .bind (.runIf (fun _ => ?_) fun _ _ h => h) fun _ => fileOpen_bind returns fun file => .bind archiveMd_calm fun amd => ?_
    · exact .bind archive_calm fun _ => .bind insertPath_calm fun _ => .pure fun _ h => h
    · exact .bind archive_calm fun _ => .update fun _ after => after
  · unfold autorunDst at failed
    split at failed
    · cases failed
      exact calm_kind nofun
    · split at failed
      · cases failed
      · cases failed
        exact calm_kind nofun

theorem manifestKmod_calm (returns : Returns host.toFileSystem) (ignoreMissing : Bool) : Calmly (manifestKmod host conf ignoreMissing kmod) := by
  unfold manifestKmod
  split
  · exact .fail fun _ before => ⟨calm_kind nofun,before⟩
  · exact gatherArchiveKmods_calm returns _ ignoreMissing

-- The condition on a directive in the state before it.
def DirectiveRooted (host : Host) (conf : Map) (s : State) : Etype → List Str → Prop
  | .bin,args => ∀ n, manifestNameSub conf args[0]? = .ok n → ElfsRooted host (.name n) s
  | .tryBin,args => ∀ n, manifestNameSub conf args[0]? = .ok n → ElfsRooted host (.nameTry n) s
  | _,_ => True

-- The state of a step's start.
theorem Calmly.start (calm : Calmly act) (start : KmodsRooted s) : Triple (fun t => t = s) act (fun _ => KmodsRooted) Ceases :=
  calm.weaken (fun _ same => same ▸ start) fun _ _ h => h

theorem directive_calm (returns : Returns host.toFileSystem) (rooted : DirectiveRooted host conf s etype args) (start : KmodsRooted s) :
    Triple (fun t => t = s) (directive host conf fuel etype args) (fun _ => KmodsRooted) Ceases := by
  have substituted : ∀ e t, manifestNameSub conf args[0]? = .error e → t = s → Ceases e t := by
    rintro e _ failed rfl
    exact ⟨nameSub_calm failed,start⟩
  cases etype with
  | dir => exact Calmly.start (.bind manifestDir_calm fun _ => .pure fun _ h => h) start
  | slink => exact Calmly.start (.bind manifestSlink_calm fun _ => .pure fun _ h => h) start
  | file => exact Calmly.start (.bind (manifestFile_calm returns) fun _ => .pure fun _ h => h) start
  | tree => exact Calmly.start (.bind (manifestTree_calm returns) fun _ => .pure fun _ h => h) start
  | kmod => exact Calmly.start (.bind (manifestKmod_calm returns false) fun _ => .pure fun _ h => h) start
  | tryKmod => exact Calmly.start (.bind (manifestKmod_calm returns true) fun _ => .pure fun _ h => h) start
  | filter => exact Calmly.start (absPath_bind fun p _ => .bind insertPath_calm fun _ => .pure fun _ h => h) start
  | includeManifest =>
    refine Calmly.start (.bind ?_ fun _ => .pure fun _ h => h) start
    refine nameSub_bind fun p => .ofExcept_bind (fun got _ => ?_) fun e failed _ before => ⟨pathStat_calm returns failed,before⟩
    exact fileOpen_bind returns fun file => .pure fun _ h => h
  | autorun =>
    refine Calmly.start (.bind ?_ fun _ => .pure fun _ h => h) start
    refine .bind (.read fun _ h => h) fun _ => .bind (.forEach fun _ _ => manifestAutorun_calm returns) fun _ => ?_
    exact .bind (.read fun _ h => h) fun _ => .runIf (fun _ => .fail fun _ before => ⟨calm_kind nofun,before⟩) fun _ _ h => h
  | bin =>
    refine .ofExcept_bind (fun n made => ?_) fun e failed t same => substituted e t failed same
    exact .bind (elfs_calm returns trivial (rooted n made) start) fun _ => .pure fun _ h => h
  | tryBin =>
    refine .ofExcept_bind (fun n made => ?_) fun e failed t same => substituted e t failed same
    exact .bind (elfs_calm returns trivial (rooted n made) start) fun _ => .pure fun _ h => h

def NextRooted (host : Host) (conf : Map) (fest : Fest) (_ : List Fest) (s : State) : Prop :=
  ∀ bytes line etype args, fest.head? = some bytes → Utf8.decode bytes = some line → lineDirective line = some (etype,args) →
    DirectiveRooted host conf s etype args

theorem LineError.calm (refused : LineError e) : Calm e := by
  rcases refused with rfl | rfl | rfl
  · exact calm_kind nofun
  · exact calm_kind nofun
  · exact calm_kind nofun

theorem festVisit_calm (returns : Returns host.toFileSystem) (rooted : NextRooted host conf fest rest s) (start : KmodsRooted s) :
    Triple (fun t => t = s) (festVisit host conf fuel fest rest) (fun _ => KmodsRooted) Ceases :=
  festVisit_triple (fun _ same => same ▸ start) (fun _ _ refused after => ⟨refused.calm,after⟩)
    fun bytes line etype args first decoded words => directive_calm returns (rooted bytes line etype args first decoded words) start

-- In every run whose libraries are found at absolute paths, finished or not.
theorem absolute_destinations (returns : Returns host.toFileSystem) (start : KmodsRooted s)
    (rooted : Worklist.Meets (festVisit host conf fuel) (NextRooted host conf) fests.reverse {s with autorunIdx:=0}) :
    ((manifestParse host conf fuel fests).run s).1 ≠ .error relativePanic := by
  have each : ∀ fest rest t, KmodsRooted t → NextRooted host conf fest rest t →
      Triple (fun u => u = t) (festVisit host conf fuel fest rest) (fun _ => KmodsRooted) Ceases :=
    fun _ _ _ before next => festVisit_calm returns next before
  have loop := Worklist.loop_meeting (fun _ => KmodsRooted) (fun _ t before => show Ceases spent t from ⟨calm_kind nofun,before⟩)
    each fuel fests.reverse
  intro panics
  cases ran : (manifestParse host conf fuel fests).run s with
  | mk result t =>
    rw [ran] at panics
    change result = _ at panics
    subst panics
    rw [manifestParse,update_bind_run] at ran
    have here : KmodsRooted {s with autorunIdx:=0} := start
    exact (loop.error _ relativePanic t ⟨here,rooted⟩ ran).1 rfl

-- "/a" has an absolute runpath.
def programFest : Fest := [asPath "bin /a\n"]
@[irreducible] def afterProgram : State := ((elfVisit libHost (namedEnt "/a") []).run emptyState).2

theorem libX_rooted (s : State) : RunpathRooted libHost.toFileSystem libX s := by
  intro n paths got same _ found
  have first : firstStat libHost.toFileSystem (asPath "l") [asPath "/x"] = some ⟨asPath "/x/l",oneByte (S_IFREG ||| 0o644)⟩ := by
    decide +kernel
  cases same
  cases first.symm.trans found
  exact .inl (by decide +kernel)

theorem program_rooted : ElfsRooted libHost (namedEnt "/a") emptyState := by
  have first : ((elfVisit libHost (namedEnt "/a") []).run emptyState).1 = .ok [libX] := by decide +kernel
  have second : ((elfVisit libHost libX []).run afterProgram).1 = .ok [] := by decide +kernel
  have ranFirst : (elfVisit libHost (namedEnt "/a") []).run emptyState = (.ok [libX],afterProgram) := by
    unfold afterProgram
    exact run_ok first
  refine Worklist.meets_cons (fun _ _ _ => nofun) fun items t ran => ?_
  cases ranFirst.symm.trans ran
  refine Worklist.meets_cons (libX_rooted _) fun items t ran => ?_
  cases run_value ran second
  exact Worklist.meets_nil

theorem programFest_rooted : Worklist.Meets (festVisit libHost noConf 9) (NextRooted libHost noConf) [programFest] emptyState := by
  refine Worklist.meets_cons ?_ fun items t ran => ?_
  · intro bytes line etype args first decoded words
    have read : Utf8.decode (asPath "bin /a\n") = some "bin /a\n".toList := by decide +kernel
    have split : lineDirective "bin /a\n".toList = some (.bin,["/a".toList]) := by decide +kernel
    have made : manifestNameSub noConf (some "/a".toList) = .ok (asPath "/a") := by decide +kernel
    rw [← Option.some.inj first,read] at decoded
    cases decoded
    rw [split] at words
    cases words
    intro n substituted
    cases made.symm.trans substituted
    exact program_rooted
  · have only : ((festVisit libHost noConf 9 programFest []).run emptyState).1 = .ok [[]] := by decide +kernel
    have last : items = [[]] := run_value ran only
    subst last
    refine Worklist.meets_cons (fun _ _ _ _ => nofun) fun items t ran => ?_
    cases ran
    exact Worklist.meets_nil

theorem absolute_destinations_program : ((manifestParse libHost noConf 9 [programFest]).run emptyState).1 ≠ .error relativePanic := by
  have returns : Returns libHost.toFileSystem := by
    refine ⟨fun p e failed => ?_,nofun,fun p e failed => ?_,fun p e failed => ?_⟩
    · dsimp only [libHost] at failed
      repeat' split at failed
      all_goals
        cases failed
      exact nofun
    · cases failed
      exact nofun
    · cases failed
      exact nofun
  exact absolute_destinations returns nofun programFest_rooted

-- "/a" needs "l" and names the relative directory "lib", which has it.
def relativeHost : Host := {libHost with
  symlinkMetadata := fun p =>
    if p = asPath "/a" then .ok (oneByte (S_IFREG ||| 0o755))
    else if p = asPath "lib/l" then .ok (oneByte (S_IFREG ||| 0o644))
    else .error (.ofKind .notFound)
  elfOpen := fun bytes => if bytes = asPath "a" then some (needs "l" [asPath "lib"]) else none}

theorem relative_destination : ((manifestParse relativeHost noConf 9 [programFest]).run emptyState).1 = .error relativePanic := by
  decide +kernel

end Rapido.Cut
