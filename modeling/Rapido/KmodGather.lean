import Rapido.CutTraversal

-- Requested kernel modules and their hard dependencies.
namespace Rapido.Cut
open UnixPath Cpio Text KvConf Eff

-- A path that modules.dep names, relative to the module root.
def ModuleFile (gk : GatherKmods) (rel : Name) : Prop :=
  ∃ name m, gk.kmodCtx.find name = some m ∧ m.status = .loadableModule ∧ (rel = m.relPath ∨ rel ∈ m.hardDepsPaths)

def Present (fs : FileSystem) (p : Path) : Prop :=
  (∀ e, fs.symlinkMetadata p = .error e → NotMissing e) ∧ ∀ e, fs.fileOpen p = .error e → NotMissing e

def FilesPresent (fs : FileSystem) (gk : GatherKmods) : Prop :=
  ∀ rel, ModuleFile gk rel → Present fs (join gk.kmodCtx.moduleRoot rel)

theorem loadable_of_not_builtin {m : KmodModule} (other : ¬m.status = .builtin) : m.status = .loadableModule := by
  cases status : m.status with
  | builtin => exact absurd status other
  | loadableModule => rfl

def moduleDst (gk : GatherKmods) (rel : Name) : List Component := components (join gk.kmodDstRoot rel)

variable {fs : FileSystem} {gk : GatherKmods} {base : List (List Component)}

theorem archive_fails {good : IoError → Prop} (only : FailsOnly good c.run) : FailsOnly good (archive c) :=
  archive_triple (fun _ _ _ _ => trivial) fun _ _ _ _ ran => only.error _ _ _ trivial ran

theorem insertPath_never {good : IoError → Prop} : FailsOnly good (insertPath p) :=
  insertPath_triple (fun _ _ _ => trivial) fun _ _ _ => trivial

theorem archiveMd_invalid : FailsOnly InvalidInput (archiveMd md) := .bind .read fun _ => .ofExcept fun _ => fromMetadata_rejects

theorem enterDir_invalid : FailsOnly InvalidInput (insertPath p >>= fun new => Eff.runIf (new = true) (archive (.path p amd))) :=
  .bind insertPath_never fun _ => .runIf (archive_fails archivePath_invalid)

-- With all files present, a request never ends in a NotFound half way.
theorem gatherArchiveDirs_never : FailsOnly NotMissing (gatherArchiveDirs p amd) :=
  gatherArchiveDirs_triple (fun _ _ _ _ _ => by decide) (fun _ _ => by decide) fun _ =>
    enterDir_invalid.mono fun _ => InvalidInput.notMissing

theorem archiveKmodPath_never (present : Present fs src) : FailsOnly NotMissing (archiveKmodPath fs src dst) := by
  refine .bind (.ofExcept present.1) fun md => .bind (archiveMd_invalid.mono fun _ => InvalidInput.notMissing) fun amd => ?_
  exact .bind gatherArchiveDirs_never fun _ => .bind (.ofExcept present.2) fun ⟨_,_⟩ => archive_fails (call_never _)

theorem ignoreNotFound_never (never : FailsOnly NotMissing act) : FailsOnly NotMissing (ignoreNotFound act) :=
  ignoreNotFound_triple never (fun _ _ _ _ => trivial) fun _ _ other _ => other

theorem archiveHardDep_never (present : Present fs (join gk.kmodCtx.moduleRoot dep)) :
    FailsOnly NotMissing (archiveHardDep fs gk dep) :=
  .bind insertPath_never fun _ => .runIf (archiveKmodPath_never present)

theorem archiveSoftDep_never (present : FilesPresent fs gk) : FailsOnly NotMissing (archiveSoftDep fs gk softMod) := by
  refine archiveSoftDep_triple fun m found other => ?_
  have file : ModuleFile gk m.relPath := ⟨softMod,m,found,loadable_of_not_builtin other,.inl rfl⟩
  exact FailsOnly.bind insertPath_never fun _ => .runIf (ignoreNotFound_never (archiveKmodPath_never (present _ file)))

theorem gatherArchiveKmodAndDeps_never (present : FilesPresent fs gk) (found : gk.kmodCtx.find name = some m) :
    FailsOnly NotMissing (gatherArchiveKmodAndDeps fs name gk) := by
  refine kmodAndDeps_triple (fun none => ?_) (fun m found other => ?_) (fun m found other dep inside => ?_)
    fun _ _ _ _ _ => archiveSoftDep_never present
  · rw [found] at none
    cases none
  · have file : ModuleFile gk m.relPath := ⟨name,m,found,loadable_of_not_builtin other,.inl rfl⟩
    exact (archiveKmodPath_never (present _ file)).weaken (fun _ _ => trivial) fun _ _ h => h
  · exact archiveHardDep_never (present _ ⟨name,m,found,loadable_of_not_builtin other,.inr inside⟩)

-- Whatever is in paths_seen was there at the start, is being archived or has
-- been archived.
def Backed (base pending : List (List Component)) (s : State) : Prop :=
  ∀ cs ∈ s.pathsSeen, cs ∈ base ∨ cs ∈ pending ∨ Archived s cs

theorem Backed.archive (backed : Backed base (components c.target :: pending) s) (a : Archive) :
    Backed base pending {s with archive:=a,archived:=s.archived ++ [c]} := by
  intro cs seen
  have grown : ∀ cs, Archived s cs → Archived {s with archive:=a,archived:=s.archived ++ [c]} cs := by
    intro cs old
    obtain ⟨d,present,equal⟩ := mem_archivedPaths.mp old
    exact mem_archivedPaths.mpr ⟨d,List.mem_append_left _ present,equal⟩
  rcases backed cs seen with old | awaited | done
  · exact .inl old
  · rcases List.mem_cons.mp awaited with rfl | other
    · exact .inr (.inr (mem_archivedPaths.mpr ⟨c,List.mem_append_right _ (List.mem_singleton.mpr rfl),rfl⟩))
    · exact .inr (.inl other)
  · exact .inr (.inr (grown cs done))

theorem archive_backed (aim : c.target = p) :
    Ensures (Backed base (components p :: pending)) (archive c) fun _ => Backed base pending := by
  subst aim
  exact archive_triple (fun s a backed _ => backed.archive a) fun _ _ _ _ _ => trivial

theorem Backed.insert (backed : Backed base pending s) (cs : List Component) :
    Backed base (cs :: pending) {s with pathsSeen:=cs :: s.pathsSeen} := by
  intro x seen
  rcases List.mem_cons.mp seen with rfl | old
  · exact .inr (.inl List.mem_cons_self)
  · rcases backed x old with start | awaited | done
    · exact .inl start
    · exact .inr (.inl (List.mem_cons_of_mem _ awaited))
    · exact .inr (.inr done)

theorem gatherArchiveDirs_backed : Ensures (Backed base pending) (gatherArchiveDirs (parent dst) amd) fun _ => Backed base pending := by
  refine gatherArchiveDirs_enters fun s dir amd a backed _ _ => ?_
  have inserted : Backed base (components (Call.path dir amd).target :: pending) {s with pathsSeen:=components dir :: s.pathsSeen} :=
    backed.insert _
  exact inserted.archive a

theorem archiveKmodPath_backed :
    Ensures (Backed base (components dst :: pending)) (archiveKmodPath fs src dst) fun _ => Backed base pending := by
  refine Ensures.ofExcept_bind fun md _ => .bind archiveMd_same fun amd => ?_
  refine .bind gatherArchiveDirs_backed fun _ => Ensures.ofExcept_bind fun ⟨_,bytes⟩ _ => ?_
  exact archive_backed rfl

theorem seen_stored (cs : List Component) : Stored (fun _ => False) (fun s => cs ∈ s.pathsSeen) where
  archived := fun _ _ _ seen _ => seen
  refused := fun _ _ _ _ seen _ _ => seen
  inserted := fun _ _ seen => List.mem_cons_of_mem _ seen
  missing := fun _ impossible => impossible.elim

theorem archiveHardDep_seen (ran : (archiveHardDep fs gk dep).run s = (.ok (),t)) : moduleDst gk dep ∈ t.pathsSeen := by
  obtain ⟨new,middle,inserted,ran⟩ := bind_ok.mp ran
  exact (Keeps.runIf (archiveKmodPath_keeps (seen_stored _))).ok _ _ _ (insertPath_seen inserted) ran

theorem archiveHardDep_backed : Ensures (Backed base []) (archiveHardDep fs gk dep) fun _ => Backed base [] := by
  refine insertPath_bind (.runIf (fun _ => archiveKmodPath_backed.weaken ?_ fun _ _ h => h) fun no => absurd rfl no) ?_
  · rintro _ ⟨s,backed,_,rfl⟩
    exact backed.insert _
  · exact .runIf (fun yes => absurd yes Bool.noConfusion) fun _ u before => before.1

theorem seen_after_hard (held : cs ∈ s.pathsSeen) (ran : (Eff.forEach (archiveHardDep fs gk) deps).run s = (.ok (),t)) :
    cs ∈ t.pathsSeen := (Keeps.forEach (fun _ => archiveHardDep_keeps (seen_stored cs)) _).ok _ _ _ held ran

theorem seen_after_soft (held : cs ∈ s.pathsSeen) (ran : (Eff.forEach (archiveSoftDep fs gk) deps).run s = (.ok (),t)) :
    cs ∈ t.pathsSeen := (Keeps.forEach (fun _ => archiveSoftDep_keeps (seen_stored cs)) _).ok _ _ _ held ran

theorem hardDeps_seen (ran : (Eff.forEach (archiveHardDep fs gk) deps).run s = (.ok (),t)) (inside : dep ∈ deps) :
    moduleDst gk dep ∈ t.pathsSeen := by
  induction deps generalizing s with
  | nil => cases inside
  | cons first rest ih =>
    obtain ⟨_,middle,here,later⟩ := bind_ok.mp ran
    rcases List.mem_cons.mp inside with rfl | other
    · exact seen_after_hard (archiveHardDep_seen here) later
    · exact ih later other

theorem ignoreNotFound_ok (never : FailsOnly NotMissing act) (ran : (ignoreNotFound act).run s = (.ok (),t)) :
    act.run s = (.ok (),t) := by
  unfold ignoreNotFound at ran
  dsimp only at ran
  split at ran
  · rename_i e left failed
    split at ran
    · rename_i missing
      exact absurd missing (never.error _ _ _ trivial failed)
    · cases ran
  · exact ran

theorem archiveSoftDep_backed (present : FilesPresent fs gk) :
    Ensures (Backed base []) (archiveSoftDep fs gk softMod) fun _ => Backed base [] := by
  refine archiveSoftDep_triple fun m found other => ?_
  have file : ModuleFile gk m.relPath := ⟨softMod,m,found,loadable_of_not_builtin other,.inl rfl⟩
  refine insertPath_bind (.runIf (fun _ => ⟨?_,fun _ _ _ _ _ => trivial⟩) fun no => absurd rfl no) ?_
  · rintro _ _ t ⟨u,backed,_,rfl⟩ ran
    exact archiveKmodPath_backed.ok _ _ t (backed.insert _) (ignoreNotFound_ok (archiveKmodPath_never (present _ file)) ran)
  · exact .runIf (fun yes => absurd yes Bool.noConfusion) fun _ u before => before.1

-- A module and its hard dependencies are in paths_seen.
def Fetched (gk : GatherKmods) (m : KmodModule) (s : State) : Prop :=
  moduleDst gk m.relPath ∈ s.pathsSeen ∧ ∀ dep ∈ m.hardDepsPaths, moduleDst gk dep ∈ s.pathsSeen

-- A requested module that is in paths_seen has its hard dependencies there too.
def NotHalfFetched (gk : GatherKmods) (name : Name) (s : State) : Prop :=
  ∀ m, gk.kmodCtx.find name = some m → m.status = .loadableModule → moduleDst gk m.relPath ∈ s.pathsSeen → Fetched gk m s

-- The stages of a request for a module that is new.
theorem kmodAndDeps_stages (found : gk.kmodCtx.find name = some m) (loadable : m.status = .loadableModule)
    (new : moduleDst gk m.relPath ∉ s.pathsSeen) (ran : (gatherArchiveKmodAndDeps fs name gk).run s = (.ok (),t)) :
    ∃ rooted deep, (archiveKmodPath fs (join gk.kmodCtx.moduleRoot m.relPath) (join gk.kmodDstRoot m.relPath)).run
        {s with pathsSeen:=moduleDst gk m.relPath :: s.pathsSeen} = (.ok (),rooted) ∧
      (Eff.forEach (archiveHardDep fs gk) m.hardDepsPaths).run rooted = (.ok (),deep) ∧
      (Eff.forEach (archiveSoftDep fs gk) (m.softDepsPre ++ m.softDepsPost ++ m.weakDeps)).run deep = (.ok (),t) := by
  unfold gatherArchiveKmodAndDeps at ran
  simp only [found,loadable,reduceCtorEq,if_false] at ran
  obtain ⟨_,_,inserted,ran⟩ := bind_ok.mp ran
  rw [insertPath_new new] at inserted
  cases inserted
  obtain ⟨_,rooted,own,ran⟩ := bind_ok.mp ran
  obtain ⟨_,deep,hard,soft⟩ := bind_ok.mp ran
  exact ⟨rooted,deep,own,hard,soft⟩

-- One for a module that is in paths_seen does nothing.
theorem kmodAndDeps_seen (found : gk.kmodCtx.find name = some m) (loadable : m.status = .loadableModule)
    (seen : moduleDst gk m.relPath ∈ s.pathsSeen) : (gatherArchiveKmodAndDeps fs name gk).run s = (.ok (),s) := by
  unfold gatherArchiveKmodAndDeps
  simp only [found,loadable,reduceCtorEq,if_false]
  rw [bind_run,insertPath_old seen]
  rfl

theorem kmodAndDeps_cases (ran : (gatherArchiveKmodAndDeps fs name gk).run s = (.ok (),t)) : ∃ m, gk.kmodCtx.find name = some m ∧
    ((m.status = .builtin ∧ s = t) ∨ (m.status = .loadableModule ∧ moduleDst gk m.relPath ∈ s.pathsSeen ∧ s = t) ∨
      (m.status = .loadableModule ∧ moduleDst gk m.relPath ∉ s.pathsSeen)) := by
  cases found : gk.kmodCtx.find name with
  | none =>
    unfold gatherArchiveKmodAndDeps at ran
    rw [found] at ran
    cases ran
  | some m =>
    refine ⟨m,rfl,?_⟩
    cases status : m.status with
    | builtin =>
      unfold gatherArchiveKmodAndDeps at ran
      simp only [found,status,if_true] at ran
      cases ran
      exact .inl ⟨rfl,rfl⟩
    | loadableModule =>
      by_cases seen : moduleDst gk m.relPath ∈ s.pathsSeen
      · rw [kmodAndDeps_seen found status seen] at ran
        cases ran
        exact .inr (.inl ⟨rfl,seen,rfl⟩)
      · exact .inr (.inr ⟨rfl,seen⟩)

theorem kmodAndDeps_fetched (present : FilesPresent fs gk) (backed : Backed base [] s) (whole : NotHalfFetched gk name s)
    (ran : (gatherArchiveKmodAndDeps fs name gk).run s = (.ok (),t)) :
    Backed base [] t ∧ ∀ m, gk.kmodCtx.find name = some m → m.status = .loadableModule → Fetched gk m t := by
  obtain ⟨m,found,⟨builtin,rfl⟩ | ⟨loadable,seen,rfl⟩ | ⟨loadable,new⟩⟩ := kmodAndDeps_cases ran
  · refine ⟨backed,fun m' again loadable => ?_⟩
    rw [found] at again
    cases again
    rw [builtin] at loadable
    cases loadable
  · exact ⟨backed,fun m' again _ => Option.some.inj (found.symm.trans again) ▸ whole m found loadable seen⟩
  · obtain ⟨rooted,deep,first,hard,soft⟩ := kmodAndDeps_stages found loadable new ran
    have own := archiveKmodPath_backed.ok _ _ _ (backed.insert _) first
    have ownSeen := (archiveKmodPath_keeps (seen_stored (moduleDst gk m.relPath))).ok _ _ _ List.mem_cons_self first
    have deps : Backed base [] deep := (Triple.forEach fun _ _ => archiveHardDep_backed).ok _ _ _ own hard
    refine ⟨(Triple.forEach fun _ _ => archiveSoftDep_backed present).ok _ _ _ deps soft,fun m' again _ => ?_⟩
    rw [found] at again
    cases again
    exact ⟨seen_after_soft (seen_after_hard ownSeen hard) soft,fun dep inside => seen_after_soft (hardDeps_seen hard inside) soft⟩

-- A request that returns Ok has been carried out, or try-kmod did not know it.
theorem gatherOneKmod_ok (present : FilesPresent fs gk) (ran : (gatherOneKmod fs gk ignoreMissing name).run s = (.ok (),t)) :
    (gatherArchiveKmodAndDeps fs name gk).run s = (.ok (),t) ∨ (gk.kmodCtx.find name = none ∧ s = t) := by
  unfold gatherOneKmod at ran
  dsimp only at ran
  split at ran
  · rename_i e left failed
    split at ran
    · rename_i missing
      split at ran
      · cases ran
        cases found : gk.kmodCtx.find name with
        | some m => exact absurd missing ((gatherArchiveKmodAndDeps_never present found).error _ _ _ trivial failed)
        | none =>
          unfold gatherArchiveKmodAndDeps at failed
          rw [found] at failed
          cases failed
          exact .inr ⟨rfl,rfl⟩
      · cases ran
    · cases ran
  · exact .inl ran

-- The names that a sequence of gather_archive_kmods calls asks for, each with
-- whether it may be missing.
abbrev KmodCall := List Name × Bool
def gatherCall (host : Host) (conf : Map) (call : KmodCall) : Gather Unit := gatherArchiveKmods host conf call.1 call.2
def gatherRequest (fs : FileSystem) (gk : GatherKmods) (r : Name × Bool) : Gather Unit := gatherOneKmod fs gk r.2 r.1
def requestsOf (calls : List KmodCall) : List (Name × Bool) := calls.flatMap fun call => call.1.map fun n => (n,call.2)

def RequestDone (gk : GatherKmods) (r : Name × Bool) (s : State) : Prop :=
  ∀ m, gk.kmodCtx.find r.1 = some m → m.status = .loadableModule → Fetched gk m s

theorem gatherRequest_done (present : FilesPresent fs gk) (backed : Backed base [] s) (whole : NotHalfFetched gk r.1 s)
    (ran : (gatherRequest fs gk r).run s = (.ok (),t)) : Backed base [] t ∧ RequestDone gk r t := by
  rcases gatherOneKmod_ok present ran with done | ⟨unknown,rfl⟩
  · exact kmodAndDeps_fetched present backed whole done
  · refine ⟨backed,fun m found => ?_⟩
    rw [unknown] at found
    cases found

theorem gatherRequest_keeps (done : RequestDone gk r s) (ran : (gatherRequest fs gk other).run s = (.ok (),t)) :
    RequestDone gk r t := by
  have grown : ∀ cs, cs ∈ s.pathsSeen → cs ∈ t.pathsSeen := fun cs held =>
    (gatherOneKmod_keeps (seen_stored cs) other.2).ok _ _ _ held ran
  intro m found loadable
  obtain ⟨own,deps⟩ := done m found loadable
  exact ⟨grown _ own,fun dep inside => grown _ (deps dep inside)⟩

theorem gk_stored (gk : GatherKmods) : Stored (fun _ => False) (fun s => s.gk = some gk) where
  archived := fun _ _ _ same _ => same
  refused := fun _ _ _ _ same _ _ => same
  inserted := fun _ _ same => same
  missing := fun _ impossible => impossible.elim

theorem knownKmods_some (known : s.gk = some gk) : (knownKmods host conf).run s = (.ok gk,s) := by
  unfold knownKmods
  rw [read_bind_run,known]
  rfl

theorem knownKmods_sets (ran : (knownKmods host conf).run s = (.ok gk,t)) : t.gk = some gk := by
  unfold knownKmods at ran
  rw [read_bind_run] at ran
  cases before : s.gk with
  | some old =>
    rw [before] at ran
    cases ran
    exact before
  | none =>
    rw [before] at ran
    obtain ⟨made,middle,_,ran⟩ := bind_ok.mp ran
    obtain ⟨_,last,updated,ended⟩ := bind_ok.mp ran
    cases updated
    cases ended
    rfl

-- Once the modules are known, the calls are their requests one by one.
theorem gatherCalls_requests (known : s.gk = some gk) (ran : (Eff.forEach (gatherCall host conf) calls).run s = (.ok (),t)) :
    (Eff.forEach (gatherRequest host.toFileSystem gk) (requestsOf calls)).run s = (.ok (),t) := by
  induction calls generalizing s with
  | nil => exact ran
  | cons call rest ih =>
    obtain ⟨_,middle,first,later⟩ := bind_ok.mp ran
    obtain ⟨gk',same,looked,named⟩ := bind_ok.mp first
    rw [knownKmods_some known] at looked
    cases looked
    have stays : middle.gk = some gk := (Keeps.forEach (fun _ => gatherOneKmod_keeps (gk_stored gk) call.2) _).ok _ _ _ known named
    change (Eff.forEach _ (call.1.map (fun n => (n,call.2)) ++ requestsOf rest)).run s = _
    rw [forEach_append,forEach_map]
    exact bind_ok.mpr ⟨(),middle,named,ih stays later⟩

-- The first call sets the modules up; from then on they are the same.
theorem gatherCalls_known (known : (knownKmods host conf).run s = (.ok gk,u))
    (ran : (Eff.forEach (gatherCall host conf) (call :: rest)).run s = (.ok (),t)) :
    (Eff.forEach (gatherCall host conf) (call :: rest)).run u = (.ok (),t) := by
  obtain ⟨_,middle,first,later⟩ := bind_ok.mp ran
  obtain ⟨gk',same,looked,named⟩ := bind_ok.mp first
  rw [known] at looked
  cases looked
  exact bind_ok.mpr ⟨(),middle,bind_ok.mpr ⟨gk,u,knownKmods_some (knownKmods_sets known),named⟩,later⟩

-- What the requests are for.
def ModuleArchived (gk : GatherKmods) (m : KmodModule) (t : State) : Prop :=
  Archived t (moduleDst gk m.relPath) ∧ ∀ dep ∈ m.hardDepsPaths, Archived t (moduleDst gk dep)

theorem requested_archived (known : (knownKmods host conf).run s = (.ok gk,u)) (present : FilesPresent host.toFileSystem gk)
    (fresh : ∀ rel, ModuleFile gk rel → moduleDst gk rel ∉ u.pathsSeen)
    (ran : (Eff.forEach (gatherCall host conf) calls).run s = (.ok (),t))
    (whole : ∀ before r after v, requestsOf calls = before ++ r :: after →
      (Eff.forEach (gatherRequest host.toFileSystem gk) before).run u = (.ok (),v) → NotHalfFetched gk r.1 v)
    (requested : r ∈ requestsOf calls) (found : gk.kmodCtx.find r.1 = some m) (loadable : m.status = .loadableModule) :
    ModuleArchived gk m t := by
  cases calls with
  | nil => cases requested
  | cons call rest =>
    have requests := gatherCalls_requests (knownKmods_sets known) (gatherCalls_known known ran)
    have start : Backed u.pathsSeen [] u := fun _ old => .inl old
    have each : ∀ r v w, Backed u.pathsSeen [] v → NotHalfFetched gk r.1 v →
        (gatherRequest host.toFileSystem gk r).run v = (.ok (),w) → Backed u.pathsSeen [] w ∧ RequestDone gk r w :=
      fun _ _ _ => gatherRequest_done present
    have kept : ∀ r other v w, RequestDone gk r v → (gatherRequest host.toFileSystem gk other).run v = (.ok (),w) →
        RequestDone gk r w := fun _ _ _ _ => gatherRequest_keeps
    obtain ⟨backed,done⟩ := forEach_meeting each kept whole requests start
    have archived : ∀ rel, ModuleFile gk rel → moduleDst gk rel ∈ t.pathsSeen → Archived t (moduleDst gk rel) := by
      intro rel file seen
      rcases backed _ seen with old | none | archived
      · exact absurd old (fresh rel file)
      · cases none
      · exact archived
    obtain ⟨own,deps⟩ := done r requested m found loadable
    refine ⟨archived _ ⟨r.1,m,found,loadable,.inl rfl⟩ own,fun dep inside => ?_⟩
    exact archived _ ⟨r.1,m,found,loadable,.inr inside⟩ (deps dep inside)

-- "x" has the soft dependency "a", and "a" the hard dependency "b".
def moduleA : KmodModule := ⟨.loadableModule,asPath "a.ko",[asPath "b.ko"],[],[],[]⟩

def sampleModules (n : Name) : Option KmodModule :=
  if n = asPath "x" then some ⟨.loadableModule,asPath "x.ko",[],[asPath "a"],[],[]⟩
  else if n = asPath "a" then some moduleA
  else if n = asPath "b" then some ⟨.loadableModule,asPath "b.ko",[],[],[],[]⟩
  else none

def sampleKmods : GatherKmods := ⟨asPath "/usr/lib/modules/k",⟨sampleModules,fun _ => none,asPath "/m"⟩⟩

-- Every path is a file of one byte.
def kmodHost : Host where
  cwd := [slash]
  symlinkMetadata := fun _ => .ok {plainMd (S_IFREG ||| 0o644) 1 with len:=1}
  fileOpen := fun _ => .ok ({plainMd (S_IFREG ||| 0o644) 1 with len:=1},[0])
  readDir := fun _ => .error (.ofKind .notFound)
  readLink := fun _ => .error (.ofKind .notFound)
  canonicalize := fun _ => .error (.ofKind .notFound)
  pathExists := fun _ => false
  cwd_absolute := root_absolute
  readDir_names := @lists_nothing
  canonicalize_absolute := @resolves_nothing
  elfOpen := fun _ => none
  kmodContextNew := fun _ => .error []

def kmodState : State := {emptyState with gk:=some sampleKmods}

theorem kmodHost_present : FilesPresent kmodHost.toFileSystem sampleKmods := fun _ _ => ⟨nofun,nofun⟩

def onlyA : List KmodCall := [([asPath "a"],false)]
@[irreducible] def onlyARun : Except IoError Unit × State := (Eff.forEach (gatherCall kmodHost noConf) onlyA).run kmodState

theorem onlyARun_ok : (Eff.forEach (gatherCall kmodHost noConf) onlyA).run kmodState = (.ok (),onlyARun.2) := by
  have succeeds : ((Eff.forEach (gatherCall kmodHost noConf) onlyA).run kmodState).1 = .ok () := by decide +kernel
  unfold onlyARun
  exact run_ok succeeds

theorem requested_archived_alone : ModuleArchived sampleKmods moduleA onlyARun.2 := by
  have known : (knownKmods kmodHost noConf).run kmodState = (.ok sampleKmods,kmodState) := knownKmods_some rfl
  have found : sampleKmods.kmodCtx.find (asPath "a") = some moduleA := by decide +kernel
  have requested : (asPath "a",false) ∈ requestsOf onlyA := List.mem_cons_self
  refine requested_archived known kmodHost_present (fun _ _ => nofun) onlyARun_ok ?_ requested found rfl
  intro before r after v split reached m _ _ seen
  cases before with
  | nil =>
    cases reached
    cases seen
  | cons first more =>
    cases more <;> simp [requestsOf,onlyA] at split

-- After "x", "a" is taken for a request that is done, although its hard
-- dependency was never looked at.
def xThenA : List KmodCall := [([asPath "x"],false),([asPath "a"],false)]
@[irreducible] def xThenARun : Except IoError Unit × State := (Eff.forEach (gatherCall kmodHost noConf) xThenA).run kmodState

theorem hard_dep_lost : FilesPresent kmodHost.toFileSystem sampleKmods ∧ kmodState.pathsSeen = [] ∧ xThenARun.1 = .ok () ∧
    (asPath "a",false) ∈ requestsOf xThenA ∧ sampleKmods.kmodCtx.find (asPath "a") = some moduleA ∧
    moduleA.status = .loadableModule ∧ ¬ModuleArchived sampleKmods moduleA xThenARun.2 := by
  refine ⟨kmodHost_present,rfl,by decide +kernel,by decide +kernel,by decide +kernel,rfl,fun archived => ?_⟩
  have missing : moduleDst sampleKmods (asPath "b.ko") ∉ archivedPaths xThenARun.2.archived := by decide +kernel
  exact missing (archived.2 (asPath "b.ko") List.mem_cons_self)
end Rapido.Cut
