import Rapido.KmodMissing

-- The module files that a list of requests brings into the archive.
namespace Rapido.Cut
open UnixPath Cpio Text KvConf Eff
variable {fs : FileSystem} {gk : GatherKmods} {start : State} {files dirs : List Component → Prop} {pending : List (List Component)}

def isFileCall : Call → Bool
  | .file _ _ _ => true
  | _ => false

def FileArchived (s : State) (cs : List Component) : Prop := ∃ c ∈ s.archived, isFileCall c = true ∧ components c.target = cs

instance : Decidable (FileArchived s cs) :=
  inferInstanceAs (Decidable (∃ c ∈ s.archived, isFileCall c = true ∧ components c.target = cs))

-- The files of the soft and weak dependencies that are loadable modules.
def softFile (gk : GatherKmods) (softMod : Name) : Option Name :=
  match gk.kmodCtx.find softMod with
  | none => none
  | some m => if m.status = .builtin then none else some m.relPath

def softFiles (gk : GatherKmods) (m : KmodModule) : List Name :=
  (m.softDepsPre ++ m.softDepsPost ++ m.weakDeps).filterMap (softFile gk)

-- All files that a request for the module is for.
def moduleFiles (gk : GatherKmods) (m : KmodModule) : List Name := m.relPath :: m.hardDepsPaths ++ softFiles gk m

def Wanted (gk : GatherKmods) (names : List Name) (rel : Name) : Prop :=
  ∃ name ∈ names, ∃ m, gk.kmodCtx.find name = some m ∧ m.status = .loadableModule ∧ rel ∈ moduleFiles gk m

theorem softFile_loadable (file : softFile gk softMod = some rel) :
    ∃ m, gk.kmodCtx.find softMod = some m ∧ m.status = .loadableModule ∧ m.relPath = rel := by
  unfold softFile at file
  split at file
  · cases file
  · rename_i m found
    split at file
    · cases file
    · rename_i other
      cases file
      exact ⟨m,found,loadable_of_not_builtin other,rfl⟩

theorem Wanted.moduleFile (wanted : Wanted gk names rel) : ModuleFile gk rel := by
  obtain ⟨name,_,m,found,loadable,inside⟩ := wanted
  rcases List.mem_cons.mp inside with rfl | inside
  · exact ⟨name,m,found,loadable,.inl rfl⟩
  · rcases List.mem_append.mp inside with hard | soft
    · exact ⟨name,m,found,loadable,.inr hard⟩
    · obtain ⟨softMod,_,file⟩ := List.mem_filterMap.mp soft
      obtain ⟨d,again,ready,rfl⟩ := softFile_loadable file
      exact ⟨softMod,d,again,ready,.inl rfl⟩

-- paths_seen after a successful request
theorem archiveSoftDep_seen (file : softFile gk softMod = some rel) (ran : (archiveSoftDep fs gk softMod).run s = (.ok (),t)) :
    moduleDst gk rel ∈ t.pathsSeen := by
  obtain ⟨m,found,loadable,rfl⟩ := softFile_loadable file
  unfold archiveSoftDep at ran
  simp only [found,loadable,reduceCtorEq,if_false] at ran
  obtain ⟨new,middle,inserted,ran⟩ := bind_ok.mp ran
  have stored := seen_stored (moduleDst gk m.relPath)
  exact (Keeps.runIf (ignoreNotFound_keeps stored.missing (archiveKmodPath_keeps stored))).ok _ _ _ (insertPath_seen inserted) ran

theorem softDeps_seen (ran : (Eff.forEach (archiveSoftDep fs gk) deps).run s = (.ok (),t)) (inside : rel ∈ deps.filterMap (softFile gk)) :
    moduleDst gk rel ∈ t.pathsSeen := by
  obtain ⟨softMod,listed,file⟩ := List.mem_filterMap.mp inside
  clear inside
  induction deps generalizing s with
  | nil => cases listed
  | cons first rest ih =>
    obtain ⟨_,middle,here,later⟩ := bind_ok.mp ran
    rcases List.mem_cons.mp listed with rfl | other
    · exact seen_after_soft (archiveSoftDep_seen file here) later
    · exact ih later other

theorem kmodAndDeps_files (found : gk.kmodCtx.find name = some m) (loadable : m.status = .loadableModule)
    (new : moduleDst gk m.relPath ∉ s.pathsSeen) (ran : (gatherArchiveKmodAndDeps fs name gk).run s = (.ok (),t))
    (inside : rel ∈ moduleFiles gk m) : moduleDst gk rel ∈ t.pathsSeen := by
  obtain ⟨rooted,deep,own,hard,soft⟩ := kmodAndDeps_stages found loadable new ran
  rcases List.mem_cons.mp inside with rfl | inside
  · have first := (archiveKmodPath_keeps (seen_stored (moduleDst gk m.relPath))).ok _ _ _ List.mem_cons_self own
    exact seen_after_soft (seen_after_hard first hard) soft
  · rcases List.mem_append.mp inside with dep | file
    · exact seen_after_soft (hardDeps_seen hard dep) soft
    · exact softDeps_seen soft file

-- Whatever has come into paths_seen since the start is a directory, awaits its
-- file or is a file in the archive; and only the given files have come into it.
structure Delivered (start : State) (files dirs : List Component → Prop) (pending : List (List Component)) (s : State) : Prop where
  grown : ∀ cs ∈ start.pathsSeen, cs ∈ s.pathsSeen
  kept : ∀ cs, FileArchived start cs → FileArchived s cs
  backed : ∀ cs ∈ s.pathsSeen, cs ∈ start.pathsSeen ∨ cs ∈ pending ∨ FileArchived s cs ∨ dirs cs
  only : ∀ cs, FileArchived s cs → FileArchived start cs ∨ (files cs ∧ cs ∉ start.pathsSeen)
  fresh : ∀ cs ∈ pending, files cs ∧ cs ∉ start.pathsSeen

theorem Delivered.refl (start : State) (files dirs : List Component → Prop) : Delivered start files dirs [] start where
  grown := fun _ h => h
  kept := fun _ h => h
  backed := fun _ => .inl
  only := fun _ => .inl
  fresh := nofun

theorem fileArchived_concat (c : Call) (a : Archive) (s : State) (cs : List Component) (seen : List (List Component)) :
    FileArchived {s with archive:=a,archived:=s.archived ++ [c],pathsSeen:=seen} cs ↔
      FileArchived s cs ∨ (isFileCall c = true ∧ components c.target = cs) := by
  simp [FileArchived,or_and_right,exists_or]

theorem Delivered.dir {dir : Path} (delivered : Delivered start files dirs pending s) (above : dirs (components dir)) (a : Archive)
    (amd : ArchiveMd) :
    Delivered start files dirs pending
      {s with archive:=a,archived:=s.archived ++ [.path dir amd],pathsSeen:=components dir :: s.pathsSeen} := by
  have same : ∀ cs, FileArchived {s with archive:=a,archived:=s.archived ++ [.path dir amd],pathsSeen:=components dir :: s.pathsSeen} cs ↔
      FileArchived s cs := by
    intro cs
    rw [fileArchived_concat]
    simp [isFileCall]
  refine ⟨fun cs old => List.mem_cons_of_mem _ (delivered.grown cs old),fun cs old => (same cs).mpr (delivered.kept cs old),?_,?_,
    delivered.fresh⟩
  · intro cs seen
    rw [same]
    rcases List.mem_cons.mp seen with rfl | old
    · exact .inr (.inr (.inr above))
    · exact delivered.backed cs old
  · intro cs archived
    exact delivered.only cs ((same cs).mp archived)

theorem Delivered.insert (delivered : Delivered start files dirs pending s) (new : cs ∉ s.pathsSeen) (file : files cs) :
    Delivered start files dirs (cs :: pending) {s with pathsSeen:=cs :: s.pathsSeen} := by
  refine ⟨fun x old => List.mem_cons_of_mem _ (delivered.grown x old),delivered.kept,?_,delivered.only,?_⟩
  · intro x seen
    rcases List.mem_cons.mp seen with rfl | old
    · exact .inr (.inl List.mem_cons_self)
    · rcases delivered.backed x old with first | awaited | rest
      · exact .inl first
      · exact .inr (.inl (List.mem_cons_of_mem _ awaited))
      · exact .inr (.inr rest)
  · intro x awaited
    rcases List.mem_cons.mp awaited with rfl | other
    · exact ⟨file,fun old => new (delivered.grown _ old)⟩
    · exact delivered.fresh x other

theorem Delivered.file (delivered : Delivered start files dirs (components dst :: pending) s) (a : Archive) (amd : ArchiveMd)
    (data : List UInt8) : Delivered start files dirs pending {s with archive:=a,archived:=s.archived ++ [.file dst amd data]} := by
  have more : ∀ cs, FileArchived {s with archive:=a,archived:=s.archived ++ [.file dst amd data]} cs ↔
      FileArchived s cs ∨ components dst = cs := by
    intro cs
    apply (fileArchived_concat _ a s cs s.pathsSeen).trans
    simp [isFileCall,Call.target]
  refine ⟨delivered.grown,fun cs old => (more cs).mpr (.inl (delivered.kept cs old)),?_,?_,
    fun cs awaited => delivered.fresh cs (List.mem_cons_of_mem _ awaited)⟩
  · intro cs seen
    rw [more]
    rcases delivered.backed cs seen with first | awaited | archived | dir
    · exact .inl first
    · rcases List.mem_cons.mp awaited with rfl | other
      · exact .inr (.inr (.inl (.inr rfl)))
      · exact .inr (.inl other)
    · exact .inr (.inr (.inl (.inl archived)))
    · exact .inr (.inr (.inr dir))
  · intro cs archived
    rcases (more cs).mp archived with old | rfl
    · exact delivered.only cs old
    · exact .inr (delivered.fresh _ List.mem_cons_self)

theorem archiveKmodPath_delivered (above : ∀ cs ∈ dirsAbove dst, dirs cs) :
    Ensures (Delivered start files dirs (components dst :: pending)) (archiveKmodPath fs src dst)
      fun _ => Delivered start files dirs pending := by
  have walked : ∀ amd, Ensures (Delivered start files dirs (components dst :: pending)) (gatherArchiveDirs (parent dst) amd)
      fun _ => Delivered start files dirs (components dst :: pending) := fun amd =>
    gatherArchiveDirs_enters fun s dir amd a delivered inside _ => delivered.dir (above _ inside) a amd
  refine Ensures.ofExcept_bind fun md _ => .bind archiveMd_same fun amd => ?_
  refine .bind (walked amd) fun _ => Ensures.ofExcept_bind fun ⟨_,bytes⟩ _ => ?_
  exact archive_triple (fun s a delivered _ => delivered.file a amd bytes) fun _ _ _ _ _ => trivial

theorem archiveHardDep_delivered (above : ∀ cs ∈ dirsAbove (join gk.kmodDstRoot dep), dirs cs) (file : files (moduleDst gk dep)) :
    Ensures (Delivered start files dirs []) (archiveHardDep fs gk dep) fun _ => Delivered start files dirs [] := by
  refine insertPath_bind (.runIf (fun _ => (archiveKmodPath_delivered above).weaken ?_ fun _ _ h => h) fun no => absurd rfl no) ?_
  · rintro _ ⟨s,delivered,new,rfl⟩
    exact delivered.insert new file
  · exact .runIf (fun yes => absurd yes Bool.noConfusion) fun _ u before => before.1

theorem archiveSoftDep_delivered (present : FilesPresent fs gk)
    (each : ∀ rel, softFile gk softMod = some rel → files (moduleDst gk rel) ∧ ∀ cs ∈ dirsAbove (join gk.kmodDstRoot rel), dirs cs) :
    Ensures (Delivered start files dirs []) (archiveSoftDep fs gk softMod) fun _ => Delivered start files dirs [] := by
  refine archiveSoftDep_triple fun m found other => ?_
  obtain ⟨file,above⟩ := each m.relPath (by simp [softFile,found,other])
  have listed : ModuleFile gk m.relPath := ⟨softMod,m,found,loadable_of_not_builtin other,.inl rfl⟩
  refine insertPath_bind (.runIf (fun _ => ⟨?_,fun _ _ _ _ _ => trivial⟩) fun no => absurd rfl no) ?_
  · rintro _ _ t ⟨u,delivered,new,rfl⟩ ran
    have ran := ignoreNotFound_ok (archiveKmodPath_never (present _ listed)) ran
    exact (archiveKmodPath_delivered above).ok _ _ t (delivered.insert new file) ran
  · exact .runIf (fun yes => absurd yes Bool.noConfusion) fun _ u before => before.1

-- All files of a requested module are in paths_seen.
def Arrived (gk : GatherKmods) (name : Name) (s : State) : Prop :=
  ∀ m, gk.kmodCtx.find name = some m → m.status = .loadableModule → ∀ rel ∈ moduleFiles gk m, moduleDst gk rel ∈ s.pathsSeen

-- If its own file is there, so are the others.
def NotHalfArrived (gk : GatherKmods) (name : Name) (s : State) : Prop :=
  ∀ m, gk.kmodCtx.find name = some m → m.status = .loadableModule → moduleDst gk m.relPath ∈ s.pathsSeen →
    ∀ rel ∈ moduleFiles gk m, moduleDst gk rel ∈ s.pathsSeen

def wantedPaths (gk : GatherKmods) (names : List Name) (cs : List Component) : Prop := ∃ rel, Wanted gk names rel ∧ moduleDst gk rel = cs
def listedDirs (gk : GatherKmods) (cs : List Component) : Prop :=
  ∃ rel, ModuleFile gk rel ∧ cs ∈ dirsAbove (join gk.kmodDstRoot rel)

abbrev Delivering (gk : GatherKmods) (names : List Name) (start s : State) : Prop :=
  Delivered start (wantedPaths gk names) (listedDirs gk) [] s

theorem kmodAndDeps_delivered (present : FilesPresent fs gk) (named : name ∈ names) (found : gk.kmodCtx.find name = some m)
    (loadable : m.status = .loadableModule) (new : moduleDst gk m.relPath ∉ s.pathsSeen) (delivered : Delivering gk names start s)
    (ran : (gatherArchiveKmodAndDeps fs name gk).run s = (.ok (),t)) : Delivering gk names start t := by
  have wanted : ∀ rel ∈ moduleFiles gk m, Wanted gk names rel := fun rel inside => ⟨name,named,m,found,loadable,inside⟩
  have file : ∀ rel ∈ moduleFiles gk m, wantedPaths gk names (moduleDst gk rel) := fun rel inside => ⟨rel,wanted rel inside,rfl⟩
  have above : ∀ rel ∈ moduleFiles gk m, ∀ cs ∈ dirsAbove (join gk.kmodDstRoot rel), listedDirs gk cs :=
    fun rel inside cs dir => ⟨rel,(wanted rel inside).moduleFile,dir⟩
  obtain ⟨rooted,deep,own,hard,soft⟩ := kmodAndDeps_stages found loadable new ran
  have first := (archiveKmodPath_delivered (above m.relPath List.mem_cons_self)).ok _ () rooted
    (delivered.insert new (file m.relPath List.mem_cons_self)) own
  have second : Delivering gk names start deep := by
    refine (Triple.forEach fun dep inside => ?_ : Ensures _ _ fun _ => Delivering gk names start).ok rooted () deep first hard
    have member : dep ∈ moduleFiles gk m := List.mem_cons_of_mem _ (List.mem_append_left _ inside)
    exact archiveHardDep_delivered (above dep member) (file dep member)
  refine (Triple.forEach fun softMod inside => ?_ : Ensures _ _ fun _ => Delivering gk names start).ok deep () t second soft
  refine archiveSoftDep_delivered present fun rel found => ?_
  have member : rel ∈ moduleFiles gk m :=
    List.mem_cons_of_mem _ (List.mem_append_right _ (List.mem_filterMap.mpr ⟨softMod,inside,found⟩))
  exact ⟨file rel member,above rel member⟩

theorem gatherOneKmod_delivered (present : FilesPresent fs gk) (named : name ∈ names) (whole : NotHalfArrived gk name s)
    (delivered : Delivering gk names start s) (ran : (gatherOneKmod fs gk ignoreMissing name).run s = (.ok (),t)) :
    Delivering gk names start t ∧ Arrived gk name t := by
  rcases gatherOneKmod_ok present ran with ran | ⟨unknown,rfl⟩
  · obtain ⟨m,found,⟨builtin,rfl⟩ | ⟨loadable,seen,rfl⟩ | ⟨loadable,new⟩⟩ := kmodAndDeps_cases ran
    · refine ⟨delivered,fun m' again loadable => ?_⟩
      rw [found] at again
      cases again
      rw [builtin] at loadable
      cases loadable
    · exact ⟨delivered,fun m' again _ => Option.some.inj (found.symm.trans again) ▸ whole m found loadable seen⟩
    · refine ⟨kmodAndDeps_delivered present named found loadable new delivered ran,fun m' again _ rel inside => ?_⟩
      rw [found] at again
      cases again
      exact kmodAndDeps_files found loadable new ran inside
  · refine ⟨delivered,fun m found => ?_⟩
    rw [unknown] at found
    cases found

theorem gatherOneKmod_arrived (arrived : Arrived gk name s) (ran : (gatherOneKmod fs gk ignoreMissing other).run s = (.ok (),t)) :
    Arrived gk name t := fun m found loadable rel inside =>
  (gatherOneKmod_keeps (seen_stored _) ignoreMissing).ok _ _ _ (arrived m found loadable rel inside) ran

-- No module file is a directory on the way to another.
def FilesApart (gk : GatherKmods) : Prop := ∀ rel, ModuleFile gk rel → ¬listedDirs gk (moduleDst gk rel)

-- What a list of requests brings in does not depend on the run.
theorem requests_archive (present : FilesPresent fs gk) (apart : FilesApart gk)
    (whole : ∀ before name after v, names = before ++ name :: after →
      (Eff.forEach (gatherOneKmod fs gk ignoreMissing) before).run u = (.ok (),v) → NotHalfArrived gk name v)
    (ran : (Eff.forEach (gatherOneKmod fs gk ignoreMissing) names).run u = (.ok (),t)) :
    ∀ cs, FileArchived t cs ↔ FileArchived u cs ∨ (wantedPaths gk names cs ∧ cs ∉ u.pathsSeen) := by
  have each : ∀ name v w, Delivering gk names u v → (name ∈ names ∧ NotHalfArrived gk name v) →
      (gatherOneKmod fs gk ignoreMissing name).run v = (.ok (),w) → Delivering gk names u w ∧ Arrived gk name w :=
    fun name v w delivered meets => gatherOneKmod_delivered present meets.1 meets.2 delivered
  have kept : ∀ name other v w, Arrived gk name v → (gatherOneKmod fs gk ignoreMissing other).run v = (.ok (),w) →
      Arrived gk name w := fun _ _ _ _ => gatherOneKmod_arrived
  have meets : ∀ before name after v, names = before ++ name :: after →
      (Eff.forEach (gatherOneKmod fs gk ignoreMissing) before).run u = (.ok (),v) → name ∈ names ∧ NotHalfArrived gk name v :=
    fun before name after v split reached => ⟨by rw [split]; simp,whole before name after v split reached⟩
  obtain ⟨delivered,arrived⟩ := forEach_meeting each kept meets ran (.refl u _ _)
  intro cs
  constructor
  · exact delivered.only cs
  · rintro (old | ⟨⟨rel,wanted,rfl⟩,new⟩)
    · exact delivered.kept cs old
    · have listed := wanted.moduleFile
      obtain ⟨name,named,m,found,loadable,inside⟩ := wanted
      rcases delivered.backed _ (arrived name named m found loadable rel inside) with old | none | archived | dir
      · exact absurd old new
      · cases none
      · exact archived
      · exact absurd dir (apart rel listed)

theorem wantedPaths_perm (perm : names.Perm others) : wantedPaths gk names cs ↔ wantedPaths gk others cs := by
  simp only [wantedPaths,Wanted,perm.mem_iff]

theorem order_irrelevant (known : (knownKmods host conf).run s = (.ok gk,u)) (present : FilesPresent host.toFileSystem gk)
    (apart : FilesApart gk) (perm : names.Perm others)
    (whole : ∀ list, list = names ∨ list = others → ∀ before name after v, list = before ++ name :: after →
      (Eff.forEach (gatherOneKmod host.toFileSystem gk ignoreMissing) before).run u = (.ok (),v) → NotHalfArrived gk name v)
    (ran : (gatherArchiveKmods host conf names ignoreMissing).run s = (.ok (),t))
    (again : (gatherArchiveKmods host conf others ignoreMissing).run s = (.ok (),t')) (cs : List Component) :
    FileArchived t cs ↔ FileArchived t' cs := by
  have requests : ∀ list t, (gatherArchiveKmods host conf list ignoreMissing).run s = (.ok (),t) →
      (Eff.forEach (gatherOneKmod host.toFileSystem gk ignoreMissing) list).run u = (.ok (),t) := by
    intro list t ran
    unfold gatherArchiveKmods at ran
    rwa [bind_run_ok known] at ran
  rw [requests_archive present apart (whole names (.inl rfl)) (requests names t ran),
    requests_archive present apart (whole others (.inr rfl)) (requests others t' again),wantedPaths_perm perm]

-- The sample's modules have three files, all in one directory.
def sampleFiles : List Name := [asPath "x.ko",asPath "a.ko",asPath "b.ko"]

theorem sample_lookup (found : sampleKmods.kmodCtx.lookup name = some m) : ∀ rel ∈ m.relPath :: m.hardDepsPaths, rel ∈ sampleFiles := by
  unfold KmodContext.lookup at found
  split at found
  · rename_i listed
    cases found
    change sampleModules name = some m at listed
    unfold sampleModules at listed
    split_ifs at listed
    all_goals
      cases listed
      decide
  · cases found

theorem sample_files (listed : ModuleFile sampleKmods rel) : rel ∈ sampleFiles := by
  obtain ⟨name,m,found,_,which⟩ := listed
  have inside : rel ∈ m.relPath :: m.hardDepsPaths := List.mem_cons.mpr which
  unfold KmodContext.find at found
  split at found
  · rename_i lookup
    cases found
    exact sample_lookup lookup rel inside
  · split at found
    · exact sample_lookup found rel inside
    · cases found

theorem sample_apart : FilesApart sampleKmods := by
  have apart : ∀ rel ∈ sampleFiles, ∀ other ∈ sampleFiles,
      moduleDst sampleKmods rel ∉ dirsAbove (join sampleKmods.kmodDstRoot other) := by decide +kernel
  rintro rel listed ⟨other,also,inside⟩
  exact apart rel (sample_files listed) other (sample_files also) inside

-- "a" brings in its hard dependency "b", whether "b" is asked for before it or
-- after it.
def requestRun (names : List Name) : Except IoError Unit × State := (gatherArchiveKmods kmodHost noConf names false).run kmodState
@[irreducible] def bThenARun : Except IoError Unit × State := requestRun [asPath "b",asPath "a"]
@[irreducible] def aThenBRun : Except IoError Unit × State := requestRun [asPath "a",asPath "b"]


theorem sample_wholly (v : State) (seen : moduleDst sampleKmods (asPath "a.ko") ∈ v.pathsSeen →
    moduleDst sampleKmods (asPath "b.ko") ∈ v.pathsSeen) (name : Name) (which : name = asPath "a" ∨ name = asPath "b") :
    NotHalfArrived sampleKmods name v := by
  intro m found _ own rel inside
  rcases which with rfl | rfl
  · have here : sampleKmods.kmodCtx.find (asPath "a") = some moduleA := by decide +kernel
    rw [here] at found
    cases found
    have files : moduleFiles sampleKmods moduleA = [asPath "a.ko",asPath "b.ko"] := by decide +kernel
    rw [files] at inside
    rcases List.mem_cons.mp inside with rfl | inside
    · exact own
    · exact List.mem_singleton.mp inside ▸ seen own
  · have here : sampleKmods.kmodCtx.find (asPath "b") = some ⟨.loadableModule,asPath "b.ko",[],[],[],[]⟩ := by decide +kernel
    rw [here] at found
    cases found
    exact List.mem_singleton.mp inside ▸ own

theorem order_irrelevant_pair : (∀ cs, FileArchived aThenBRun.2 cs ↔ FileArchived bThenARun.2 cs) ∧
    FileArchived aThenBRun.2 (moduleDst sampleKmods (asPath "b.ko")) := by
  have known : (knownKmods kmodHost noConf).run kmodState = (.ok sampleKmods,kmodState) := knownKmods_some rfl
  have first : (gatherArchiveKmods kmodHost noConf [asPath "a",asPath "b"] false).run kmodState = (.ok (),aThenBRun.2) := by
    have succeeds : ((gatherArchiveKmods kmodHost noConf [asPath "a",asPath "b"] false).run kmodState).1 = .ok () := by decide +kernel
    unfold aThenBRun
    exact run_ok succeeds
  have second : (gatherArchiveKmods kmodHost noConf [asPath "b",asPath "a"] false).run kmodState = (.ok (),bThenARun.2) := by
    have succeeds : ((gatherArchiveKmods kmodHost noConf [asPath "b",asPath "a"] false).run kmodState).1 = .ok () := by decide +kernel
    unfold bThenARun
    exact run_ok succeeds
  refine ⟨order_irrelevant known kmodHost_present sample_apart (List.Perm.swap _ _ _) ?_ first second,by decide +kernel⟩
  rintro list which before name after v split reached
  have prefixes : before ∈ [[],[asPath "a"],[asPath "b"]] ∧ (name = asPath "a" ∨ name = asPath "b") := by
    rcases which with rfl | rfl
    all_goals rcases before with _ | ⟨first,_ | ⟨second,more⟩⟩ <;> simp at split
    all_goals simp [split]
  have seen : ∀ before ∈ [[],[asPath "a"],[asPath "b"]],
      moduleDst sampleKmods (asPath "a.ko") ∈
        ((Eff.forEach (gatherOneKmod kmodHost.toFileSystem sampleKmods false) before).run kmodState).2.pathsSeen →
      moduleDst sampleKmods (asPath "b.ko") ∈
        ((Eff.forEach (gatherOneKmod kmodHost.toFileSystem sampleKmods false) before).run kmodState).2.pathsSeen := by decide +kernel
  refine sample_wholly v ?_ name prefixes.2
  rw [run_state reached]
  exact seen before prefixes.1

-- "x" has "a" as a soft dependency only: asked for first, it keeps "b" out.
@[irreducible] def xThenARequests : Except IoError Unit × State := requestRun [asPath "x",asPath "a"]
@[irreducible] def aThenXRequests : Except IoError Unit × State := requestRun [asPath "a",asPath "x"]

theorem order_matters : FilesPresent kmodHost.toFileSystem sampleKmods ∧ kmodState.pathsSeen = [] ∧
    requestRun [asPath "x",asPath "a"] = (.ok (),xThenARequests.2) ∧ requestRun [asPath "a",asPath "x"] = (.ok (),aThenXRequests.2) ∧
    ¬FileArchived xThenARequests.2 (moduleDst sampleKmods (asPath "b.ko")) ∧
    FileArchived aThenXRequests.2 (moduleDst sampleKmods (asPath "b.ko")) := by
  have first : (requestRun [asPath "x",asPath "a"]).1 = .ok () := by decide +kernel
  have second : (requestRun [asPath "a",asPath "x"]).1 = .ok () := by decide +kernel
  refine ⟨kmodHost_present,rfl,?_,?_,by decide +kernel,by decide +kernel⟩
  · unfold xThenARequests
    rw [← first]
  · unfold aThenXRequests
    rw [← second]

end Rapido.Cut
