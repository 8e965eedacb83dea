import Rapido.KmodGather
import Rapido.SeenPaths

-- Requests for kernel modules whose files are missing.
namespace Rapido.Cut
open UnixPath Cpio Text KvConf Eff
variable {fs : FileSystem} {gk : GatherKmods} {allowed : List Component → Prop}

def Within (allowed : List Component → Prop) (s : State) : Prop := ∀ cs ∈ s.pathsSeen, allowed cs

theorem Within.insert (within : Within allowed s) (new : allowed cs) : Within allowed {s with pathsSeen:=cs :: s.pathsSeen} := by
  intro x seen
  rcases List.mem_cons.mp seen with rfl | old
  · exact new
  · exact within x old

-- What archiving a module file puts into paths_seen.
def touched (gk : GatherKmods) (rel : Name) : List (List Component) := moduleDst gk rel :: dirsAbove (join gk.kmodDstRoot rel)

theorem archiveKmodPath_within (inside : ∀ cs ∈ dirsAbove dst, allowed cs) :
    Ensures (Within allowed) (archiveKmodPath fs src dst) fun _ => Within allowed := by
  have dirs : ∀ amd, Ensures (Within allowed) (gatherArchiveDirs (parent dst) amd) fun _ => Within allowed := fun amd =>
    gatherArchiveDirs_enters fun s dir amd a within above _ => within.insert (inside _ above)
  refine Ensures.ofExcept_bind fun md _ => .bind archiveMd_same fun amd => ?_
  refine .bind (dirs amd) fun _ => Ensures.ofExcept_bind fun ⟨_,bytes⟩ _ => ?_
  exact archive_triple (fun _ _ within _ => within) fun _ _ _ _ _ => trivial

theorem archiveHardDep_within (inside : ∀ cs ∈ touched gk dep, allowed cs) :
    Ensures (Within allowed) (archiveHardDep fs gk dep) fun _ => Within allowed := by
  have put : Ensures (Within allowed) (insertPath (join gk.kmodDstRoot dep)) fun _ => Within allowed :=
    insertPath_triple (fun s within _ => within.insert (inside _ List.mem_cons_self)) fun _ within _ => within
  refine .bind put fun new => .runIf (fun _ => archiveKmodPath_within fun cs above => ?_) fun _ _ h => h
  exact inside cs (List.mem_cons_of_mem _ above)

-- A file that is not present cannot be archived.
theorem archiveKmodPath_present (ran : (archiveKmodPath fs src dst).run s = (.ok (),t)) : Present fs src := by
  obtain ⟨md,_,stat,ran⟩ := bind_ok.mp ran
  obtain ⟨amd,_,_,ran⟩ := bind_ok.mp ran
  obtain ⟨_,_,_,ran⟩ := bind_ok.mp ran
  obtain ⟨pair,_,opened,_⟩ := bind_ok.mp ran
  constructor
  · intro e failed
    rw [(ofExcept_run_ok stat).1] at failed
    cases failed
  · intro e failed
    rw [(ofExcept_run_ok opened).1] at failed
    cases failed

theorem archiveHardDep_present (new : moduleDst gk dep ∉ s.pathsSeen) (ran : (archiveHardDep fs gk dep).run s = (.ok (),t)) :
    Present fs (join gk.kmodCtx.moduleRoot dep) := by
  obtain ⟨fresh,middle,inserted,ran⟩ := bind_ok.mp ran
  rw [insertPath_new new] at inserted
  cases inserted
  exact archiveKmodPath_present ran

-- The module's own file or that of a hard dependency is missing.
def Lacks (fs : FileSystem) (gk : GatherKmods) (m : KmodModule) : Prop :=
  ∃ rel ∈ m.relPath :: m.hardDepsPaths, ¬Present fs (join gk.kmodCtx.moduleRoot rel)

-- paths_seen neither has the module nor will have the missing dependency when
-- its turn comes.
def MissingUnseen (fs : FileSystem) (gk : GatherKmods) (m : KmodModule) (s : State) : Prop :=
  moduleDst gk m.relPath ∉ s.pathsSeen ∧
  (¬Present fs (join gk.kmodCtx.moduleRoot m.relPath) ∨
    ∃ front dep back, m.hardDepsPaths = front ++ dep :: back ∧ ¬Present fs (join gk.kmodCtx.moduleRoot dep) ∧
      moduleDst gk dep ∉ s.pathsSeen ∧ ∀ rel ∈ m.relPath :: front, moduleDst gk dep ∉ touched gk rel)

theorem hardDeps_missing (fresh : moduleDst gk dep ∉ s.pathsSeen) (apart : ∀ rel ∈ front, moduleDst gk dep ∉ touched gk rel)
    (missing : ¬Present fs (join gk.kmodCtx.moduleRoot dep))
    (ran : (Eff.forEach (archiveHardDep fs gk) (front ++ dep :: back)).run s = (.ok (),t)) : False := by
  rw [forEach_append] at ran
  obtain ⟨_,middle,earlier,ran⟩ := bind_ok.mp ran
  obtain ⟨_,_,own,_⟩ := bind_ok.mp ran
  have start : Within (· ≠ moduleDst gk dep) s := fun cs seen same => fresh (same ▸ seen)
  have each : ∀ rel ∈ front, Ensures (Within (· ≠ moduleDst gk dep)) (archiveHardDep fs gk rel)
      fun _ => Within (· ≠ moduleDst gk dep) :=
    fun rel inside => archiveHardDep_within fun cs put same => apart rel inside (same ▸ put)
  have within := (Triple.forEach each).ok s () middle start earlier
  exact missing (archiveHardDep_present (fun seen => within _ seen rfl) own)

theorem kmodAndDeps_missing (found : gk.kmodCtx.find name = some m) (loadable : m.status = .loadableModule)
    (unseen : MissingUnseen fs gk m s) (ran : (gatherArchiveKmodAndDeps fs name gk).run s = (.ok (),t)) : False := by
  obtain ⟨rooted,_,own,hard,_⟩ := kmodAndDeps_stages found loadable unseen.1 ran
  rcases unseen.2 with missing | ⟨front,dep,back,split,missing,fresh,apart⟩
  · exact missing (archiveKmodPath_present own)
  · rw [split] at hard
    refine hardDeps_missing (fun seen => ?_) (fun rel inside => apart rel (List.mem_cons_of_mem _ inside)) missing hard
    have untouched := apart m.relPath List.mem_cons_self
    have start : Within (· ≠ moduleDst gk dep) {s with pathsSeen:=moduleDst gk m.relPath :: s.pathsSeen} :=
      Within.insert (fun cs seen same => fresh (same ▸ seen)) fun same => untouched (same ▸ List.mem_cons_self)
    have above : ∀ cs ∈ dirsAbove (join gk.kmodDstRoot m.relPath), cs ≠ moduleDst gk dep :=
      fun cs above same => untouched (List.mem_cons_of_mem _ (same ▸ above))
    have within := (archiveKmodPath_within above).ok _ () rooted start own
    exact within _ seen rfl

theorem gatherOneKmod_missing (found : gk.kmodCtx.find name = some m) (loadable : m.status = .loadableModule)
    (unseen : MissingUnseen fs gk m s) (ran : (gatherOneKmod fs gk false name).run s = (.ok (),t)) : False := by
  unfold gatherOneKmod at ran
  dsimp only at ran
  split at ran
  · split at ran
    · cases ran
    · cases ran
  · exact kmodAndDeps_missing found loadable unseen ran

theorem gatherCalls_before (known : (knownKmods host conf).run s = (.ok gk,u))
    (ran : (Eff.forEach (gatherCall host conf) (calls ++ [call])).run s = (.ok (),t)) :
    (Eff.forEach (gatherRequest host.toFileSystem gk) (requestsOf (calls ++ [call]))).run u = (.ok (),t) := by
  cases calls with
  | nil => exact gatherCalls_requests (knownKmods_sets known) (gatherCalls_known known ran)
  | cons first rest => exact gatherCalls_requests (knownKmods_sets known) (gatherCalls_known known ran)

theorem missing_reported (known : (knownKmods host conf).run s = (.ok gk,u))
    (unseen : ∀ before name after v m, requestsOf calls = before ++ (name,false) :: after →
      (Eff.forEach (gatherRequest host.toFileSystem gk) before).run u = (.ok (),v) → gk.kmodCtx.find name = some m →
      m.status = .loadableModule → Lacks host.toFileSystem gk m → MissingUnseen host.toFileSystem gk m v)
    (split : calls = earlier ++ (names,false) :: later) (done : (Eff.forEach (gatherCall host conf) earlier).run s = (.ok (),t))
    (requested : name ∈ names) (found : gk.kmodCtx.find name = some m) (loadable : m.status = .loadableModule)
    (lacks : Lacks host.toFileSystem gk m) : ∃ e w, (gatherCall host conf (names,false)).run t = (.error e,w) := by
  cases ran : (gatherCall host conf (names,false)).run t with
  | mk result w =>
    cases result with
    | error e => exact ⟨e,w,rfl⟩
    | ok value =>
      exfalso
      have all : (Eff.forEach (gatherCall host conf) (earlier ++ [(names,false)])).run s = (.ok (),w) := by
        rw [forEach_append]
        exact bind_ok.mpr ⟨(),t,done,bind_ok.mpr ⟨(),w,ran,rfl⟩⟩
      have requests := gatherCalls_before known all
      obtain ⟨front,back,rfl⟩ := List.append_of_mem requested
      have cut : requestsOf (earlier ++ [(front ++ name :: back,false)]) =
          (requestsOf earlier ++ front.map (fun n => (n,false))) ++ (name,false) :: back.map fun n => (n,false) := by
        simp [requestsOf]
      rw [cut,forEach_append] at requests
      obtain ⟨_,v,before,requests⟩ := bind_ok.mp requests
      obtain ⟨_,_,here,_⟩ := bind_ok.mp requests
      have whole : requestsOf calls = (requestsOf earlier ++ front.map (fun n => (n,false))) ++
          (name,false) :: (back.map (fun n => (n,false)) ++ requestsOf later) := by
        rw [split]
        simp [requestsOf]
      exact gatherOneKmod_missing found loadable (unseen _ name _ v m whole before found loadable lacks) here

-- The file of "b", a hard dependency of "a", is missing.
def missingHost : Host := {kmodHost with
  symlinkMetadata := fun p => if p = asPath "/m/b.ko" then .error (.ofKind .notFound) else kmodHost.symlinkMetadata p
  fileOpen := fun p => if p = asPath "/m/b.ko" then .error (.ofKind .notFound) else kmodHost.fileOpen p
  readDir_names := nofun
  canonicalize_absolute := nofun}

theorem missingHost_stat : missingHost.symlinkMetadata (join sampleKmods.kmodCtx.moduleRoot (asPath "b.ko")) = .error (.ofKind .notFound) := by
  have same : join sampleKmods.kmodCtx.moduleRoot (asPath "b.ko") = asPath "/m/b.ko" := by decide +kernel
  rw [same]
  simp [missingHost]

theorem missingHost_lacks : ¬Present missingHost.toFileSystem (join sampleKmods.kmodCtx.moduleRoot (asPath "b.ko")) :=
  fun present => present.1 _ missingHost_stat rfl

-- "zz" is not known and ignored; "a" is then refused.
def unknownThenA : List KmodCall := [([asPath "zz"],true),([asPath "a"],false)]

theorem unknown_ignored : (Eff.forEach (gatherRequest missingHost.toFileSystem sampleKmods) [(asPath "zz",true)]).run kmodState =
    (.ok (),kmodState) := by
  have unknown : sampleKmods.kmodCtx.find (asPath "zz") = none := by decide +kernel
  have refused : (gatherArchiveKmodAndDeps missingHost.toFileSystem (asPath "zz") sampleKmods).run kmodState =
      (.error (.ofKind .notFound),kmodState) := by
    unfold gatherArchiveKmodAndDeps
    rw [unknown]
    rfl
  have ignored : (gatherOneKmod missingHost.toFileSystem sampleKmods true (asPath "zz")).run kmodState = (.ok (),kmodState) := by
    unfold gatherOneKmod
    dsimp only
    rw [refused]
    rfl
  exact bind_ok.mpr ⟨(),kmodState,ignored,rfl⟩

theorem missing_reported_hard_dep : ∃ e w, (gatherCall missingHost noConf ([asPath "a"],false)).run kmodState = (.error e,w) := by
  have known : (knownKmods missingHost noConf).run kmodState = (.ok sampleKmods,kmodState) := knownKmods_some rfl
  have found : sampleKmods.kmodCtx.find (asPath "a") = some moduleA := by decide +kernel
  have earlier : (Eff.forEach (gatherCall missingHost noConf) [([asPath "zz"],true)]).run kmodState = (.ok (),kmodState) :=
    bind_ok.mpr ⟨(),kmodState,bind_ok.mpr ⟨sampleKmods,kmodState,known,unknown_ignored⟩,rfl⟩
  refine missing_reported known ?_ (show unknownThenA = [([asPath "zz"],true)] ++ ([asPath "a"],false) :: [] from rfl) earlier
    List.mem_cons_self found rfl ⟨asPath "b.ko",by decide,missingHost_lacks⟩
  intro before name after v m split reached again _ _
  have only : before = [(asPath "zz",true)] ∧ name = asPath "a" := by
    rcases before with _ | ⟨first,_ | ⟨second,more⟩⟩ <;> simp [requestsOf,unknownThenA] at split
    exact ⟨by rw [split.1],split.2.1.symm⟩
  obtain ⟨rfl,rfl⟩ := only
  rw [unknown_ignored] at reached
  cases reached
  rw [found] at again
  cases again
  refine ⟨List.not_mem_nil,.inr ⟨[],asPath "b.ko",[],rfl,missingHost_lacks,List.not_mem_nil,fun rel inside => ?_⟩⟩
  rw [List.mem_singleton.mp inside]
  decide +kernel

-- After a try-kmod of "a" itself, kmod finds it in paths_seen.
@[irreducible] def triedA : Except IoError Unit × State := (gatherCall missingHost noConf ([asPath "a"],true)).run kmodState

theorem missing_forgotten : Lacks missingHost.toFileSystem sampleKmods moduleA ∧ sampleKmods.kmodCtx.find (asPath "a") = some moduleA ∧
    moduleA.status = .loadableModule ∧ kmodState.pathsSeen = [] ∧
    (gatherCall missingHost noConf ([asPath "a"],true)).run kmodState = (.ok (),triedA.2) ∧
    ((gatherCall missingHost noConf ([asPath "a"],false)).run triedA.2).1 = .ok () := by
  have succeeds : ((gatherCall missingHost noConf ([asPath "a"],true)).run kmodState).1 = .ok () := by decide +kernel
  refine ⟨⟨asPath "b.ko",by decide,missingHost_lacks⟩,by decide +kernel,rfl,rfl,?_,by decide +kernel⟩
  unfold triedA
  exact run_ok succeeds

end Rapido.Cut
