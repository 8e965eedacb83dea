import Rapido.Containment

-- No archived name leads above the root, and a destination that would is refused.
namespace Rapido.Cut
open UnixPath Cpio Text KvConf Eff
variable {known : List Component → Prop} {host : Host} {fs : FileSystem} {conf : Map} {dst : Path} {amd : ArchiveMd}

def Refuses (act : Gather α) (s : State) : Prop := ∃ e t, act.run s = (.error e,t) ∧ InvalidInput e

theorem Refuses.bind {next : α → Gather β} (refuses : Refuses act s) : Refuses (act >>= next) s := by
  obtain ⟨e,t,ran,invalid⟩ := refuses
  exact ⟨e,t,bind_run_error ran,invalid⟩

theorem Refuses.after {next : α → Gather β} (ran : act.run s = (.ok value,t)) (refuses : Refuses (next value) t) :
    Refuses (act >>= next) s := by
  obtain ⟨e,u,later,invalid⟩ := refuses
  exact ⟨e,u,by rw [bind_run_ok ran,later],invalid⟩

theorem ofExcept_refuses {next : α → Gather β} (made : outcome = .ok value) (refuses : Refuses (next value) s) :
    Refuses (Eff.ofExcept outcome >>= next) s := by
  subst made
  exact .after rfl refuses

theorem archiveMd_refuses {next : ArchiveMd → Gather β} (refuses : ∀ amd, Refuses (next amd) s) : Refuses (archiveMd md >>= next) s := by
  cases ran : (archiveMd md).run s with
  | mk result t =>
    have same : t = s := by
      unfold archiveMd at ran
      rw [read_bind_run] at ran
      cases made : ArchiveMd.fromMetadata s.archive.state md <;> rw [made] at ran <;> cases ran <;> rfl
    subst same
    cases result with
    | ok amd => exact .after ran (refuses amd)
    | error e => exact .bind ⟨e,t,ran,archiveMd_invalid.error t e t trivial ran⟩

theorem pathSeen_refuses {next : Bool → Gather β} (new : components p ∉ s.pathsSeen) (refuses : Refuses (next false) s) :
    Refuses (pathSeen p >>= next) s := by
  refine .after ?_ refuses
  unfold pathSeen
  rw [read_run,decide_eq_false new]

theorem gatherArchiveDirs_invalid (absolute : isAbsolute dst = true) : FailsOnly InvalidInput (gatherArchiveDirs (parent dst) amd) := by
  refine gatherArchiveDirs_triple (fun p found relative => ?_) (fun _ _ => rfl) fun _ => enterDir_invalid
  rcases parent_absolute absolute with ⟨bare,_⟩ | ⟨q,_,above,rooted,_⟩
  · rw [bare] at found
    cases found
  · rw [above] at found
    cases found
    rw [rooted] at relative
    cases relative

theorem gatherArchiveDirs_refuses (absolute : isAbsolute dst = true) (guarded : Guarded known dst) (contained : Contained known s)
    (climbs : Climbs dst) : Refuses (gatherArchiveDirs (parent dst) amd) s := by
  cases ran : (gatherArchiveDirs (parent dst) amd).run s with
  | mk result t =>
    cases result with
    | ok value => exact absurd climbs ((gatherArchiveDirs_contained guarded).ok s value t contained ran).2
    | error e => exact ⟨e,t,ran,(gatherArchiveDirs_invalid absolute).error s e t trivial ran⟩

-- Where a directive puts what it names. An autorun script always goes below
-- the root.
def Destination (host : Host) (conf : Map) (s : State) (d : Path) : Etype → List Str → Prop
  | .dir,args => manifestNameSubAbsPath host.toFileSystem conf args[0]? = .ok d
  | .slink,args => manifestNameSubAbsPath host.toFileSystem conf args[0]? = .ok d
  | .file,args => manifestNameSubAbsPath host.toFileSystem conf args[0]? = .ok d
  | .tree,args => manifestNameSubAbsPath host.toFileSystem conf args[0]? = .ok d
  | .bin,args => ∃ n got, manifestNameSub conf args[0]? = .ok n ∧ pathStat host.toFileSystem (.name n) = .ok got ∧ got.path = d
  | .tryBin,args => ∃ n got, manifestNameSub conf args[0]? = .ok n ∧ pathStat host.toFileSystem (.nameTry n) = .ok got ∧ got.path = d
  | .kmod,args => KmodDestination args[0]?
  | .tryKmod,args => KmodDestination args[0]?
  | .autorun,_ => False
  | .filter,_ => False
  | .includeManifest,_ => False
where KmodDestination (kmod : Option Str) : Prop :=
  ∃ name gk u m, kmod = some name ∧ (knownKmods host conf).run s = (.ok gk,u) ∧ gk.kmodCtx.find (Utf8.encode name) = some m ∧
    m.status = .loadableModule ∧ join gk.kmodDstRoot m.relPath = d

-- The directive gets as far as the parents of its destination: it is not taken
-- for one that is done, and its source can be read.
def Approached (host : Host) (conf : Map) (s : State) (d : Path) : Etype → List Str → Prop
  | .dir,_ => components d ∉ s.pathsSeen
  | .slink,args => components d ∉ s.pathsSeen ∧ ∃ tgt, manifestNameSub conf args[1]? = .ok tgt
  | .file,args => components d ∉ s.pathsSeen ∧ ∀ location, args[1]? = some location →
      ∃ src got, manifestNameSub conf (some location) = .ok src ∧ host.fileOpen src = .ok got
  | .tree,args => components d ∉ s.pathsSeen ∧ ∃ src md, manifestNameSub conf args[1]? = .ok src ∧ host.symlinkMetadata src = .ok md
  | .bin,_ => components d ∉ s.pathsSeen
  | .tryBin,_ => components d ∉ s.pathsSeen
  | .kmod,args => KmodApproached args[0]?
  | .tryKmod,args => KmodApproached args[0]?
  | .autorun,_ => True
  | .filter,_ => True
  | .includeManifest,_ => True
where KmodApproached (kmod : Option Str) : Prop :=
  ∀ name gk m, kmod = some name → kmodsInUse host conf s = some gk → gk.kmodCtx.find (Utf8.encode name) = some m →
    isAbsolute d = true ∧ ¬kmodKnown host conf (Utf8.encode name) s (components d) ∧
      ∃ md, host.symlinkMetadata (join gk.kmodCtx.moduleRoot m.relPath) = .ok md

theorem archiveNew_refuses (absolute : isAbsolute dst = true) (guarded : Guarded known dst) (contained : Contained known s)
    (climbs : Climbs dst) : Refuses (archiveNew dst amd c) s := .bind (gatherArchiveDirs_refuses absolute guarded contained climbs)

theorem elfGot_refuses (absolute : isAbsolute dst = true) (guarded : Guarded known dst) (contained : Contained known s)
    (climbs : Climbs dst) (new : components dst ∉ s.pathsSeen) : Refuses (elfGot host ent src dst md rest) s :=
  pathSeen_refuses new (archiveMd_refuses fun _ => .bind (gatherArchiveDirs_refuses absolute guarded contained climbs))

theorem elfs_refuse (turns : 0 < fuel) (guarded : ElfsGuarded host s ent) (level : Level s)
    (plain : ∀ n d, ent ≠ .nameDst n d) (based : EntAbsolute ent) (found : pathStat host.toFileSystem ent = .ok got)
    (climbs : Climbs got.path) (new : components got.path ∉ s.pathsSeen) : Refuses (gatherArchiveElfs host fuel [ent]) s := by
  obtain ⟨fuel,rfl⟩ := Nat.exists_eq_succ_of_ne_zero turns.ne'
  have here : Guarded (· ∈ s.pathsSeen) got.path := entDst_plain plain got ▸ guarded ent [] s .refl got found
  have refuses : Refuses (elfVisit host ent []) s := by
    unfold elfVisit
    rw [found]
    dsimp only
    split
    · rename_i n d
      exact absurd rfl (plain n d)
    · exact elfGot_refuses (pathStat_absolute based found) here level.contained climbs new
  exact .bind refuses

theorem tree_refuses (turns : 0 < fuel) (absolute : isAbsolute dst = true) (guarded : Guarded known dst) (contained : Contained known s)
    (climbs : Climbs dst) (new : components dst ∉ s.pathsSeen) (found : fs.symlinkMetadata src = .ok md) :
    Refuses (gatherArchiveData fs fuel [⟨src,dst,0⟩]) s := by
  obtain ⟨fuel,rfl⟩ := Nat.exists_eq_succ_of_ne_zero turns.ne'
  have refuses : Refuses (dataVisit fs ⟨src,dst,0⟩ []) s := by
    unfold dataVisit
    dsimp only
    rw [found]
    refine archiveMd_refuses fun amd => .after (insertPath_new new) ?_
    apply Refuses.bind
    unfold Eff.runIf
    rw [if_pos (by decide)]
    exact gatherArchiveDirs_refuses absolute guarded.noted contained.noted climbs
  exact .bind refuses

theorem archiveKmodPath_refuses (absolute : isAbsolute dst = true) (guarded : Guarded known dst) (contained : Contained known s)
    (climbs : Climbs dst) (found : fs.symlinkMetadata src = .ok md) : Refuses (archiveKmodPath fs src dst) s :=
  ofExcept_refuses found (archiveMd_refuses fun _ => .bind (gatherArchiveDirs_refuses absolute guarded contained climbs))

theorem kmodAndDeps_refuses (found : gk.kmodCtx.find name = some m) (loadable : m.status = .loadableModule)
    (absolute : isAbsolute (join gk.kmodDstRoot m.relPath) = true) (guarded : Guarded known (join gk.kmodDstRoot m.relPath))
    (contained : Contained known s) (climbs : Climbs (join gk.kmodDstRoot m.relPath)) (new : moduleDst gk m.relPath ∉ s.pathsSeen)
    (readable : fs.symlinkMetadata (join gk.kmodCtx.moduleRoot m.relPath) = .ok md) :
    Refuses (gatherArchiveKmodAndDeps fs name gk) s := by
  unfold gatherArchiveKmodAndDeps
  simp only [found,loadable,reduceCtorEq,if_false]
  refine .after (insertPath_new new) ?_
  exact .bind (archiveKmodPath_refuses absolute guarded.noted contained.noted climbs readable)

theorem gatherOneKmod_refuses (refuses : Refuses (gatherArchiveKmodAndDeps fs name gk) s) (ignoreMissing : Bool) :
    Refuses (gatherOneKmod fs gk ignoreMissing name) s := by
  obtain ⟨e,t,ran,invalid⟩ := refuses
  refine ⟨e,t,?_,invalid⟩
  unfold gatherOneKmod
  dsimp only
  rw [ran]
  exact if_neg invalid.notMissing

theorem manifestKmod_refuses (guarded : ∀ name, kmod = some name → KmodGuarded host conf (Utf8.encode name) s) (level : Level s)
    (aim : Destination.KmodDestination host conf s dst kmod) (climbs : Climbs dst)
    (approached : Approached.KmodApproached host conf s dst kmod) (ignoreMissing : Bool) :
    Refuses (manifestKmod host conf ignoreMissing kmod) s := by
  obtain ⟨name,gk,u,m,rfl,ran,found,loadable,rfl⟩ := aim
  have here := guarded name rfl
  have start : Contained (kmodKnown host conf (Utf8.encode name) s) s := ⟨level,fun _ seen _ => .inl seen⟩
  obtain ⟨contained,used⟩ := (knownKmods_contained s fun gk used rel inside =>
    here.files used (List.mem_append_left _ inside)).ok s gk u ⟨start,rfl⟩ ran
  obtain ⟨absolute,unknown,md,readable⟩ := approached name gk m rfl used found
  have own : m.relPath ∈ requestFiles gk (Utf8.encode name) := by
    unfold requestFiles
    rw [found]
    simp only [loadable,reduceCtorEq,if_false]
    exact List.mem_cons_self
  have file := here.files used (List.mem_append_right _ own)
  have new : moduleDst gk m.relPath ∉ u.pathsSeen := fun seen => unknown (contained.seen _ seen climbs)
  have request := gatherOneKmod_refuses (kmodAndDeps_refuses found loadable absolute file.guarded contained climbs new readable) ignoreMissing
  exact .after ran (.bind request)

theorem directive_refuses (turns : 0 < fuel) (guarded : DirectiveGuarded host conf s etype args) (level : Level s)
    (aim : Destination host conf s dst etype args) (climbs : Climbs dst) (approached : Approached host conf s dst etype args) :
    Refuses (directive host conf fuel etype args) s := by
  have contained := level.contained
  cases etype with
  | dir =>
    refine .bind (ofExcept_refuses aim (pathSeen_refuses approached ?_))
    exact archiveNew_refuses (nameSubAbsPath_absolute aim) (guarded dst aim) contained climbs
  | slink =>
    obtain ⟨new,tgt,substituted⟩ := approached
    refine .bind (ofExcept_refuses aim (pathSeen_refuses new (ofExcept_refuses substituted ?_)))
    exact archiveNew_refuses (nameSubAbsPath_absolute aim) (guarded dst aim) contained climbs
  | file =>
    obtain ⟨new,readable⟩ := approached
    refine .bind (ofExcept_refuses aim (pathSeen_refuses new ?_))
    have refuses : ∀ amd c, Refuses (archiveNew dst amd c) s := fun amd c =>
      archiveNew_refuses (nameSubAbsPath_absolute aim) (guarded dst aim) contained climbs
    dsimp only
    cases location : args[1]? with
    | none => exact refuses _ _
    | some name =>
      obtain ⟨src,⟨md,bytes⟩,substituted,opened⟩ := readable name location
      exact ofExcept_refuses substituted (ofExcept_refuses opened (archiveMd_refuses fun amd => refuses _ _))
  | tree =>
    obtain ⟨new,src,md,substituted,found⟩ := approached
    have absolute := nameSubAbsPath_absolute aim
    refine .bind (ofExcept_refuses aim ?_)
    rw [if_neg (by simp [absolute])]
    exact ofExcept_refuses substituted (tree_refuses turns absolute (guarded dst aim) contained climbs new found)
  | bin =>
    obtain ⟨n,got,substituted,found,rfl⟩ := aim
    exact ofExcept_refuses substituted (.bind (elfs_refuse turns (guarded n substituted) level nofun trivial found climbs approached))
  | tryBin =>
    obtain ⟨n,got,substituted,found,rfl⟩ := aim
    exact ofExcept_refuses substituted (.bind (elfs_refuse turns (guarded n substituted) level nofun trivial found climbs approached))
  | kmod => exact .bind (manifestKmod_refuses guarded level aim climbs approached false)
  | tryKmod => exact .bind (manifestKmod_refuses guarded level aim climbs approached true)
  | autorun => exact aim.elim
  | filter => exact aim.elim
  | includeManifest => exact aim.elim

-- The condition on a step, and on the next line of a manifest.
def StepSafe (host : Host) (conf : Map) (step : Step) (s : State) : Prop :=
  ∀ etype args, step = .line etype args → DirectiveGuarded host conf s etype args ∧
    ∀ d, Destination host conf s d etype args → Climbs d → Approached host conf s d etype args

def NextSafe (host : Host) (conf : Map) (fest : Fest) (_ : List Fest) (s : State) : Prop :=
  ∀ line lines step, fest = line :: lines → lineTurn host.toFileSystem conf line = .act step → StepSafe host conf step s

theorem festVisit_level (safe : NextSafe host conf fest rest s) (level : Level s) :
    Triple (fun t => t = s) (festVisit host conf fuel fest rest) (fun _ => Level) fun _ => Level := by
  have turn : Triple (fun t => t = s) (Inclusion.visit (lineTurn host.toFileSystem conf) (handleStep host conf fuel) fest rest)
      (fun _ => Level) fun _ => Level := by
    unfold Inclusion.visit
    split
    · exact .pure fun _ same => same ▸ level
    · rename_i line lines
      split
      · exact .pure fun _ same => same ▸ level
      · rename_i step read
        refine .bind (handleStep_level (fun etype args same => ?_) level) fun _ => .pure fun _ h => h
        exact (safe line lines step rfl read etype args same).1
      · exact .pure fun _ same => same ▸ level
  refine ⟨fun t value u same ran => turn.ok t value u same ?_,fun t e u same ran => turn.error t e u same ?_⟩
  · rw [← ran,festVisit_turn]
  · rw [← ran,festVisit_turn]

theorem festVisit_refuses (turns : 0 < fuel) (safe : NextSafe host conf (line :: lines) rest s) (level : Level s)
    (read : lineTurn host.toFileSystem conf line = .act (.line etype args)) (aim : Destination host conf s dst etype args)
    (climbs : Climbs dst) : Refuses (festVisit host conf fuel (line :: lines) rest) s := by
  obtain ⟨guarded,approached⟩ := safe line lines _ rfl read etype args rfl
  have refuses : Refuses (handleStep host conf fuel (.line etype args)) s :=
    .bind (directive_refuses turns guarded level aim climbs (approached dst aim climbs))
  have turn : Refuses (Inclusion.visit (lineTurn host.toFileSystem conf) (handleStep host conf fuel) (line :: lines) rest) s := by
    unfold Inclusion.visit
    dsimp only
    rw [read]
    exact .bind refuses
  obtain ⟨e,t,ran,invalid⟩ := turn
  exact ⟨e,t,by rw [festVisit_turn,ran],invalid⟩

-- In every run, finished or not, whose directives meet the condition.
theorem below_root (start : Level s) (turns : 0 < fuel)
    (safe : Worklist.Meets (festVisit host conf fuel) (NextSafe host conf) fests.reverse {s with autorunIdx:=0}) :
    (∀ c ∈ ((manifestParse host conf fuel fests).run s).2.archived, ¬Climbs c.target) ∧
    ∀ line lines rest t etype args d,
      Worklist.Runs (festVisit host conf fuel) fests.reverse {s with autorunIdx:=0} ((line :: lines) :: rest) t →
      lineTurn host.toFileSystem conf line = .act (.line etype args) → Destination host conf t d etype args → Climbs d →
      ∃ e u, (festVisit host conf fuel (line :: lines) rest).run t = (.error e,u) ∧ e.kind = .invalidInput := by
  have level : Level {s with autorunIdx:=0} := start
  have each : ∀ fest rest u, Level u → NextSafe host conf fest rest u →
      Triple (fun t => t = u) (festVisit host conf fuel fest rest) (fun _ => Level) fun _ => Level :=
    fun _ _ _ before next => festVisit_level next before
  constructor
  · have loop : Triple (fun t => Level t ∧ Worklist.Meets (festVisit host conf fuel) (NextSafe host conf) fests.reverse t)
        (Worklist.loop spent (festVisit host conf fuel) fuel fests.reverse) (fun _ => Level) fun _ => Level := by
      exact Worklist.loop_meeting (fun _ => Level) (fun _ _ before => before) each fuel fests.reverse
    cases ran : (manifestParse host conf fuel fests).run s with
    | mk result t =>
      rw [manifestParse,update_bind_run] at ran
      cases result with
      | ok value => exact loop.ok _ value t ⟨level,safe⟩ ran
      | error e => exact loop.error _ e t ⟨level,safe⟩ ran
  · intro line lines rest t etype args d reached read aim climbs
    have keeps : ∀ fest rest u items v, Level u → NextSafe host conf fest rest u →
        (festVisit host conf fuel fest rest).run u = (.ok items,v) → Level v :=
      fun fest rest u items v before next ran => (each fest rest u before next).ok u items v rfl ran
    have here : Level t := reached.invariant_meeting (fun _ => Level) keeps safe level
    exact festVisit_refuses turns (safe _ rest t reached) here read aim climbs

-- "/x/../a/b" stays below the root, "/a/../../below" is refused.
def climbFest : Fest := [Utf8.encode "dir /x/../a/b\n".toList,Utf8.encode "file /a/../../below\n".toList]
@[irreducible] def firstLine : Except IoError (List Fest) × State := (festVisit bareHost noConf 3 climbFest []).run emptyState
@[irreducible] def climbRun : Except IoError Unit × State := (manifestParse bareHost noConf 3 [climbFest]).run emptyState

theorem firstLine_ok : (festVisit bareHost noConf 3 climbFest []).run emptyState = (.ok [climbFest.drop 1],firstLine.2) := by
  have succeeds : ((festVisit bareHost noConf 3 climbFest []).run emptyState).1 = .ok [climbFest.drop 1] := by decide +kernel
  unfold firstLine
  exact run_ok succeeds

theorem climbFest_safe : Worklist.Meets (festVisit bareHost noConf 3) (NextSafe bareHost noConf) [climbFest] emptyState := by
  refine Worklist.meets_cons ?_ fun items t ran => ?_
  · intro line lines step same read etype args directed
    have turn : lineTurn bareHost.toFileSystem noConf (Utf8.encode "dir /x/../a/b\n".toList) = .act (.line .dir ["/x/../a/b".toList]) := by
      decide +kernel
    have made : manifestNameSubAbsPath bareHost.toFileSystem noConf (some "/x/../a/b".toList) = .ok (asPath "/x/../a/b") := by decide +kernel
    cases same
    rw [turn] at read
    cases read
    cases directed
    refine ⟨fun p again => ?_,fun d again climbs => ?_⟩
    · cases made.symm.trans again
      exact ⟨not_popsRoot (by decide +kernel),nofun⟩
    · cases made.symm.trans again
      exact absurd climbs (by decide +kernel)
  · rw [firstLine_ok] at ran
    cases ran
    refine Worklist.meets_cons ?_ fun items t ran => ?_
    · intro line lines step same read etype args directed
      have turn : lineTurn bareHost.toFileSystem noConf (Utf8.encode "file /a/../../below\n".toList) =
          .act (.line .file ["/a/../../below".toList]) := by decide +kernel
      have made : manifestNameSubAbsPath bareHost.toFileSystem noConf (some "/a/../../below".toList) = .ok (asPath "/a/../../below") := by
        decide +kernel
      have above : parent (asPath "/a/../../below") = some (asPath "/a/../..") := by decide +kernel
      cases same
      rw [turn] at read
      cases read
      cases directed
      refine ⟨fun p again => ?_,fun d again climbs => ?_⟩
      · cases made.symm.trans again
        refine ⟨not_popsRoot (by decide +kernel),fun q found _ _ => ?_⟩
        cases above.symm.trans found
        decide +kernel
      · cases made.symm.trans again
        exact ⟨by decide +kernel,nofun⟩
    · have fails : ((festVisit bareHost noConf 3 (climbFest.drop 1) []).run firstLine.2).1 = .error (.ofKind .invalidInput) := by
        decide +kernel
      rw [ran] at fails
      cases fails

theorem below_root_sample : (∀ c ∈ climbRun.2.archived, ¬Climbs c.target) ∧
    climbRun.2.archived.map Call.target = [asPath "/x",asPath "/a",asPath "/x/../a/b"] ∧
    ∃ e u, (festVisit bareHost noConf 3 [Utf8.encode "file /a/../../below\n".toList] []).run firstLine.2 = (.error e,u) ∧
      e.kind = .invalidInput := by
  have start : Level emptyState := nofun
  have turns : 0 < 3 := by decide
  have safe : Worklist.Meets (festVisit bareHost noConf 3) (NextSafe bareHost noConf) [climbFest].reverse {emptyState with autorunIdx:=0} :=
    climbFest_safe
  obtain ⟨level,refused⟩ := below_root start turns safe
  have reached : Worklist.Runs (festVisit bareHost noConf 3) [climbFest] emptyState [climbFest.drop 1] firstLine.2 := .step firstLine_ok .refl
  have made : manifestNameSubAbsPath bareHost.toFileSystem noConf (some "/a/../../below".toList) = .ok (asPath "/a/../../below") := by
    decide +kernel
  have read : lineTurn bareHost.toFileSystem noConf (Utf8.encode "file /a/../../below\n".toList) =
      .act (.line .file ["/a/../../below".toList]) := by decide +kernel
  refine ⟨?_,by decide +kernel,refused _ [] [] firstLine.2 .file _ (asPath "/a/../../below") reached read made (by decide +kernel)⟩
  unfold climbRun
  exact level

-- The walk is over the parents only: ".." as the last component is archived.
def aboveFest : Fest := [Utf8.encode "dir /..\n".toList]
@[irreducible] def aboveRun : Except IoError Unit × State := (manifestParse bareHost noConf 3 [aboveFest]).run emptyState

theorem above_root : (manifestParse bareHost noConf 3 [aboveFest]).run emptyState = (.ok (),aboveRun.2) ∧
    aboveRun.2.archived.map Call.target = [asPath "/.."] ∧ Climbs (asPath "/..") := by
  have succeeds : ((manifestParse bareHost noConf 3 [aboveFest]).run emptyState).1 = .ok () := by decide +kernel
  refine ⟨?_,by decide +kernel,by decide +kernel⟩
  unfold aboveRun
  exact run_ok succeeds

end Rapido.Cut
