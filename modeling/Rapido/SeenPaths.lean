import Rapido.AutorunOrder

-- paths_seen and the archive as two sides of a ledger: a path is entered on
-- one side and then on the other, whichever comes first.
namespace Rapido.Cut
open UnixPath Cpio Text KvConf Eff

-- `promised` paths are in paths_seen and still to be archived, `owed` paths are
-- archived and still to be inserted.
structure Ledger (inv : State → Prop) (promised owed : List Component → State → Prop) : Prop where
  promise : ∀ s cs, inv s → cs ∉ s.pathsSeen → promised cs {s with pathsSeen:=cs :: s.pathsSeen}
  keep : ∀ s (c : Call) a, promised (components c.target) s → inv {s with archive:=a,archived:=s.archived ++ [c]}
  between : ∀ s (c : Call) a cs, promised cs s → components c.target ∉ s.pathsSeen →
    promised cs {s with archive:=a,archived:=s.archived ++ [c],pathsSeen:=components c.target :: s.pathsSeen}
  owe : ∀ s (c : Call) a, inv s → components c.target ∉ s.pathsSeen →
    owed (components c.target) {s with archive:=a,archived:=s.archived ++ [c]}
  pay : ∀ s cs, owed cs s → cs ∉ s.pathsSeen → inv {s with pathsSeen:=cs :: s.pathsSeen}
  paid : ∀ s cs, owed cs s → cs ∈ s.pathsSeen → inv s
  needed : ∀ s names, inv s → inv {s with libsSeen:=names}

section ledger
variable {inv : State → Prop} {promised owed : List Component → State → Prop} {host : Host} {fs : FileSystem} {conf : Map}
  {dst : Path} {amd : ArchiveMd}

-- dst has not been entered yet.
def Absent (inv : State → Prop) (dst : Path) (s : State) : Prop := inv s ∧ components dst ∉ s.pathsSeen

theorem archive_promised (ledger : Ledger inv promised owed) (aim : c.target = dst) :
    Ensures (promised (components dst)) (archive c) fun _ => inv := by
  subst aim
  exact archive_triple (fun s a before _ => ledger.keep s c a before) fun _ _ _ _ _ => trivial

theorem archive_absent (ledger : Ledger inv promised owed) (aim : c.target = dst) :
    Ensures (Absent inv dst) (archive c) fun _ => owed (components dst) := by
  subst aim
  exact archive_triple (fun s a before _ => ledger.owe s c a before.1 before.2) fun _ _ _ _ _ => trivial

theorem insert_paid (ledger : Ledger inv promised owed) : Ensures (owed (components dst)) (insertPath dst) fun _ => inv :=
  insertPath_triple (fun s due new => ledger.pay s _ due new) fun s due old => ledger.paid s _ due old

theorem rootDir_absolute (relative : ¬isAbsolute dst = true) : .rootDir ∉ components dst := by
  intro member
  unfold components at member
  rw [if_neg relative] at member
  rcases List.mem_append.mp member with front | inside
  · split at front
    · cases List.mem_singleton.mp front
    · cases front
  · obtain ⟨segment,_,parsed⟩ := List.mem_filterMap.mp inside
    unfold parseSingle at parsed
    split_ifs at parsed
    all_goals cases parsed

-- No directory on the way to a path is that path.
theorem dirsAbove_apart (inside : cs ∈ dirsAbove dst) : cs ≠ components dst := by
  unfold dirsAbove at inside
  split at inside
  · cases inside
  · rename_i q found
    obtain ⟨names,walked,rfl⟩ := List.mem_map.mp inside
    intro same
    by_cases absolute : isAbsolute dst = true
    · rcases parent_absolute absolute with ⟨none,_⟩ | ⟨r,last,above,rooted,appended⟩
      · rw [found] at none
        cases none
      · rw [found] at above
        cases above
        have short := walkDirs_shorter rooted walked
        rw [same,components_absolute absolute,components_absolute rooted,appended] at short
        simp at short
    · exact rootDir_absolute absolute (same ▸ List.mem_cons_self)

theorem gatherArchiveDirs_promised (ledger : Ledger inv promised owed) :
    Ensures (promised (components dst)) (gatherArchiveDirs (parent dst) amd) fun _ => promised (components dst) :=
  gatherArchiveDirs_enters fun s dir amd a before _ new => ledger.between s (.path dir amd) a _ before new

theorem gatherArchiveDirs_absent (ledger : Ledger inv promised owed) :
    Ensures (Absent inv dst) (gatherArchiveDirs (parent dst) amd) fun _ => Absent inv dst := by
  refine gatherArchiveDirs_enters fun s dir amd a before above new =>
    ⟨ledger.keep _ (.path dir amd) a (ledger.promise s _ before.1 new),fun either => ?_⟩
  rcases List.mem_cons.mp either with same | old
  · exact dirsAbove_apart above same.symm
  · exact before.2 old

theorem archiveNew_enters (ledger : Ledger inv promised owed) (aim : c.target = dst) :
    Ensures (Absent inv dst) (archiveNew dst amd c) fun _ => inv := by
  refine .bind (gatherArchiveDirs_absent ledger) fun _ => .bind (archive_absent ledger aim) fun _ => ?_
  exact .bind (insert_paid ledger) fun _ => .pure fun _ h => h

-- gather_archive_data
theorem dataItem_enters (ledger : Ledger inv promised owed) {item : GatherItem} :
    Ensures (promised (components item.dst)) (dataItem fs item amd rest) fun _ => inv :=
  dataItem_triple (fun _ aim => archive_promised ledger aim) (fun _ _ _ _ => trivial) (fun _ _ _ _ => trivial)
    (fun _ _ _ after => after) fun _ _ after => after

theorem dataVisit_enters (ledger : Ledger inv promised owed) (item : GatherItem) (rest : List GatherItem) :
    Ensures inv (dataVisit fs item rest) fun _ => inv := by
  refine dataVisit_triple (fun _ _ _ _ => trivial) (fun _ _ _ _ _ => trivial) (fun _ before _ => before) (fun amd _ => ?_)
    (fun _ s before new => ledger.promise s _ before new) fun _ _ _ _ => dataItem_enters ledger
  refine (gatherArchiveDirs_promised ledger).weaken ?_ fun _ _ h => h
  rintro _ ⟨s,before,new,rfl⟩
  exact ledger.promise s _ before new

-- gather_archive_elfs
theorem entry_steps (ledger : Ledger inv promised owed) :
    EntrySteps dst (Absent inv dst) (owed (components dst)) inv fun _ _ => True where
  unresolved := fun _ before => before.1
  failed := fun _ _ _ => trivial
  stopped := fun _ _ _ => trivial
  needed := fun s names before => ⟨ledger.needed s names before.1,before.2⟩
  archived := fun _ aim => archive_absent ledger aim
  inserted := insert_paid ledger

theorem elfGot_enters (ledger : Ledger inv promised owed) :
    Ensures inv (elfGot host ent src dst md rest) fun _ => inv := by
  refine EntrySteps.got (fun _ : True => entry_steps ledger) (fun _ before _ => before) (fun _ _ _ _ => trivial) fun amd => ?_
  exact (gatherArchiveDirs_absent ledger).weaken (fun _ h => h) fun _ _ absent => ⟨absent,trivial⟩

theorem elfVisit_enters (ledger : Ledger inv promised owed) (ent : GatherEnt) (rest : List GatherEnt) :
    Ensures inv (elfVisit host ent rest) fun _ => inv :=
  elfVisit_triple (fun _ _ _ _ _ before => before) (fun _ _ _ _ => trivial) (fun _ _ => trivial)
    fun _ _ _ _ => elfGot_enters ledger

theorem gatherArchiveElfs_enters (ledger : Ledger inv promised owed) :
    Ensures inv (gatherArchiveElfs host fuel elfs) fun _ => inv :=
  Worklist.loop_triple (fun _ => inv) (fun _ _ _ => trivial) (elfVisit_enters ledger) fuel elfs.reverse

-- The directives
theorem directive_enters (ledger : Ledger inv promised owed) (gathers : etype.gathersFiles = true) :
    Ensures inv (directive host conf fuel etype args) fun _ => inv := by
  cases etype with
  | dir =>
    refine .bind (Ensures.ofExcept_bind fun p _ => pathSeen_bind (.pure fun s before => before.1) ?_) fun _ => .pure fun _ h => h
    exact archiveNew_enters ledger rfl
  | slink =>
    refine .bind (Ensures.ofExcept_bind fun p _ => pathSeen_bind (.pure fun s before => before.1) ?_) fun _ => .pure fun _ h => h
    exact Ensures.ofExcept_bind fun tgt _ => archiveNew_enters ledger rfl
  | includeManifest =>
    refine .bind ?_ fun _ => .pure fun _ h => h
    exact Ensures.ofExcept_bind fun _ _ => Ensures.ofExcept_bind fun _ _ => Ensures.ofExcept_bind fun ⟨_,_⟩ _ => .pure fun _ h => h
  | file =>
    refine .bind (Ensures.ofExcept_bind fun p _ => pathSeen_bind (.pure fun s before => before.1) ?_) fun _ => .pure fun _ h => h
    change Ensures (Absent inv p) _ _
    cases args[1]? with
    | some location =>
      refine Ensures.ofExcept_bind fun src _ => Ensures.ofExcept_bind fun ⟨md,bytes⟩ _ => ?_
      exact .bind archiveMd_same fun amd => archiveNew_enters ledger rfl
    | none => exact archiveNew_enters ledger rfl
  | bin => exact Ensures.ofExcept_bind fun n _ => .bind (gatherArchiveElfs_enters ledger) fun _ => .pure fun _ h => h
  | tryBin => exact Ensures.ofExcept_bind fun n _ => .bind (gatherArchiveElfs_enters ledger) fun _ => .pure fun _ h => h
  | tree =>
    refine .bind (Ensures.ofExcept_bind fun dst _ => ?_) fun _ => .pure fun _ h => h
    split
    · exact .fail fun _ _ => trivial
    · refine Ensures.ofExcept_bind fun src _ => ?_
      exact Worklist.loop_triple (fun _ => inv) (fun _ _ _ => trivial) (dataVisit_enters ledger) fuel _
  | kmod => cases gathers
  | tryKmod => cases gathers
  | autorun => cases gathers
  | filter => cases gathers

end ledger

-- Everything archived is in paths_seen, and nothing is archived twice.
def Once (s : State) : Prop := (∀ cs ∈ archivedPaths s.archived, cs ∈ s.pathsSeen) ∧ (archivedPaths s.archived).Nodup

theorem once_ledger : Ledger Once (fun cs s => Once s ∧ cs ∈ s.pathsSeen ∧ cs ∉ archivedPaths s.archived)
    fun cs s => (∀ ds ∈ archivedPaths s.archived, ds ∈ s.pathsSeen ∨ ds = cs) ∧ (archivedPaths s.archived).Nodup where
  promise := fun s cs once new =>
    ⟨⟨fun ds inside => List.mem_cons_of_mem _ (once.1 ds inside),once.2⟩,List.mem_cons_self,fun old => new (once.1 cs old)⟩
  keep := by
    rintro s c a ⟨once,seen,fresh⟩
    refine ⟨fun ds inside => ?_,once_concat once.2 fresh⟩
    rw [archivedPaths_concat] at inside
    rcases List.mem_append.mp inside with old | new
    · exact once.1 ds old
    · exact List.mem_singleton.mp new ▸ seen
  between := by
    rintro s c a cs ⟨once,seen,fresh⟩ new
    have unarchived : components c.target ∉ archivedPaths s.archived := fun old => new (once.1 _ old)
    refine ⟨⟨fun ds inside => ?_,once_concat once.2 unarchived⟩,List.mem_cons_of_mem _ seen,fun inside => ?_⟩
    · rw [archivedPaths_concat] at inside
      rcases List.mem_append.mp inside with old | last
      · exact List.mem_cons_of_mem _ (once.1 ds old)
      · exact List.mem_singleton.mp last ▸ List.mem_cons_self
    · rw [archivedPaths_concat] at inside
      rcases List.mem_append.mp inside with old | last
      · exact fresh old
      · exact new (List.mem_singleton.mp last ▸ seen)
  owe := by
    intro s c a once new
    refine ⟨fun ds inside => ?_,once_concat once.2 fun old => new (once.1 _ old)⟩
    rw [archivedPaths_concat] at inside
    rcases List.mem_append.mp inside with old | last
    · exact .inl (once.1 ds old)
    · exact .inr (List.mem_singleton.mp last)
  pay := by
    rintro s cs ⟨inside,nodup⟩ _
    refine ⟨fun ds member => ?_,nodup⟩
    rcases inside ds member with old | rfl
    · exact List.mem_cons_of_mem _ old
    · exact List.mem_cons_self
  paid := by
    rintro s cs ⟨inside,nodup⟩ seen
    refine ⟨fun ds member => ?_,nodup⟩
    rcases inside ds member with old | rfl
    · exact old
    · exact seen
  needed := fun _ _ once => once

-- How many more entries there are than paths in paths_seen.
def Balance (surplus : Int) (s : State) : Prop := (s.pathsSeen.length : Int) + surplus ≤ s.archived.length

theorem balance_ledger (surplus : Int) :
    Ledger (Balance surplus) (fun _ => Balance (surplus - 1)) fun _ => Balance (surplus + 1) where
  promise := fun s cs before _ => by simp [Balance] at before ⊢; omega
  keep := fun s c a before => by simp [Balance] at before ⊢; omega
  between := fun s c a cs before _ => by simp [Balance] at before ⊢; omega
  owe := fun s c a before _ => by simp [Balance] at before ⊢; omega
  pay := fun s cs before _ => by simp [Balance] at before ⊢; omega
  paid := fun s cs before _ => by simp [Balance] at before ⊢; omega
  needed := fun _ _ before => before

-- Each location gives an entry that is never inserted.
theorem manifestAutorun_balance : Ensures (Balance surplus) (manifestAutorun fs conf name) fun _ => Balance (surplus + 1) := by
  have entry : ∀ {surplus : Int} {c : Call}, Ensures (Balance surplus) (archive c) fun _ => Balance (surplus + 1) :=
    archive_triple (fun s a before _ => by simp [Balance] at before ⊢; omega) fun _ _ _ _ _ => trivial
  have parent : Ensures (Balance surplus) autorunParent fun _ => Balance surplus := by
    refine .bind entry fun _ => .bind ?_ fun _ => .pure fun _ h => h
    refine insertPath_triple (fun s before _ => ?_) fun s before _ => ?_
    · simp [Balance] at before ⊢
      omega
    · simp [Balance] at before ⊢
      omega
  refine Ensures.ofExcept_bind fun src _ => .bind readIdx_keeps fun idx => Ensures.ofExcept_bind fun dst _ => ?_
  have first : Ensures (Balance surplus) (Eff.runIf (idx = 0) autorunParent) fun _ => Balance surplus :=
    .runIf (fun _ => parent) fun _ _ before => before
  refine .bind first fun _ => Ensures.ofExcept_bind fun ⟨md,bytes⟩ _ => ?_
  refine .bind archiveMd_same fun amd => ?_
  exact .bind entry fun _ => .update fun _ h => h

theorem locations_balance (locations : List Str) (surplus : Int) :
    Ensures (Balance surplus) (Eff.forEach (fun location => manifestAutorun fs conf (some location)) locations)
      fun _ => Balance (surplus + locations.length) := by
  induction locations generalizing surplus with
  | nil => exact .pure fun s before => by simpa using before
  | cons location rest ih =>
    refine .bind manifestAutorun_balance fun _ => (ih (surplus + 1)).weaken (fun _ h => h) fun _ s after => ?_
    rw [List.length_cons]
    simp [Balance] at after ⊢
    omega

-- dir, slink, file, tree, bin, try-bin, include and autorun
def Step.mixes : Step → Bool
  | .line etype _ => etype.gathersFiles || etype = .autorun
  | .refused _ => true

theorem handleStep_balance (step : Step) (surplus : Int) (mixes : step.mixes = true) :
    Ensures (Balance surplus) (handleStep host conf fuel step) fun _ => Balance (surplus + step.locations.length) := by
  refine handleStep_located (locations_balance step.locations surplus) fun etype args same other => ?_
  have gathers : etype.gathersFiles = true := by simpa [same,Step.mixes,other] using mixes
  exact directive_enters (balance_ledger surplus) gathers

theorem steps_balance (steps : List Step) (surplus : Int) (mixes : ∀ step ∈ steps, step.mixes = true) :
    Ensures (Balance surplus) (Eff.forEach (handleStep host conf fuel) steps)
      fun _ => Balance (surplus + (steps.flatMap Step.locations).length) := by
  induction steps generalizing surplus with
  | nil => exact .pure fun s before => by simpa using before
  | cons step rest ih =>
    refine .bind (handleStep_balance step surplus (mixes step List.mem_cons_self)) fun _ => ?_
    refine (ih _ fun other inside => mixes other (List.mem_cons_of_mem _ inside)).weaken (fun _ h => h) fun _ s after => ?_
    rw [List.flatMap_cons,List.length_append]
    simp [Balance] at after ⊢
    omega

-- autorun without a location is refused.
theorem handleStep_locations (ran : (handleStep host conf fuel (.line .autorun args)).run s = (.ok (),t)) : args ≠ [] := by
  rintro rfl
  obtain ⟨_,u,directed,_⟩ := bind_ok.mp ran
  obtain ⟨_,v,autoruns,_⟩ := bind_ok.mp directed
  unfold manifestAutoruns at autoruns
  rw [read_bind_run,bind_run_ok rfl,read_bind_run] at autoruns
  unfold Eff.runIf at autoruns
  rw [if_pos rfl] at autoruns
  cases autoruns

theorem steps_locations (ran : (Eff.forEach (handleStep host conf fuel) steps).run s = (.ok (),t)) (inside : .line .autorun args ∈ steps) :
    steps.flatMap Step.locations ≠ [] := by
  induction steps generalizing s with
  | nil => cases inside
  | cons step rest ih =>
    obtain ⟨_,u,first,later⟩ := bind_ok.mp ran
    rw [List.flatMap_cons]
    rcases List.mem_cons.mp inside with rfl | other
    · exact List.append_ne_nil_of_left_ne_nil (handleStep_locations first) _
    · exact List.append_ne_nil_of_right_ne_nil _ (ih later other)

theorem autorun_unseen (unwritten : s.archived = []) (unseen : s.pathsSeen = [])
    (ran : (manifestParse host conf fuel fests).run s = (.ok (),t)) :
    ∃ outs, List.Forall₂ (Inclusion.Expands (lineTurn host.toFileSystem conf)) fests.reverse outs ∧
      ((∀ step ∈ outs.flatten, step.mixes = true) →
        ((∀ cs ∈ archivedPaths t.archived, cs ∈ t.pathsSeen) ∧ (archivedPaths t.archived).Nodup ↔
          ∀ args, .line .autorun args ∉ outs.flatten)) := by
  obtain ⟨outs,expands,handled⟩ := manifestParse_expands ran
  refine ⟨outs,expands,fun mixes => ⟨?_,?_⟩⟩
  · rintro ⟨inside,nodup⟩ args autorun
    have start : Balance 0 {s with autorunIdx:=0} := by simp [Balance,unwritten,unseen]
    have surplus := (steps_balance outs.flatten 0 mixes).ok _ () t start handled
    have some_location := List.length_pos_iff.mpr (steps_locations handled autorun)
    have fewer := nodup.length_le_of_subset inside
    rw [archivedPaths,List.length_map] at fewer
    simp only [Balance] at surplus
    omega
  · intro none
    have start : Once {s with autorunIdx:=0} := by simp [Once,unwritten,unseen,archivedPaths]
    refine (Triple.forEach fun step inside => ?_ : Ensures Once _ _).ok _ () t start handled
    cases step with
    | refused e => exact .fail fun _ _ => trivial
    | line etype args =>
      have other : etype ≠ .autorun := by
        rintro rfl
        exact none args inside
      have gathers : etype.gathersFiles = true := by simpa [Step.mixes,other] using mixes _ inside
      exact handleStep_line (directive_enters once_ledger gathers)

-- "dir /rapido_autorun" and then "autorun /a": the directory is archived twice
-- and the script is not in paths_seen.
def twiceFest : Fest := [Utf8.encode "dir /rapido_autorun\n".toList,Utf8.encode "autorun /a\n".toList]
@[irreducible] def twiceRun : Except IoError Unit × State := (manifestParse scriptHost (fun _ => none) 3 [twiceFest]).run emptyState

theorem autorun_twice : (manifestParse scriptHost (fun _ => none) 3 [twiceFest]).run emptyState = (.ok (),twiceRun.2) ∧
    twiceRun.2.archived.map Call.target =
      ["/rapido_autorun","/rapido_autorun","/rapido_autorun/000-a"].map (fun p => Utf8.encode p.toList) ∧
    ¬(archivedPaths twiceRun.2.archived).Nodup ∧ ¬∀ cs ∈ archivedPaths twiceRun.2.archived, cs ∈ twiceRun.2.pathsSeen := by
  have succeeds : ((manifestParse scriptHost (fun _ => none) 3 [twiceFest]).run emptyState).1 = .ok () := by decide +kernel
  refine ⟨?_,by decide +kernel,by decide +kernel,by decide +kernel⟩
  unfold twiceRun
  exact run_ok succeeds

-- The same directory and a file in it without autorun.
def onceFest : Fest := [Utf8.encode "dir /rapido_autorun\n".toList,Utf8.encode "file /rapido_autorun/000-a /a\n".toList]
@[irreducible] def onceRun : Except IoError Unit × State := (manifestParse scriptHost (fun _ => none) 3 [onceFest]).run emptyState
def onceSteps : List Step := [.line .dir ["/rapido_autorun".toList],.line .file ["/rapido_autorun/000-a".toList,"/a".toList]]

theorem autorun_unseen_file : (∀ cs ∈ archivedPaths onceRun.2.archived, cs ∈ onceRun.2.pathsSeen) ∧
    (archivedPaths onceRun.2.archived).Nodup ∧ onceRun.2.archived.length = 2 := by
  have succeeds : ((manifestParse scriptHost (fun _ => none) 3 [onceFest]).run emptyState).1 = .ok () := by decide +kernel
  have ran : (manifestParse scriptHost (fun _ => none) 3 [onceFest]).run emptyState = (.ok (),onceRun.2) := by
    unfold onceRun
    exact run_ok succeeds
  obtain ⟨outs,expands,exactly⟩ := autorun_unseen rfl rfl ran
  have expanded : Inclusion.Expands (lineTurn scriptHost.toFileSystem fun _ => none) onceFest onceSteps :=
    .act (by decide +kernel) (.act (by decide +kernel) .nil)
  have only := expanded.only expands
  subst only
  have kept := (exactly (by decide)).mpr (by simp [onceSteps])
  exact ⟨kept.1,kept.2,by decide +kernel⟩

end Rapido.Cut
