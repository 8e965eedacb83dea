import Rapido.ElfClosure

-- Nothing that was ever on the worklist of gather_archive_elfs is lost.
namespace Rapido.Cut
open UnixPath Cpio Eff

-- The entry has come to paths_seen, or it is one of those that are left out.
def EntDone (fs : FileSystem) (t : State) (ent : GatherEnt) : Prop :=
  (∃ n e, ent = .nameTry n ∧ pathStat fs ent = .error e) ∨
    ∃ got, pathStat fs ent = .ok got ∧ (components (destination ent got) ∈ t.pathsSeen ∨
      (got.md.mode &&& S_IFMT = S_IFLNK ∧ ∃ e, fs.canonicalize (destination ent got) = .error e))

theorem EntDone.grows (done : EntDone fs s ent) (grown : Grows s t) : EntDone fs t ent := by
  rcases done with skipped | ⟨got,found,seen | unresolved⟩
  · exact .inl skipped
  · exact .inr ⟨got,found,.inl (grown.seen _ seen)⟩
  · exact .inr ⟨got,found,.inr unresolved⟩

theorem insertPath_done : Ensures pre (insertPath p) fun _ s => components p ∈ s.pathsSeen :=
  insertPath_triple (fun _ _ _ => List.mem_cons_self) fun _ _ seen => seen

theorem elfGot_done : Ensures pre (elfGot host ent src dst md rest) fun _ t =>
    components dst ∈ t.pathsSeen ∨ (md.mode &&& S_IFMT = S_IFLNK ∧ ∃ e, host.canonicalize dst = .error e) := by
  refine elfGot_triple (fun _ _ seen => .inl seen) (fun _ _ _ _ => trivial) (fun _ => Ensures.any) (fun _ _ => trivial)
    (fun amd link => ?_) (fun amd _ => ?_) (fun amd _ => ?_) fun amd _ => ?_
  · unfold elfSymlink
    split
    · rename_i e failed
      exact .pure fun _ _ => .inr ⟨link,e,failed⟩
    · refine .bind Ensures.any fun _ => ?_
      split
      · exact .bind insertPath_done fun _ => .pure fun _ seen => .inl seen
      · exact .fail fun _ _ => trivial
  · exact .bind Ensures.any fun ⟨_,bytes⟩ => .bind Ensures.any fun deps => .bind Ensures.any fun _ =>
      .bind insertPath_done fun _ => .pure fun _ seen => .inl seen
  · exact .bind Ensures.any fun _ => .bind Ensures.any fun names => .bind insertPath_done fun _ => .pure fun _ seen => .inl seen
  · exact .bind Ensures.any fun _ => .bind insertPath_done fun _ => .pure fun _ seen => .inl seen

theorem elfVisit_done : Ensures pre (elfVisit host ent rest) fun _ t => EntDone host.toFileSystem t ent := by
  refine elfVisit_triple (fun n e _ optional failed _ => .inl ⟨n,e,optional,failed⟩) (fun _ _ _ _ => trivial) (fun _ _ => trivial) ?_
  intro got dst found lands
  refine elfGot_done.weaken (fun _ h => h) fun _ _ done => .inr ⟨got,found,?_⟩
  rw [← lands.destination]
  exact done

theorem elfRuns_grow (runs : Worklist.Runs (elfVisit host) items s rest t) : Grows s t :=
  runs.invariant (fun _ => Grows s) (fun _ _ _ _ _ grown ran => (elfVisit_keeps (grows_stable s).steady).ok _ _ _ grown ran) (.refl s)

-- Whatever is on the stack has its turn, since a turn takes only its own entry off.
theorem elfRuns_done (runs : Worklist.Runs (elfVisit host) items s [] t) : ∀ ent ∈ items, EntDone host.toFileSystem t ent := by
  generalize empty : ([] : List GatherEnt) = last at runs
  induction runs with
  | refl =>
    subst empty
    exact nofun
  | @step item rest items last s u t visited more ih =>
    intro ent inside
    rcases List.mem_cons.mp inside with rfl | other
    · have here : Ensures (fun _ => True) (elfVisit host ent rest) fun _ t => EntDone host.toFileSystem t ent := elfVisit_done
      exact (here.ok s items u trivial visited).grows (elfRuns_grow more)
    · have kept : Ensures (fun _ => True) (elfVisit host item rest) fun items _ => ∀ e ∈ rest, e ∈ items := elfVisit_kept
      exact ih empty ent (kept.ok s items u trivial visited ent other)

-- What has been archived since some state, none of it a symlink.
def Linkless (start s : State) : Prop := ∃ calls, s.archived = start.archived ++ calls ∧ ∀ dst amd tgt, .symlink dst amd tgt ∉ calls

-- Or with each symlink's target on the stack.
def Followed (fs : FileSystem) (start : State) (items : List GatherEnt) (t : State) : Prop :=
  ∃ calls, t.archived = start.archived ++ calls ∧ ∀ dst amd tgt, .symlink dst amd tgt ∈ calls →
    fs.canonicalize dst = .ok tgt ∧ ∃ ent ∈ items, ent = .lib tgt ∨ ent = .name tgt

theorem Linkless.followed (linkless : Linkless start t) : Followed fs start items t := by
  obtain ⟨calls,logged,none⟩ := linkless
  exact ⟨calls,logged,fun dst amd tgt inside => absurd inside (none dst amd tgt)⟩

theorem Linkless.add (linkless : Linkless start s) (other : ∀ dst amd tgt, c ≠ .symlink dst amd tgt) :
    ∃ calls, s.archived ++ [c] = start.archived ++ calls ∧ ∀ dst amd tgt, .symlink dst amd tgt ∉ calls := by
  obtain ⟨calls,logged,none⟩ := linkless
  refine ⟨calls ++ [c],by rw [logged,List.append_assoc],fun dst amd tgt inside => ?_⟩
  rcases List.mem_append.mp inside with old | new
  · exact none dst amd tgt old
  · exact other dst amd tgt (List.mem_singleton.mp new).symm

theorem archive_linkless (other : ∀ dst amd tgt, c ≠ .symlink dst amd tgt) :
    Ensures (Linkless start) (archive c) fun _ => Linkless start :=
  archive_triple (fun _ _ linkless _ => linkless.add other) fun _ _ _ _ _ => trivial

theorem insertPath_linkless : Ensures (Linkless start) (insertPath p) fun _ => Linkless start :=
  insertPath_triple (fun _ linkless _ => linkless) fun _ linkless _ => linkless

theorem depsFor_linkless : Ensures (Linkless start) (depsFor host ent amd bytes) fun _ => Linkless start := by
  unfold depsFor
  split
  · exact elfDepsOrNone_triple fun _ _ _ _ linkless _ => linkless
  · exact .pure fun _ linkless => linkless

theorem elfSymlink_followed : Ensures (Linkless start) (elfSymlink fs ent dst amd rest) (Followed fs start) := by
  unfold elfSymlink
  split
  · exact .pure fun _ linkless => linkless.followed
  · rename_i canonTgt resolved
    have either : (if ent.isLib then .lib canonTgt else .name canonTgt) = GatherEnt.lib canonTgt ∨
        (if ent.isLib then .lib canonTgt else .name canonTgt) = GatherEnt.name canonTgt := by
      split
      · exact .inl rfl
      · exact .inr rfl
    generalize (if ent.isLib then GatherEnt.lib canonTgt else .name canonTgt) = target at either ⊢
    have linked : Ensures (Linkless start) (archive (.symlink dst amd canonTgt)) fun _ => Followed fs start (target :: rest) := by
      refine archive_triple ?_ fun _ _ _ _ _ => trivial
      rintro s a ⟨calls,logged,none⟩ _
      refine ⟨calls ++ [.symlink dst amd canonTgt],by simp [logged],fun d md tgt inside => ?_⟩
      rcases List.mem_append.mp inside with old | new
      · exact absurd old (none d md tgt)
      · cases List.mem_singleton.mp new
        exact ⟨resolved,target,List.mem_cons_self,either⟩
    have inserted : Ensures (Followed fs start (target :: rest)) (insertPath dst) fun _ => Followed fs start (target :: rest) :=
      insertPath_triple (fun _ followed _ => followed) fun _ followed _ => followed
    refine .bind linked fun _ => ?_
    split
    · exact .bind inserted fun _ => .pure fun _ followed => followed
    · exact .fail fun _ _ => trivial

theorem elfGot_followed : Ensures (Linkless start) (elfGot host ent src dst md rest) (Followed host.toFileSystem start) := by
  refine elfGot_triple (fun _ before _ => before.followed) (fun _ _ _ _ => trivial) (fun amd => ?_) (fun _ _ => trivial)
    (fun amd _ => elfSymlink_followed) (fun amd _ => ?_) (fun amd _ => ?_) fun amd _ => ?_
  · refine Triple.weaken (gatherArchiveDirs_enters fun _ dir amd _ linkless _ _ => ?_) (fun _ before => before.1) fun _ _ h => h
    exact linkless.add nofun
  · exact Ensures.ofExcept_bind fun ⟨_,bytes⟩ _ => .bind depsFor_linkless fun deps => .bind (archive_linkless nofun) fun _ =>
      .bind insertPath_linkless fun _ => .pure fun _ linkless => linkless.followed
  · exact .bind (archive_linkless nofun) fun _ => Ensures.ofExcept_bind fun names _ =>
      .bind insertPath_linkless fun _ => .pure fun _ linkless => linkless.followed
  · exact .bind (archive_linkless nofun) fun _ => .bind insertPath_linkless fun _ => .pure fun _ linkless => linkless.followed

theorem elfVisit_followed : Ensures (Linkless start) (elfVisit host ent rest) (Followed host.toFileSystem start) :=
  elfVisit_triple (fun _ _ _ _ _ linkless => linkless.followed) (fun _ _ _ _ => trivial) (fun _ _ => trivial)
    fun _ _ _ _ => elfGot_followed

-- canonicalize follows symlinks to their end.
def SymlinkFree (fs : FileSystem) : Prop :=
  ∀ p q md, fs.canonicalize p = .ok q → fs.symlinkMetadata q = .ok md → md.mode &&& S_IFMT ≠ S_IFLNK

theorem statByName_path (absolute : isAbsolute n = true) (found : statByName fs searchPaths missing n = .ok got) :
    fs.symlinkMetadata n = .ok got.md ∧ components got.path = components n := by
  obtain ⟨rest,rfl⟩ := isAbsolute_iff.mp absolute
  unfold statByName at found
  rw [if_pos List.mem_cons_self] at found
  split at found
  · rename_i md stat
    split at found
    · rename_i p made
      cases found
      exact ⟨stat,absolute_components fs.cwd_absolute absolute made⟩
    · cases found
  · cases found

-- A target's entry leads to the target itself.
theorem target_seen (free : SymlinkFree fs) (resolved : fs.canonicalize p = .ok tgt) (either : ent = .lib tgt ∨ ent = .name tgt)
    (done : EntDone fs t ent) : components tgt ∈ t.pathsSeen := by
  have absolute := fs.canonicalize_absolute resolved
  have found : ∀ got, pathStat fs ent = .ok got → fs.symlinkMetadata tgt = .ok got.md ∧ components got.path = components tgt := by
    rintro got stat
    rcases either with rfl | rfl
    · exact statByName_path absolute stat
    · exact statByName_path absolute stat
  have plain : ∀ got, destination ent got = got.path := by
    rcases either with rfl | rfl
    · exact fun _ => rfl
    · exact fun _ => rfl
  rcases done with ⟨n,e,same,_⟩ | ⟨got,stat,seen | ⟨link,_⟩⟩
  · rcases either with rfl | rfl
    · cases same
    · cases same
  · rw [plain,(found got stat).2] at seen
    exact seen
  · exact absurd link (free p tgt got.md resolved (found got stat).1)

theorem elfRuns_targets (free : SymlinkFree host.toFileSystem) (runs : Worklist.Runs (elfVisit host) items s [] t) :
    ∃ calls, t.archived = s.archived ++ calls ∧ ∀ dst amd tgt, .symlink dst amd tgt ∈ calls → components tgt ∈ t.pathsSeen := by
  generalize empty : ([] : List GatherEnt) = last at runs
  induction runs with
  | refl => exact ⟨[],(List.append_nil _).symm,nofun⟩
  | @step item rest items last s u t visited more ih =>
    obtain ⟨later,logged,known⟩ := ih empty
    obtain ⟨calls,here,followed⟩ := elfVisit_followed.ok s items u ⟨[],(List.append_nil _).symm,nofun⟩ visited
    refine ⟨calls ++ later,by rw [logged,here,List.append_assoc],fun dst amd tgt inside => ?_⟩
    rcases List.mem_append.mp inside with new | old
    · obtain ⟨resolved,ent,pushed,either⟩ := followed dst amd tgt new
      subst empty
      exact target_seen free resolved either (elfRuns_done more ent pushed)
    · exact known dst amd tgt old

theorem elfGot_children (dir : md.mode &&& S_IFMT = S_IFDIR) (listed : host.readDir src = .ok names) (member : n ∈ names) :
    Ensures (fun s => components dst ∉ s.pathsSeen) (elfGot host ent src dst md rest) fun items _ => .path (join src n) ∈ items := by
  have childless : ∀ {mode : UInt32}, mode ≠ S_IFDIR → md.mode &&& S_IFMT ≠ mode := fun differ same => differ (same.symm.trans dir)
  refine elfGot_triple (fun _ unseen seen => absurd seen unseen) (fun _ _ _ _ => trivial) (fun _ => Ensures.any) (fun _ _ => trivial)
    (fun _ link => absurd link (childless (by decide))) (fun _ file => absurd file (childless (by decide))) (fun amd _ => ?_)
    fun _ other => absurd dir other
  refine .bind Ensures.any fun _ => Ensures.ofExcept_bind fun got again => .bind Ensures.any fun _ => .pure fun _ _ => ?_
  rw [listed] at again
  cases again
  exact List.mem_append_left _ (List.mem_reverse.mpr (List.mem_map.mpr ⟨n,(List.mem_insertionSort _).mpr member,rfl⟩))

theorem elfVisit_children (found : pathStat host.toFileSystem ent = .ok got) (unseen : components (destination ent got) ∉ s.pathsSeen)
    (dir : got.md.mode &&& S_IFMT = S_IFDIR) (listed : host.readDir got.path = .ok names) (member : n ∈ names)
    (ran : (elfVisit host ent rest).run s = (.ok items,t)) : .path (join got.path n) ∈ items := by
  have turn : Ensures (fun u => components (destination ent got) ∉ u.pathsSeen) (elfVisit host ent rest)
      fun items _ => .path (join got.path n) ∈ items := by
    refine elfVisit_triple (fun _ _ _ _ failed => ?_) (fun _ _ _ _ => trivial) (fun _ _ => trivial) fun _ dst stat lands => ?_
    · cases found.symm.trans failed
    · cases found.symm.trans stat
      cases lands.destination
      exact elfGot_children dir listed member
  exact turn.ok s items t unseen ran

-- Everything that is ever on the worklist, among it the children of a directory
-- and the libraries of a program whose turn it is, and the targets of symlinks.
theorem elf_worklist_complete (ran : (gatherArchiveElfs host fuel elfs).run s = (.ok (),t)) :
    (∀ items u ent, Worklist.Runs (elfVisit host) elfs.reverse s items u → ent ∈ items → EntDone host.toFileSystem t ent) ∧
    (∀ ent rest u got, Worklist.Runs (elfVisit host) elfs.reverse s (ent :: rest) u →
      pathStat host.toFileSystem ent = .ok got → components (destination ent got) ∉ u.pathsSeen →
      (∀ names n, got.md.mode &&& S_IFMT = S_IFDIR → host.readDir got.path = .ok names → n ∈ names →
        EntDone host.toFileSystem t (.path (join got.path n))) ∧
      ∀ bytes deps dep, Parses host ent got bytes deps u → dep ∈ deps → EntDone host.toFileSystem t dep) ∧
    (SymlinkFree host.toFileSystem → ∃ calls, t.archived = s.archived ++ calls ∧
      ∀ dst amd tgt, .symlink dst amd tgt ∈ calls → components tgt ∈ t.pathsSeen) := by
  have whole := Worklist.loop_runs ran
  refine ⟨fun items u ent reached => elfRuns_done (reached.rest whole) ent,?_,fun free => elfRuns_targets free whole⟩
  intro ent rest u got reached found unseen
  cases reached.rest whole with
  | step visited more =>
    have onwards := elfRuns_done more
    refine ⟨fun names n dir listed member => ?_,fun bytes deps dep parses member => ?_⟩
    · exact onwards _ (elfVisit_children found unseen dir listed member visited)
    · apply onwards
      rw [elfVisit_deps parses visited]
      exact List.mem_append_left _ (List.mem_reverse.mpr member)

-- A machine with a symlink "/bin/x" to "/bin/y".
def linkHost : Host := {bareHost with
  symlinkMetadata := fun p =>
    if p = asPath "/bin/x" then .ok (plainMd (S_IFLNK ||| 0o777) 1)
    else if p = asPath "/bin/y" then .ok (plainMd (S_IFREG ||| 0o755) 1)
    else .error (.ofKind .notFound)
  canonicalize := fun p => if p = asPath "/bin/x" then .ok (asPath "/bin/y") else .error (.ofKind .notFound)
  cwd_absolute := root_absolute
  readDir_names := @lists_nothing
  canonicalize_absolute := by
    intro p q resolved
    split at resolved
    · cases resolved
      decide +kernel
    · cases resolved}

theorem linkHost_free : SymlinkFree linkHost.toFileSystem := by
  intro p q md resolved stat
  have target : q = asPath "/bin/y" := by
    change (if p = asPath "/bin/x" then _ else _) = Except.ok q at resolved
    split at resolved
    · exact (Except.ok.inj resolved).symm
    · cases resolved
  have file : linkHost.symlinkMetadata (asPath "/bin/y") = .ok (plainMd (S_IFREG ||| 0o755) 1) := by decide +kernel
  rw [target] at stat
  cases Except.ok.inj (stat.symm.trans file)
  decide

@[irreducible] def linkRun : Except IoError Unit × State := (gatherArchiveElfs linkHost 2 [.name (asPath "x")]).run emptyState

theorem elf_worklist_complete_link : linkRun.1 = .ok () ∧ EntDone linkHost.toFileSystem linkRun.2 (.name (asPath "x")) ∧
    (∃ amd, .symlink (asPath "/bin/x") amd (asPath "/bin/y") ∈ linkRun.2.archived) ∧
    components (asPath "/bin/y") ∈ linkRun.2.pathsSeen := by
  have succeeds : linkRun.1 = .ok () := by decide +kernel
  have ran : (gatherArchiveElfs linkHost 2 [.name (asPath "x")]).run emptyState = (.ok (),linkRun.2) := by
    unfold linkRun at succeeds ⊢
    exact run_ok succeeds
  obtain ⟨all,_,targets⟩ := elf_worklist_complete ran
  obtain ⟨calls,logged,seen⟩ := targets linkHost_free
  have linked : .symlink (asPath "/bin/x") ⟨1,S_IFLNK ||| 0o777,0,0,0,0,0,0⟩ (asPath "/bin/y") ∈ linkRun.2.archived := by decide +kernel
  have own : linkRun.2.archived = calls := logged
  exact ⟨succeeds,all _ _ _ .refl (List.mem_singleton.mpr rfl),⟨_,linked⟩,seen _ _ _ (own ▸ linked)⟩

end Rapido.Cut
