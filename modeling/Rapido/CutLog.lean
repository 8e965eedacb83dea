import Rapido.Manifest
import Rapido.CpioRoundTrip

-- What a gather function can do to its state, whichever it is, and what that
-- says about the archive.
namespace Rapido.Cut
open UnixPath Cpio Text KvConf Eff
variable {pre : State → Prop} {fails : IoError → State → Prop}

-- bytesLe is the order of the lists of bytes.
theorem bytesLe_iff (a b : List UInt8) : bytesLe a b = true ↔ a ≤ b := by
  induction a generalizing b with
  | nil => simp [bytesLe]
  | cons x a ih =>
    cases b with
    | nil => simp [bytesLe]
    | cons y b => simp [bytesLe,List.cons_le_cons_iff,ih]

theorem bytesLe_total : Std.Total fun a b : Name => bytesLe a b = true := ⟨fun a b => by
  rw [bytesLe_iff,bytesLe_iff]
  exact List.le_total a b⟩

theorem bytesLe_trans : IsTrans Name fun a b => bytesLe a b = true := ⟨fun a b c first second => by
  rw [bytesLe_iff] at first second ⊢
  exact List.le_trans first second⟩

theorem sortNames_reorders (names : List Name) : (sortNames names).Perm names := List.perm_insertionSort _ names

theorem sortNames_sorted (names : List Name) : (sortNames names).Pairwise fun a b => bytesLe a b = true :=
  have := bytesLe_total
  have := bytesLe_trans
  List.pairwise_insertionSort _ names

theorem sortNames_iff (names : List Name) : sortNames names = names ↔ names.Pairwise fun a b => bytesLe a b = true := by
  constructor
  · intro same
    rw [← same]
    exact sortNames_sorted names
  · exact fun sorted => sorted.insertionSort_eq

-- What is sorted does not depend on the order it comes in.
theorem sortNames_perm (shuffled : names.Perm others) : sortNames names = sortNames others := by
  have same : (sortNames names).Perm (sortNames others) :=
    (List.perm_insertionSort _ _).trans (shuffled.trans (List.perm_insertionSort _ _).symm)
  refine same.eq_of_pairwise ?_ (sortNames_sorted names) (sortNames_sorted others)
  intro a b _ _ below above
  rw [bytesLe_iff] at below above
  exact List.le_antisymm below above

theorem archive_ran (ran : (archive c).run s = (.ok (),t)) :
    ∃ a, c.run.run s.archive = (.ok (),a) ∧ t = {s with archive:=a,archived:=s.archived ++ [c]} := by
  unfold archive at ran
  dsimp only at ran
  split at ran
  · rename_i a wrote
    cases ran
    exact ⟨a,wrote,rfl⟩
  · cases ran

theorem archive_triple {post : Unit → State → Prop}
    (done : ∀ s a, pre s → c.run.run s.archive = (.ok (),a) → post () {s with archive:=a,archived:=s.archived ++ [c]})
    (refused : ∀ s e a, pre s → c.run.run s.archive = (.error e,a) → fails e {s with archive:=a}) :
    Triple pre (archive c) post fails where
  ok := by
    intro s value t before ran
    obtain ⟨a,wrote,rfl⟩ := archive_ran ran
    exact done s a before wrote
  error := by
    intro s failure t before ran
    unfold archive at ran
    dsimp only at ran
    split at ran
    · cases ran
    · cases ran
      exact refused s _ _ before (by assumption)

theorem archive_ok (accepted : (c.run.run s.archive).1 = .ok ()) :
    ∃ a, (archive c).run s = (.ok (),{s with archive:=a,archived:=s.archived ++ [c]}) := by
  unfold archive
  dsimp only
  cases ran : c.run.run s.archive with
  | mk result a =>
    rw [ran] at accepted
    cases accepted
    exact ⟨a,rfl⟩

theorem archivePath_dir (trimmed : pathTrimPrefixes p = .ok fname) (dir : md.mode &&& S_IFMT = S_IFDIR) :
    ((archivePath p md).run a).1 = .ok () := by
  unfold archivePath
  rw [trimmed,dir]
  rfl

theorem pathSeen_bind {next : Bool → Gather α} {post : α → State → Prop}
    (yes : Triple (fun s => pre s ∧ components p ∈ s.pathsSeen) (next true) post fails)
    (no : Triple (fun s => pre s ∧ components p ∉ s.pathsSeen) (next false) post fails) :
    Triple pre (pathSeen p >>= next) post fails := by
  refine .read_bind fun seen => ?_
  cases seen with
  | true => exact yes.weaken (fun s before => ⟨before.1,of_decide_eq_true before.2⟩) fun _ _ h => h
  | false => exact no.weaken (fun s before => ⟨before.1,of_decide_eq_false before.2⟩) fun _ _ h => h

theorem insertPath_run (p : Path) (s : State) : (insertPath p).run s =
    if components p ∈ s.pathsSeen then (.ok false,s) else (.ok true,{s with pathsSeen:=components p :: s.pathsSeen}) := by
  unfold insertPath pathSeen
  by_cases seen : components p ∈ s.pathsSeen
  · simp [bind_run,seen]
  · simp [bind_run,seen]

theorem insertPath_new (new : components p ∉ s.pathsSeen) :
    (insertPath p).run s = (.ok true,{s with pathsSeen:=components p :: s.pathsSeen}) := by
  rw [insertPath_run,if_neg new]

theorem insertPath_old (old : components p ∈ s.pathsSeen) : (insertPath p).run s = (.ok false,s) := by
  rw [insertPath_run,if_pos old]

theorem insertPath_seen (ran : (insertPath p).run s = (.ok new,t)) : components p ∈ t.pathsSeen := by
  by_cases old : components p ∈ s.pathsSeen
  · rw [insertPath_old old] at ran
    cases ran
    exact old
  · rw [insertPath_new old] at ran
    cases ran
    exact List.mem_cons_self

theorem insertPath_bind {next : Bool → Gather α} {post : α → State → Prop}
    (new : Triple (fun t => ∃ s, pre s ∧ components p ∉ s.pathsSeen ∧ t = {s with pathsSeen:=components p :: s.pathsSeen})
      (next true) post fails)
    (old : Triple (fun s => pre s ∧ components p ∈ s.pathsSeen) (next false) post fails) :
    Triple pre (insertPath p >>= next) post fails where
  ok := by
    intro s value t before ran
    by_cases seen : components p ∈ s.pathsSeen
    · rw [bind_run,insertPath_run,if_pos seen] at ran
      exact old.ok s value t ⟨before,seen⟩ ran
    · rw [bind_run,insertPath_run,if_neg seen] at ran
      exact new.ok _ value t ⟨s,before,seen,rfl⟩ ran
  error := by
    intro s failure t before ran
    by_cases seen : components p ∈ s.pathsSeen
    · rw [bind_run,insertPath_run,if_pos seen] at ran
      exact old.error s failure t ⟨before,seen⟩ ran
    · rw [bind_run,insertPath_run,if_neg seen] at ran
      exact new.error _ failure t ⟨s,before,seen,rfl⟩ ran

theorem insertPath_triple {post : Bool → State → Prop}
    (new : ∀ s, pre s → components p ∉ s.pathsSeen → post true {s with pathsSeen:=components p :: s.pathsSeen})
    (old : ∀ s, pre s → components p ∈ s.pathsSeen → post false s) : Triple pre (insertPath p) post fails := by
  refine pathSeen_bind (.pure fun s before => old s before.1 before.2) ?_
  exact .bind (.update fun s before => new s before.1 before.2) fun _ => .pure fun _ h => h

theorem archiveMd_triple {post : ArchiveMd → State → Prop}
    (made : ∀ s amd, pre s → ArchiveMd.fromMetadata s.archive.state md = .ok amd → post amd s)
    (refused : ∀ s e, pre s → ArchiveMd.fromMetadata s.archive.state md = .error e → fails e s) :
    Triple pre (archiveMd md) post fails := by
  refine .read_bind fun state => .ofExcept ?_ ?_
  · rintro amd found s ⟨before,rfl⟩
    exact made s amd before found
  · rintro e failed s ⟨before,rfl⟩
    exact refused s e before failed

theorem fromMetadata_mode (made : ArchiveMd.fromMetadata state md = .ok amd) : amd.mode = md.mode := by
  unfold ArchiveMd.fromMetadata at made
  simp only [bind,Except.bind] at made
  repeat' split at made
  all_goals
    cases made
    try rfl

-- Reading the metadata changes nothing.
theorem archiveMd_same : Ensures pre (archiveMd md) fun _ => pre := archiveMd_triple (fun _ _ before _ => before) fun _ _ _ _ => trivial

-- An invariant of archiving and of inserting into paths_seen. A NotFound is the
-- one failure after which the callers may go on.
structure Stored (bad : IoError → Prop) (inv : State → Prop) : Prop where
  archived : ∀ s (c : Call) a, inv s → c.run.run s.archive = (.ok (),a) → inv {s with archive:=a,archived:=s.archived ++ [c]}
  refused : ∀ s (c : Call) e a, inv s → c.run.run s.archive = (.error e,a) → ¬bad e → inv {s with archive:=a}
  inserted : ∀ s cs, inv s → inv {s with pathsSeen:=cs :: s.pathsSeen}
  missing : ∀ e, bad e → e.kind ≠ .notFound

-- An invariant of everything the gather functions do to their state.
structure Stable (bad : IoError → Prop) (inv : State → Prop) : Prop extends Stored bad inv where
  needed : ∀ s names, inv s → inv {s with libsSeen:=names}
  kmods : ∀ s gk, inv s → inv {s with gk:=gk}
  autoruns : ∀ s idx, inv s → inv {s with autorunIdx:=idx}

-- Only autorun changes its counter.
structure Steady (bad : IoError → Prop) (inv : State → Prop) : Prop extends Stored bad inv where
  needed : ∀ s names, inv s → inv {s with libsSeen:=names}
  kmods : ∀ s gk, inv s → inv {s with gk:=gk}

theorem Stable.steady (stable : Stable bad inv) : Steady bad inv := ⟨stable.toStored,stable.needed,stable.kmods⟩

-- The directive of a line that is neither blank nor a comment, with its words.
def lineDirective (line : Str) : Option (Etype × List Str) :=
  match splitWhitespace line with
  | [] => none
  | word :: args => if startsWith '#' word then none else (etypeOf word).map fun etype => (etype,args)

-- What a line is refused with outside of its directive.
def LineError (e : IoError) : Prop := e = .ofKind .brokenPipe ∨ e = .ofKind .invalidInput ∨ e = .ofKind .unsupported

section lines
variable {host : Host} {conf : Map} {mid : State → Prop}

theorem manifestParseOne_triple (skipped : ∀ s, pre s → mid s) (refused : ∀ e s, LineError e → mid s → fails e s)
    (each : ∀ etype args, lineDirective line = some (etype,args) →
      Triple pre (directive host conf fuel etype args) (fun _ => mid) fails) :
    Triple pre (manifestParseOne host conf fuel line) (fun _ => mid) fails := by
  unfold manifestParseOne
  unfold lineDirective at each
  split
  · exact .pure skipped
  · rename_i word args words
    rw [words] at each
    split
    · exact .pure skipped
    · rename_i uncommented
      split
      · exact .fail fun s before => refused _ s (.inr (.inr rfl)) (skipped s before)
      · rename_i etype known
        have here := each etype args (by simp [uncommented,known])
        refine .bind here fun ⟨trail,opened⟩ => ?_
        dsimp only
        split
        · exact .fail fun s after => refused _ s (.inr (.inl rfl)) after
        · exact .pure fun _ h => h

-- A visit does what the directive of its line does.
theorem festVisit_triple (skipped : ∀ s, pre s → mid s) (refused : ∀ e s, LineError e → mid s → fails e s)
    (each : ∀ bytes line etype args, fest.head? = some bytes → Utf8.decode bytes = some line →
      lineDirective line = some (etype,args) → Triple pre (directive host conf fuel etype args) (fun _ => mid) fails) :
    Triple pre (festVisit host conf fuel fest rest) (fun _ => mid) fails := by
  unfold festVisit
  split
  · exact .pure skipped
  · rename_i bytes lines
    split
    · exact .fail fun s before => refused _ s (.inl rfl) (skipped s before)
    · rename_i line decoded
      split
      · exact .fail fun s before => refused _ s (.inr (.inl rfl)) (skipped s before)
      · refine .bind (manifestParseOne_triple skipped refused fun etype args words => ?_) fun _ => .pure fun _ h => h
        exact each bytes line etype args rfl decoded words

end lines

section stable
variable {bad : IoError → Prop} {inv : State → Prop} {host : Host} {fs : FileSystem} {conf : Map}

theorem archive_keeps (stored : Stored bad inv) : Keeps bad inv (archive c) :=
  archive_triple (fun s a => stored.archived s c a) fun s e a => stored.refused s c e a

theorem insertPath_keeps (stored : Stored bad inv) : Keeps bad inv (insertPath p) :=
  insertPath_triple (fun s holds _ => stored.inserted s _ holds) fun _ holds _ => holds

theorem archiveMd_keeps : Keeps bad inv (archiveMd md) := .bind .read fun _ => .ofExcept

theorem pathSeen_keeps : Keeps bad inv (pathSeen p) := .read

-- The loop over the directories of a path keeps what entering one of them keeps.
theorem dirsLoop_triple {amd : ArchiveMd} (climbed : ∀ s, pre s → fails (.ofKind .invalidInput) s)
    (each : ∀ dir, Triple pre (insertPath (rootPath dir) >>= fun new => Eff.runIf (new = true) (archive (.path (rootPath dir) amd)))
      (fun _ => pre) fails) (here : List Name) (rest : List Component) : Triple pre (dirsLoop amd here rest) (fun _ => pre) fails := by
  induction rest generalizing here with
  | nil => exact .pure fun _ h => h
  | cons c rest ih =>
    cases c with
    | rootDir => exact ih here
    | curDir => exact ih here
    | parentDir =>
      unfold dirsLoop
      split
      · exact .fail climbed
      · exact ih _
    | normal name =>
      unfold dirsLoop
      rw [← bind_assoc]
      exact .bind (each _) fun _ => ih _

theorem gatherArchiveDirs_triple {path : Option Path} {amd : ArchiveMd}
    (panicked : ∀ p, path = some p → isAbsolute p = false → ∀ s, pre s →
      fails ⟨.panic,"non-absolute path, check path_stat and dst paths"⟩ s)
    (climbed : ∀ s, pre s → fails (.ofKind .invalidInput) s)
    (each : ∀ dir, Triple pre (insertPath (rootPath dir) >>= fun new =>
      Eff.runIf (new = true) (archive (.path (rootPath dir) (parentDirsAmd amd)))) (fun _ => pre) fails) :
    Triple pre (gatherArchiveDirs path amd) (fun _ => pre) fails := by
  cases path with
  | none => exact .pure fun _ h => h
  | some p =>
    unfold gatherArchiveDirs
    dsimp only
    split
    · rename_i relative
      exact .fail (panicked p rfl relative)
    · refine pathSeen_bind (.pure fun _ before => before.1) ?_
      exact (dirsLoop_triple climbed each _ _).weaken (fun _ before => before.1) fun _ _ h => h

theorem gatherArchiveDirs_keeps (stored : Stored bad inv) : Keeps bad inv (gatherArchiveDirs p amd) :=
  gatherArchiveDirs_triple (fun _ _ _ _ holds _ => holds) (fun _ holds _ => holds) fun _ =>
    .bind (insertPath_keeps stored) fun _ => .runIf (fun _ => archive_keeps stored) fun _ _ h => h

-- Whether the file parses or not, only libs_seen changes.
theorem elfDepsOrNone_triple {pre : State → Prop} {fails : IoError → State → Prop} {post : List GatherEnt → State → Prop}
    (done : ∀ s deps result names, pre s → (elfDeps host bytes).run s.libsSeen = (result,names) ∧ deps = result.toOption.getD [] →
      post deps {s with libsSeen:=names}) : Triple pre (elfDepsOrNone host bytes) post fails where
  ok := by
    intro s value t before ran
    unfold elfDepsOrNone at ran
    dsimp only at ran
    split at ran
    · rename_i deps names parsed
      cases ran
      exact done s _ _ names before ⟨parsed,rfl⟩
    · rename_i e names parsed
      cases ran
      exact done s _ _ names before ⟨parsed,rfl⟩
  error := by
    intro s failure t before ran
    unfold elfDepsOrNone at ran
    dsimp only at ran
    split at ran <;> cases ran

-- The turn of gather_archive_elfs for an entry that was found, by what becomes of
-- it: it is in paths_seen, or its parents are entered and its type decides.
theorem elfGot_triple {mid : State → Prop} {post : List GatherEnt → State → Prop}
    (seen : ∀ s, pre s → components dst ∈ s.pathsSeen → post rest s)
    (refused : ∀ s e, pre s → ArchiveMd.fromMetadata s.archive.state md = .error e → fails e s)
    (parents : ∀ amd, Triple (fun s => pre s ∧ components dst ∉ s.pathsSeen) (gatherArchiveDirs (parent dst) amd) (fun _ => mid) fails)
    (linked : ∀ s, mid s → fails (.ofKind .invalidInput) s)
    (symlink : ∀ amd, md.mode &&& S_IFMT = S_IFLNK → Triple mid (elfSymlink host.toFileSystem ent dst amd rest) post fails)
    (file : ∀ amd, md.mode &&& S_IFMT = S_IFREG → Triple mid (elfFile host ent src dst amd rest) post fails)
    (dir : ∀ amd, md.mode &&& S_IFMT = S_IFDIR → Triple mid (elfDir host.toFileSystem src dst amd rest) post fails)
    (other : ∀ amd, md.mode &&& S_IFMT ≠ S_IFDIR → Triple mid (elfOther dst amd rest) post fails) :
    Triple pre (elfGot host ent src dst md rest) post fails := by
  have made : Triple (fun s => pre s ∧ components dst ∉ s.pathsSeen) (archiveMd md)
      (fun amd s => (pre s ∧ components dst ∉ s.pathsSeen) ∧ amd.mode = md.mode) fails :=
    archiveMd_triple (fun _ _ before made => ⟨before,fromMetadata_mode made⟩) fun s e before => refused s e before.1
  refine pathSeen_bind (.pure fun s before => seen s before.1 before.2) (.bind made fun amd => .assuming fun mode => ?_)
  refine .bind (parents amd) fun _ => ?_
  rw [mode]
  split
  · rename_i link
    split
    · exact .fail linked
    · exact symlink amd link
  · split
    · rename_i regular
      exact file amd regular.1
    · split
      · rename_i listed
        exact dir amd listed
      · rename_i childless
        exact other amd childless

-- Where an entry that was found goes. Only one with a destination of its own can
-- be refused for it.
inductive Lands : GatherEnt → Fsent → Path → Prop where
  | given (absolute : isAbsolute d = true) : Lands (.nameDst n d) got d
  | found (plain : ∀ n d, ent ≠ .nameDst n d) : Lands ent got got.path

theorem elfVisit_triple {post : List GatherEnt → State → Prop}
    (dropped : ∀ n e s, ent = .nameTry n → pathStat host.toFileSystem ent = .error e → pre s → post rest s)
    (missing : ∀ e s, pathStat host.toFileSystem ent = .error e → pre s → fails e s)
    (relative : ∀ s, pre s → fails ⟨.panic,"assert!(dst.is_absolute())"⟩ s)
    (taken : ∀ got dst, pathStat host.toFileSystem ent = .ok got → Lands ent got dst →
      Triple pre (elfGot host ent got.path dst got.md rest) post fails) : Triple pre (elfVisit host ent rest) post fails := by
  unfold elfVisit
  split
  · rename_i e failed
    split
    · rename_i n
      exact .pure fun s before => dropped n e s rfl failed before
    · exact .fail fun s before => missing e s failed before
  · rename_i got stat
    split
    · rename_i n d
      split
      · exact .fail relative
      · rename_i absolute
        exact taken got d stat (.given (by simpa using absolute))
    · rename_i plain
      exact taken got got.path stat (.found plain)

-- What is true of the state on the way of a path into the archive and then into
-- paths_seen: `mid` ahead of both, `paid` between them.
structure EntrySteps (dst : Path) (mid paid after : State → Prop) (fails : IoError → State → Prop) : Prop where
  unresolved : ∀ s, mid s → after s
  failed : ∀ e s, mid s → fails e s
  stopped : ∀ e s, paid s → fails e s
  needed : ∀ s names, mid s → mid {s with libsSeen:=names}
  archived : ∀ c : Call, c.target = dst → Triple mid (archive c) (fun _ => paid) fails
  inserted : Triple paid (insertPath dst) (fun _ => after) fails

namespace EntrySteps
variable {mid paid after : State → Prop}

theorem symlink (steps : EntrySteps dst mid paid after fails) :
    Triple mid (elfSymlink fs ent dst amd rest) (fun _ => after) fails := by
  unfold elfSymlink
  split
  · exact .pure steps.unresolved
  · refine .bind (steps.archived _ rfl) fun _ => ?_
    split
    · exact .bind steps.inserted fun _ => .pure fun _ h => h
    · exact .fail (steps.stopped _)

theorem deps (steps : EntrySteps dst mid paid after fails) : Triple mid (depsFor host ent amd bytes) (fun _ => mid) fails := by
  unfold depsFor
  split
  · exact elfDepsOrNone_triple fun s _ _ names before _ => steps.needed s names before
  · exact .pure fun _ h => h

theorem file (steps : EntrySteps dst mid paid after fails) :
    Triple mid (elfFile host ent src dst amd rest) (fun _ => after) fails := by
  refine .ofExcept_bind (fun ⟨_,bytes⟩ _ => .bind steps.deps fun deps => ?_) fun e _ => steps.failed e
  exact .bind (steps.archived _ rfl) fun _ => .bind steps.inserted fun _ => .pure fun _ h => h

theorem dir (steps : EntrySteps dst mid paid after fails) : Triple mid (elfDir fs src dst amd rest) (fun _ => after) fails := by
  refine .bind (steps.archived _ rfl) fun _ => .ofExcept_bind (fun names _ => ?_) fun e _ => steps.stopped e
  exact .bind steps.inserted fun _ => .pure fun _ h => h

theorem other (steps : EntrySteps dst mid paid after fails) : Triple mid (elfOther dst amd rest) (fun _ => after) fails :=
  .bind (steps.archived _ rfl) fun _ => .bind steps.inserted fun _ => .pure fun _ h => h

-- The parents may have shown something about the path that its own steps need.
theorem got {fact : Prop} (steps : fact → EntrySteps dst mid paid after fails)
    (seen : ∀ s, pre s → components dst ∈ s.pathsSeen → after s)
    (refused : ∀ s e, pre s → ArchiveMd.fromMetadata s.archive.state md = .error e → fails e s)
    (parents : ∀ amd, Triple (fun s => pre s ∧ components dst ∉ s.pathsSeen) (gatherArchiveDirs (parent dst) amd)
      (fun _ s => mid s ∧ fact) fails) : Triple pre (elfGot host ent src dst md rest) (fun _ => after) fails :=
  elfGot_triple seen refused parents (fun s before => (steps before.2).failed _ s before.1)
    (fun _ _ => .assuming fun shown => (steps shown).symlink) (fun _ _ => .assuming fun shown => (steps shown).file)
    (fun _ _ => .assuming fun shown => (steps shown).dir) fun _ _ => .assuming fun shown => (steps shown).other

end EntrySteps

theorem Steady.entry (steady : Steady bad inv) : EntrySteps dst inv inv inv fun e s => ¬bad e → inv s where
  unresolved := fun _ holds => holds
  failed := fun _ _ holds _ => holds
  stopped := fun _ _ holds _ => holds
  needed := steady.needed
  archived := fun _ _ => archive_keeps steady.toStored
  inserted := insertPath_keeps steady.toStored

theorem elfGot_keeps (steady : Steady bad inv) : Keeps bad inv (elfGot host ent src dst md rest) := by
  refine EntrySteps.got (fun _ : True => steady.entry) (fun _ holds _ => holds) (fun _ _ holds _ _ => holds) fun amd => ?_
  exact (gatherArchiveDirs_keeps steady.toStored).weaken (fun _ before => before.1) fun _ _ holds => ⟨holds,trivial⟩

theorem elfVisit_keeps (steady : Steady bad inv) : Keeps bad inv (elfVisit host ent rest) :=
  elfVisit_triple (fun _ _ _ _ _ holds => holds) (fun _ _ _ holds _ => holds) (fun _ holds _ => holds)
    fun _ _ _ _ => elfGot_keeps steady

theorem gatherArchiveElfs_keeps (steady : Steady bad inv) : Keeps bad inv (gatherArchiveElfs host fuel elfs) :=
  Worklist.loop_keeps (fun _ _ => elfVisit_keeps steady) fuel _

-- An item is archived once, and only a directory adds to the items.
theorem dataItem_triple {item : GatherItem} {paid : State → Prop} {post : List GatherItem → State → Prop}
    (archived : ∀ c : Call, c.target = item.dst → Triple pre (archive c) (fun _ => paid) fails)
    (unread : ∀ e s, fs.fileOpen item.src = .error e ∨ fs.readLink item.src = .error e → pre s → fails e s)
    (unlisted : ∀ e s, fs.readDir item.src = .error e → paid s → fails e s)
    (children : ∀ names s, fs.readDir item.src = .ok names → paid s →
      post (((sortNames names).map fun e => ⟨join item.src e,join item.dst e,GATHER_ITEM_IGNORE_PARENT⟩).reverse ++ rest) s)
    (same : ∀ s, amd.mode &&& S_IFMT ≠ S_IFDIR → paid s → post rest s) : Triple pre (dataItem fs item amd rest) post fails := by
  unfold dataItem
  split
  · refine .bind (archived _ rfl) fun _ => .ofExcept_bind (fun names listed => ?_) fun e failed s => unlisted e s failed
    exact .pure fun s => children names s listed
  · rename_i childless
    split
    · refine .ofExcept_bind (fun ⟨_,bytes⟩ _ => ?_) fun e failed s => unread e s (.inl failed)
      exact .bind (archived _ rfl) fun _ => .pure fun s => same s childless
    · split
      · refine .ofExcept_bind (fun tgt _ => ?_) fun e failed s => unread e s (.inr failed)
        exact .bind (archived _ rfl) fun _ => .pure fun s => same s childless
      · exact .bind (archived _ rfl) fun _ => .pure fun s => same s childless

theorem dataItem_keeps (steady : Steady bad inv) : Keeps bad inv (dataItem fs item amd rest) :=
  dataItem_triple (fun _ _ => archive_keeps steady.toStored) (fun _ _ _ holds _ => holds) (fun _ _ _ holds _ => holds)
    (fun _ _ _ holds => holds) fun _ _ holds => holds

-- The turn of gather_archive_data: a new item is put into paths_seen ahead of its
-- parents, which it may skip.
theorem dataVisit_triple {item : GatherItem} {mid : State → Prop} {post : List GatherItem → State → Prop}
    (missing : ∀ e s, fs.symlinkMetadata item.src = .error e → pre s → fails (missingItem item.src e) s)
    (refused : ∀ s md e, pre s → ArchiveMd.fromMetadata s.archive.state md = .error e → fails e s)
    (seen : ∀ s, pre s → components item.dst ∈ s.pathsSeen → post rest s)
    (walked : ∀ amd, item.flags &&& GATHER_ITEM_IGNORE_PARENT = 0 →
      Triple (fun t => ∃ s, pre s ∧ components item.dst ∉ s.pathsSeen ∧ t = {s with pathsSeen:=components item.dst :: s.pathsSeen})
        (gatherArchiveDirs (parent item.dst) amd) (fun _ => mid) fails)
    (skipped : item.flags &&& GATHER_ITEM_IGNORE_PARENT ≠ 0 → ∀ s, pre s → components item.dst ∉ s.pathsSeen →
      mid {s with pathsSeen:=components item.dst :: s.pathsSeen})
    (taken : ∀ md amd, fs.symlinkMetadata item.src = .ok md → amd.mode = md.mode → Triple mid (dataItem fs item amd rest) post fails) :
    Triple pre (dataVisit fs item rest) post fails := by
  unfold dataVisit
  split
  · rename_i e failed
    exact .fail fun s => missing e s failed
  · rename_i md stat
    have made : Triple pre (archiveMd md) (fun amd s => pre s ∧ amd.mode = md.mode) fails :=
      archiveMd_triple (fun _ _ before made => ⟨before,fromMetadata_mode made⟩) fun s => refused s md
    refine .bind made fun amd => .assuming fun mode => insertPath_bind ?_ ?_
    · refine .bind (.runIf (walked amd) fun ignored => ?_) fun _ => taken md amd stat mode
      rintro _ ⟨s,before,new,rfl⟩
      exact skipped ignored s before new
    · exact .pure fun s before => seen s before.1 before.2

theorem dataVisit_keeps (steady : Steady bad inv) : Keeps bad inv (dataVisit fs item rest) := by
  refine dataVisit_triple (fun _ _ _ holds _ => holds) (fun _ _ _ holds _ _ => holds) (fun _ holds _ => holds) (fun _ _ => ?_)
    (fun _ s holds _ => steady.inserted s _ holds) fun _ _ _ _ => dataItem_keeps steady
  refine (gatherArchiveDirs_keeps steady.toStored).weaken ?_ fun _ _ h => h
  rintro _ ⟨s,holds,_,rfl⟩
  exact steady.inserted s _ holds

theorem gatherArchiveData_keeps (steady : Steady bad inv) : Keeps bad inv (gatherArchiveData fs fuel items) :=
  Worklist.loop_keeps (fun _ _ => dataVisit_keeps steady) fuel _

theorem archiveKmodPath_keeps (stored : Stored bad inv) : Keeps bad inv (archiveKmodPath fs src dst) :=
  .bind .ofExcept fun _ => .bind archiveMd_keeps fun _ => .bind (gatherArchiveDirs_keeps stored) fun _ =>
    .bind .ofExcept fun ⟨_,_⟩ => archive_keeps stored

-- A NotFound is taken for success, any other failure is passed on.
theorem ignoreNotFound_triple {pre post : State → Prop} {inner fails : IoError → State → Prop} (ran : Triple pre act (fun _ => post) inner)
    (dropped : ∀ e s, e.kind = .notFound → inner e s → post s) (passed : ∀ e s, e.kind ≠ .notFound → inner e s → fails e s) :
    Triple pre (ignoreNotFound act) (fun _ => post) fails where
  ok := by
    intro s value t holds done
    unfold ignoreNotFound at done
    dsimp only at done
    split at done
    · rename_i e left failed
      split at done
      · rename_i missing
        cases done
        exact dropped e _ missing (ran.error s e _ holds failed)
      · cases done
    · exact ran.ok s value t holds done
  error := by
    intro s failure t holds done
    unfold ignoreNotFound at done
    dsimp only at done
    split at done
    · rename_i e left failed
      split at done
      · cases done
      · rename_i other
        cases done
        exact passed _ _ other (ran.error s _ _ holds failed)
    · rename_i clean
      exact absurd done (clean failure t)

theorem ignoreNotFound_keeps (other : ∀ e, bad e → e.kind ≠ .notFound) (kept : Keeps bad inv act) :
    Keeps bad inv (ignoreNotFound act) :=
  ignoreNotFound_triple kept (fun e _ missing left => left fun worse => other e worse missing) fun _ _ _ left => left

theorem archiveHardDep_keeps (stored : Stored bad inv) : Keeps bad inv (archiveHardDep fs gk depPath) :=
  .bind (insertPath_keeps stored) fun _ => .runIf (archiveKmodPath_keeps stored)

theorem archiveSoftDep_triple {pre : State → Prop} {fails : IoError → State → Prop}
    (each : ∀ m, gk.kmodCtx.find softMod = some m → m.status ≠ .builtin → Triple pre
      (insertPath (join gk.kmodDstRoot m.relPath) >>= fun new => Eff.runIf (new = true) (ignoreNotFound
        (archiveKmodPath fs (join gk.kmodCtx.moduleRoot m.relPath) (join gk.kmodDstRoot m.relPath)))) (fun _ => pre) fails) :
    Triple pre (archiveSoftDep fs gk softMod) (fun _ => pre) fails := by
  unfold archiveSoftDep
  split
  · exact .pure fun _ h => h
  · rename_i m found
    split
    · exact .pure fun _ h => h
    · rename_i other
      exact each m found other

-- A module is fetched with its dependencies unless it is missing, built in or
-- in paths_seen already.
theorem kmodAndDeps_triple {pre : State → Prop} {fails : IoError → State → Prop}
    (missing : gk.kmodCtx.find name = none → ∀ s, pre s → fails (.ofKind .notFound) s)
    (own : ∀ m, gk.kmodCtx.find name = some m → m.status ≠ .builtin →
      Triple (fun t => ∃ s, pre s ∧ components (join gk.kmodDstRoot m.relPath) ∉ s.pathsSeen ∧
        t = {s with pathsSeen:=components (join gk.kmodDstRoot m.relPath) :: s.pathsSeen})
      (archiveKmodPath fs (join gk.kmodCtx.moduleRoot m.relPath) (join gk.kmodDstRoot m.relPath)) (fun _ => pre) fails)
    (hard : ∀ m, gk.kmodCtx.find name = some m → m.status ≠ .builtin → ∀ dep ∈ m.hardDepsPaths,
      Triple pre (archiveHardDep fs gk dep) (fun _ => pre) fails)
    (soft : ∀ m, gk.kmodCtx.find name = some m → m.status ≠ .builtin → ∀ dep ∈ m.softDepsPre ++ m.softDepsPost ++ m.weakDeps,
      Triple pre (archiveSoftDep fs gk dep) (fun _ => pre) fails) :
    Triple pre (gatherArchiveKmodAndDeps fs name gk) (fun _ => pre) fails := by
  unfold gatherArchiveKmodAndDeps
  split
  · rename_i none
    exact .fail (missing none)
  · rename_i m found
    split
    · exact .pure fun _ h => h
    · rename_i other
      refine insertPath_bind ?_ (.pure fun _ before => before.1)
      exact .bind (own m found other) fun _ => .bind (.forEach (hard m found other)) fun _ => .forEach (soft m found other)

theorem archiveSoftDep_keeps (stored : Stored bad inv) : Keeps bad inv (archiveSoftDep fs gk softMod) :=
  archiveSoftDep_triple fun _ _ _ => Keeps.bind (insertPath_keeps stored) fun _ =>
    .runIf (ignoreNotFound_keeps stored.missing (archiveKmodPath_keeps stored))

theorem gatherArchiveKmodAndDeps_keeps (stored : Stored bad inv) : Keeps bad inv (gatherArchiveKmodAndDeps fs name gk) := by
  refine kmodAndDeps_triple (fun _ _ holds _ => holds) (fun _ _ _ => (archiveKmodPath_keeps stored).weaken ?_ fun _ _ h => h)
    (fun _ _ _ _ _ => archiveHardDep_keeps stored) fun _ _ _ _ _ => archiveSoftDep_keeps stored
  rintro _ ⟨s,holds,_,rfl⟩
  exact stored.inserted s _ holds

-- The text of a NotFound is replaced where it is not ignored.
theorem gatherOneKmod_triple {pre post : State → Prop} {inner fails : IoError → State → Prop}
    (ran : Triple pre (gatherArchiveKmodAndDeps fs name gk) (fun _ => post) inner)
    (dropped : ∀ e s, e.kind = .notFound → inner e s → post s)
    (renamed : ∀ e s text, e.kind = .notFound → inner e s → fails ⟨.notFound,text⟩ s)
    (passed : ∀ e s, e.kind ≠ .notFound → inner e s → fails e s) (ignoreMissing : Bool) :
    Triple pre (gatherOneKmod fs gk ignoreMissing name) (fun _ => post) fails where
  ok := by
    intro s value t holds done
    unfold gatherOneKmod at done
    dsimp only at done
    split at done
    · rename_i e left failed
      split at done
      · rename_i missing
        split at done <;> cases done
        exact dropped e _ missing (ran.error s e _ holds failed)
      · cases done
    · exact ran.ok s value t holds done
  error := by
    intro s failure t holds done
    unfold gatherOneKmod at done
    dsimp only at done
    split at done
    · rename_i e left failed
      have left := ran.error s e left holds failed
      split at done
      · rename_i missing
        split at done <;> cases done
        exact renamed e _ _ missing left
      · rename_i other
        cases done
        exact passed _ _ other left
    · rename_i clean
      exact absurd done (clean failure t)

theorem gatherOneKmod_carries (other : ∀ e, bad e → e.kind ≠ .notFound)
    (kept : Keeps bad inv (gatherArchiveKmodAndDeps fs name gk)) (ignoreMissing : Bool) :
    Keeps bad inv (gatherOneKmod fs gk ignoreMissing name) :=
  gatherOneKmod_triple kept (fun e _ missing left => left fun worse => other e worse missing)
    (fun e _ _ missing left _ => left fun worse => other e worse missing) (fun _ _ _ left => left) ignoreMissing

theorem gatherOneKmod_keeps (stored : Stored bad inv) (ignoreMissing : Bool) :
    Keeps bad inv (gatherOneKmod fs gk ignoreMissing name) :=
  gatherOneKmod_carries stored.missing (gatherArchiveKmodAndDeps_keeps stored) ignoreMissing

theorem gatherKmodsInit_keeps (steady : Steady bad inv) : Keeps bad inv (gatherKmodsInit host conf) := by
  refine .bind .ofExcept fun krel => ?_
  dsimp only
  split
  · exact .fail
  · refine .bind (.forEach (fun file => ?_) _) fun _ => .pure
    exact .bind (insertPath_keeps steady.toStored) fun _ => .runIf (ignoreNotFound_keeps steady.missing (archiveKmodPath_keeps steady.toStored))

theorem knownKmods_keeps (steady : Steady bad inv) : Keeps bad inv (knownKmods host conf) := by
  refine .bind .read fun known => ?_
  cases known with
  | some gk => exact .pure
  | none =>
    refine .bind (gatherKmodsInit_keeps steady) fun gk => .bind ?_ fun _ => .pure
    exact Triple.update fun s holds => steady.kmods s _ holds

theorem gatherArchiveKmods_keeps (steady : Steady bad inv) : Keeps bad inv (gatherArchiveKmods host conf kmods ignoreMissing) :=
  .bind (knownKmods_keeps steady) fun _ => .forEach (fun _ => gatherOneKmod_keeps steady.toStored ignoreMissing) _

theorem archiveNew_keeps (steady : Steady bad inv) : Keeps bad inv (archiveNew p amd c) :=
  .bind (gatherArchiveDirs_keeps steady.toStored) fun _ => .bind (archive_keeps steady.toStored) fun _ =>
    .bind (insertPath_keeps steady.toStored) fun _ => .pure

theorem manifestDir_keeps (steady : Steady bad inv) : Keeps bad inv (manifestDir fs conf name) := by
  refine .bind .ofExcept fun p => .bind pathSeen_keeps fun seen => ?_
  split
  · exact .pure
  · exact archiveNew_keeps steady

theorem manifestSlink_keeps (steady : Steady bad inv) : Keeps bad inv (manifestSlink fs conf name slinkTgt) := by
  refine .bind .ofExcept fun p => .bind pathSeen_keeps fun seen => ?_
  split
  · exact .pure
  · exact .bind .ofExcept fun _ => archiveNew_keeps steady

theorem manifestFile_keeps (steady : Steady bad inv) : Keeps bad inv (manifestFile fs conf name src) := by
  refine .bind .ofExcept fun p => .bind pathSeen_keeps fun seen => ?_
  split
  · exact .pure
  · cases src with
    | some location =>
      exact .bind .ofExcept fun _ => .bind .ofExcept fun ⟨_,_⟩ => .bind archiveMd_keeps fun _ => archiveNew_keeps steady
    | none => exact archiveNew_keeps steady

theorem manifestAutorun_keeps (stable : Stable bad inv) : Keeps bad inv (manifestAutorun fs conf name) := by
  refine .bind .ofExcept fun src => .bind .read fun idx => .bind .ofExcept fun dst => .bind (.runIf ?_) fun _ => ?_
  · exact .bind (archive_keeps stable.toStored) fun _ => .bind (insertPath_keeps stable.toStored) fun _ => .pure
  · refine .bind .ofExcept fun ⟨_,_⟩ => .bind archiveMd_keeps fun _ => .bind (archive_keeps stable.toStored) fun _ => ?_
    exact Triple.update fun s holds => stable.autoruns s _ holds

theorem manifestTree_keeps (steady : Steady bad inv) : Keeps bad inv (manifestTree fs conf fuel name src) := by
  refine .bind .ofExcept fun dst => ?_
  split
  · exact .fail
  · exact .bind .ofExcept fun _ => gatherArchiveData_keeps steady

theorem directive_steady (steady : Steady bad inv) (other : etype ≠ .autorun) : Keeps bad inv (directive host conf fuel etype args) := by
  cases etype with
  | dir => exact .bind (manifestDir_keeps steady) fun _ => .pure
  | slink => exact .bind (manifestSlink_keeps steady) fun _ => .pure
  | includeManifest =>
    refine .bind (.bind .ofExcept fun _ => .bind .ofExcept fun _ => .bind .ofExcept fun ⟨_,_⟩ => .pure) fun _ => .pure
  | file => exact .bind (manifestFile_keeps steady) fun _ => .pure
  | bin => exact .bind .ofExcept fun _ => .bind (gatherArchiveElfs_keeps steady) fun _ => .pure
  | tryBin => exact .bind .ofExcept fun _ => .bind (gatherArchiveElfs_keeps steady) fun _ => .pure
  | kmod =>
    refine .bind ?_ fun _ => .pure
    unfold manifestKmod
    split
    · exact .fail
    · exact gatherArchiveKmods_keeps steady
  | tryKmod =>
    refine .bind ?_ fun _ => .pure
    unfold manifestKmod
    split
    · exact .fail
    · exact gatherArchiveKmods_keeps steady
  | autorun => exact absurd rfl other
  | tree => exact .bind (manifestTree_keeps steady) fun _ => .pure
  | filter => exact .bind .ofExcept fun _ => .bind (insertPath_keeps steady.toStored) fun _ => .pure

theorem manifestAutoruns_keeps (stable : Stable bad inv) : Keeps bad inv (manifestAutoruns fs conf locations) :=
  .bind .read fun _ => .bind (.forEach (fun _ => manifestAutorun_keeps stable) _) fun _ => .bind .read fun _ => .runIf .fail

theorem directive_keeps (stable : Stable bad inv) (etype : Etype) : Keeps bad inv (directive host conf fuel etype args) := by
  by_cases autorun : etype = .autorun
  · subst autorun
    exact .bind (manifestAutoruns_keeps stable) fun _ => .pure
  · exact directive_steady stable.steady autorun

theorem festVisit_keeps (stable : Stable bad inv) : Keeps bad inv (festVisit host conf fuel fest rest) :=
  festVisit_triple (fun _ h => h) (fun _ _ _ holds _ => holds) fun _ _ etype _ _ _ _ => directive_keeps stable etype

end stable

theorem manifestParse_keeps {bad : IoError → Prop} {inv : State → Prop} (stable : Stable bad inv) :
    Keeps bad inv (manifestParse host conf fuel fests) := by
  refine .bind ?_ fun _ => Worklist.loop_keeps (fun _ _ => festVisit_keeps stable) fuel _
  exact Triple.update fun s holds => stable.autoruns s _ holds

theorem manifestParse_runs (ran : (manifestParse host conf fuel fests).run s = (.ok (),t)) :
    Worklist.Runs (festVisit host conf fuel) fests.reverse {s with autorunIdx:=0} [] t :=
  Worklist.loop_runs ran

-- Nothing is ever taken out of the archive or out of paths_seen.
structure Grows (before after : State) : Prop where
  archived : before.archived <+: after.archived
  seen : ∀ cs ∈ before.pathsSeen, cs ∈ after.pathsSeen

theorem Grows.refl (s : State) : Grows s s := ⟨List.prefix_rfl,fun _ h => h⟩

theorem grows_stable (start : State) : Stable (fun _ => False) (Grows start) where
  archived := fun _ _ _ grown _ => ⟨grown.archived.trans (List.prefix_append _ _),grown.seen⟩
  refused := fun _ _ _ _ grown _ _ => ⟨grown.archived,grown.seen⟩
  inserted := fun _ _ grown => ⟨grown.archived,fun x old => List.mem_cons_of_mem _ (grown.seen x old)⟩
  needed := fun _ _ grown => ⟨grown.archived,grown.seen⟩
  kmods := fun _ _ grown => ⟨grown.archived,grown.seen⟩
  autoruns := fun _ _ grown => ⟨grown.archived,grown.seen⟩
  missing := fun _ impossible => impossible.elim

theorem runCalls_concat (calls : List Call) (c : Call) (a : Archive) :
    (runCalls (calls ++ [c])).run a = (runCalls calls >>= fun _ => c.run).run a := by
  induction calls generalizing a with
  | nil =>
    change (c.run >>= fun _ => (pure () : Write Unit)).run a = c.run.run a
    rw [bind_run]
    split
    · rename_i ran
      rw [ran]
      rfl
    · rename_i ran
      rw [ran]
  | cons first rest ih =>
    change (first.run >>= fun _ => runCalls (rest ++ [c])).run a = ((first.run >>= fun _ => runCalls rest) >>= fun _ => c.run).run a
    simp only [bind_run,ih]
    cases first.run.run a with
    | mk result middle => cases result <;> rfl

-- The writer's own failures are never a NotFound.
section refusals

def NotMissing (e : IoError) : Prop := e.kind ≠ .notFound

instance : DecidablePred NotMissing := fun e => inferInstanceAs (Decidable (e.kind ≠ .notFound))

def InvalidInput (e : IoError) : Prop := e.kind = .invalidInput

instance : DecidablePred InvalidInput := fun e => inferInstanceAs (Decidable (e.kind = .invalidInput))

theorem InvalidInput.notMissing (invalid : InvalidInput e) : NotMissing e := by
  unfold NotMissing
  rw [show e.kind = .invalidInput from invalid]
  decide

-- All that the archive functions fail with.
def WriterError (e : IoError) : Prop :=
  InvalidInput e ∨ e.kind = .unexpectedEof ∨ e = ⟨.panic,"len.try_into().unwrap()"⟩ ∨
    e = ⟨.panic,"assert_eq!(archive_padlen(..), 0)"⟩

theorem WriterError.notMissing (refused : WriterError e) : NotMissing e := by
  rcases refused with invalid | short | rfl | rfl
  · exact invalid.notMissing
  · unfold NotMissing
    rw [short]
    decide
  · exact nofun
  · exact nofun

variable {good : IoError → Prop}

theorem writeName_never : FailsOnly good (writeName fname) :=
  .bind .update fun _ => .bind .update fun _ => .bind .read fun _ =>
    .bind .update fun _ => .update

theorem writeDataPad_never : FailsOnly good writeDataPad :=
  .bind .read fun _ => .bind .update fun _ => .update

theorem takeIno_never : FailsOnly good takeIno :=
  .bind .read fun _ => .bind .update fun _ => .pure

theorem seek_error (failed : dataAlignSeek state md fname = .error e) : WriterError e := by
  unfold dataAlignSeek at failed
  dsimp only at failed
  split at failed
  · split at failed
    · cases failed
    · split at failed
      · cases failed
      · cases failed
        exact .inr (.inr (.inl rfl))
  · cases failed

theorem archivePath_invalid : FailsOnly InvalidInput (archivePath p md) := by
  refine .bind (.ofExcept fun _ => trim_rejects) fun fname => ?_
  split
  · exact .fail (by decide)
  · exact .bind takeIno_never fun _ => .bind .update fun _ => .bind .update fun _ => writeName_never

theorem archiveSymlink_refuses : FailsOnly WriterError (archiveSymlink p md tgt) := by
  refine .bind (.ofExcept fun _ failed => .inl (trim_rejects failed)) fun fname => ?_
  split
  · exact .fail (.inl rfl)
  · split
    · exact .fail (.inl rfl)
    · exact .bind takeIno_never fun _ => .bind .update fun _ => .bind .update fun _ =>
        .bind writeName_never fun _ => .bind .update fun _ => .bind .update fun _ =>
          writeDataPad_never

theorem archiveFile_refuses : FailsOnly WriterError (archiveFile p md data) := by
  refine .bind (.ofExcept fun _ failed => .inl (trim_rejects failed)) fun fname => ?_
  split
  · exact .fail (.inl rfl)
  · refine .bind .read fun _ => .bind (.ofExcept fun _ => seek_error) fun seek => .bind takeIno_never fun _ =>
      .bind .update fun _ => .bind .update fun _ => .bind ?_ fun _ => ?_
    · unfold writeFileName
      split
      · refine .bind .update fun _ => .bind .update fun _ => .bind .read fun _ => ?_
        dsimp only
        split
        · exact .fail (.inr (.inr (.inr rfl)))
        · exact .bind .update fun _ => .update
      · exact writeName_never
    · unfold copyData
      split
      · refine .bind .update fun _ => ?_
        split
        · exact .fail (.inr (.inl rfl))
        · exact .bind .update fun _ => writeDataPad_never
      · exact .pure

theorem call_refuses (c : Call) : FailsOnly WriterError c.run := by
  cases c with
  | path p md => exact archivePath_invalid.mono fun _ => .inl
  | symlink p md tgt => exact archiveSymlink_refuses
  | file p md data => exact archiveFile_refuses
  | trailer =>
    exact .bind (.bind .update fun _ => .bind .update fun _ => .bind .read fun _ =>
      .bind .update fun _ => .bind .update fun _ => .read) fun _ => .pure

theorem call_never (c : Call) : FailsOnly NotMissing c.run := (call_refuses c).mono fun _ => WriterError.notMissing

end refusals

-- No call changes the properties of the archive.
section properties
variable {bad : IoError → Prop} {props : ArchiveProperties}

def Fixed (props : ArchiveProperties) (a : Archive) : Prop := a.state.props = props

theorem writeAll_fixed : Keeps bad (Fixed props) (writeAll bytes) := Triple.update fun _ same => same
theorem advance_fixed : Keeps bad (Fixed props) (advance n) := Triple.update fun _ same => same

theorem takeIno_fixed : Keeps bad (Fixed props) takeIno :=
  .bind .read fun _ => .bind (Triple.update fun _ same => same) fun _ => .pure

theorem writeName_fixed : Keeps bad (Fixed props) (writeName fname) :=
  .bind writeAll_fixed fun _ => .bind advance_fixed fun _ => .bind .read fun _ => .bind writeAll_fixed fun _ => advance_fixed

theorem writeDataPad_fixed : Keeps bad (Fixed props) writeDataPad :=
  .bind .read fun _ => .bind writeAll_fixed fun _ => advance_fixed

theorem archivePath_fixed : Keeps bad (Fixed props) (archivePath p md) := by
  refine .bind .ofExcept fun fname => ?_
  split
  · exact .fail
  · exact .bind takeIno_fixed fun _ => .bind writeAll_fixed fun _ => .bind advance_fixed fun _ => writeName_fixed

theorem archiveSymlink_fixed : Keeps bad (Fixed props) (archiveSymlink p md tgt) := by
  refine .bind .ofExcept fun fname => ?_
  split
  · exact .fail
  · split
    · exact .fail
    · exact .bind takeIno_fixed fun _ => .bind writeAll_fixed fun _ => .bind advance_fixed fun _ =>
        .bind writeName_fixed fun _ => .bind writeAll_fixed fun _ => .bind advance_fixed fun _ => writeDataPad_fixed

theorem writeFileName_fixed : Keeps bad (Fixed props) (writeFileName fname seek) := by
  unfold writeFileName
  split
  · refine .bind writeAll_fixed fun _ => .bind advance_fixed fun _ => .bind .read fun _ => ?_
    dsimp only
    split
    · exact .fail
    · exact .bind writeAll_fixed fun _ => advance_fixed
  · exact writeName_fixed

theorem copyData_fixed : Keeps bad (Fixed props) (copyData md data) := by
  unfold copyData
  split
  · refine .bind writeAll_fixed fun _ => ?_
    split
    · exact .fail
    · exact .bind advance_fixed fun _ => writeDataPad_fixed
  · exact .pure

theorem archiveFile_fixed : Keeps bad (Fixed props) (archiveFile p md data) := by
  refine .bind .ofExcept fun fname => ?_
  split
  · exact .fail
  · exact .bind .read fun _ => .bind .ofExcept fun seek => .bind takeIno_fixed fun _ => .bind writeAll_fixed fun _ =>
      .bind advance_fixed fun _ => .bind writeFileName_fixed fun _ => copyData_fixed

theorem call_fixed (c : Call) : Keeps bad (Fixed props) c.run := by
  cases c with
  | path p md => exact archivePath_fixed
  | symlink p md tgt => exact archiveSymlink_fixed
  | file p md data => exact archiveFile_fixed
  | trailer =>
    exact .bind (.bind writeAll_fixed fun _ => .bind advance_fixed fun _ => .bind .read fun _ =>
      .bind writeAll_fixed fun _ => .bind advance_fixed fun _ => .read) fun _ => .pure

theorem fixed_stable (props : ArchiveProperties) : Stable (fun _ => False) fun s => Fixed props s.archive where
  archived := fun s c a same ran => (call_fixed c : Keeps (fun _ => False) _ _).ok s.archive () a same ran
  refused := fun s c e a same ran fine => (call_fixed c : Keeps (fun _ => False) _ _).error s.archive e a same ran fine
  inserted := fun _ _ same => same
  needed := fun _ _ same => same
  kmods := fun _ _ same => same
  autoruns := fun _ _ same => same
  missing := nofun

end properties

-- The archive is what the logged calls write, one after the other.
def Logged (empty : Archive) (s : State) : Prop := (runCalls s.archived).run empty = (.ok (),s.archive)

theorem logged_stable (empty : Archive) : Stable NotMissing (Logged empty) where
  archived := by
    intro s c a logged ran
    unfold Logged
    rw [runCalls_concat,bind_run_ok logged,ran]
  refused := by
    intro s c e a logged ran mild
    exact absurd ((call_never c).error _ _ _ trivial ran) mild
  inserted := fun _ _ logged => logged
  needed := fun _ _ logged => logged
  kmods := fun _ _ logged => logged
  autoruns := fun _ _ logged => logged
  missing := fun _ bad => bad

theorem manifestParse_logged (start : s.archived = []) (ran : (manifestParse host conf fuel fests).run s = (.ok (),t)) :
    (runCalls t.archived).run s.archive = (.ok (),t.archive) := by
  have logged : Logged s.archive s := by
    unfold Logged
    rw [start]
    rfl
  exact (manifestParse_keeps (logged_stable s.archive)).ok s () t logged ran

end Rapido.Cut
