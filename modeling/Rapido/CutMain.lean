import Rapido.SeenPaths
import Rapido.KmodGather
import Rapido.ConfAgreement

-- src/bin/rapido-cut.rs: what main adds to the archive after the manifests.
namespace Rapido.Cut
open UnixPath Cpio Text KvConf Eff

def RAPIDO_INIT_PATH : Name := asPath "target/release/rapido-init"
def RAPIDO_BASH_RC_PATH : Path := asPath "vm_autorun.env"

def SYMLINK_AMD : ArchiveMd := ⟨1,S_IFLNK ||| 0o777,0,0,0,0,0,0⟩

-- paths_seen is only read from here on.
def archiveKmodsSymlink : Gather Unit := do
  let seen ← pathSeen (asPath "/lib")
  if seen then archive (.symlink (asPath "/lib/modules") SYMLINK_AMD (asPath "/usr/lib/modules"))
  else archive (.symlink (asPath "/lib") SYMLINK_AMD (asPath "/usr/lib"))

-- if !paths_seen.contains(p) { archive_symlink(p, tgt) }
def symlinkUnseen (p tgt : Path) : Gather Unit := do
  let seen ← pathSeen p
  Eff.runIf (seen = false) (archive (.symlink p SYMLINK_AMD tgt))

def sbinSymlink : Gather Unit := do
  let seen ← pathSeen (asPath "/sbin")
  if seen then do
    let own ← pathSeen (asPath "/sbin/modprobe")
    let there ← pathSeen (asPath "/usr/sbin/modprobe")
    Eff.runIf (own = false ∧ there = true)
      (archive (.symlink (asPath "/sbin/modprobe") SYMLINK_AMD (asPath "/usr/sbin/modprobe")))
  else archive (.symlink (asPath "/sbin") SYMLINK_AMD (asPath "/usr/sbin"))

def populateDefaultSymlinks : Gather Unit := do
  symlinkUnseen (asPath "/lib64") (asPath "/usr/lib64")
  symlinkUnseen (asPath "/bin") (asPath "/usr/bin")
  sbinSymlink
  archiveKmodsSymlink

def coreElfs : List GatherEnt :=
  .nameDst RAPIDO_INIT_PATH (asPath "/rdinit") :: ["mount","setsid","bash","stty","modprobe"].map fun n => .nameStatic (asPath n)

-- rapido.conf with its metadata, or none where it does not exist
def archiveRapidoConf (file : Option (Metadata × List UInt8)) : Gather Unit :=
  match file with
  | none => archive (.path (asPath "/rapido.conf") CPIO_AMD_DEFAULT)
  | some (md,bytes) => do
    let amd ← archiveMd md
    archive (.file (asPath "/rapido.conf") amd bytes)

def archiveRapidoRc (fs : FileSystem) : Gather Unit := do
  let (md,bytes) ← Eff.ofExcept (fs.fileOpen RAPIDO_BASH_RC_PATH)
  let amd ← archiveMd md
  archive (.file (asPath "/rapido.rc") amd bytes)

def gatherCoreElfs (host : Host) (fuel : Nat) : Gather Unit := gatherArchiveElfs host fuel coreElfs

def gatherConfKmods (host : Host) (conf : Map) : Gather Unit :=
  gatherArchiveKmods host conf ((confKmodDeps conf).map Utf8.encode) false

-- main from the point where the output file is open and rapido.conf is read.
def cutMain (host : Host) (file : Option (Metadata × List UInt8)) (conf : Map) (fuel : Nat) (fests : List Fest) : Gather Unit := do
  archiveRapidoConf file
  manifestParse host conf fuel fests
  archiveRapidoRc host.toFileSystem
  gatherCoreElfs host fuel
  gatherConfKmods host conf
  populateDefaultSymlinks
  archive .trailer

-- Whoever archives a path has put it into paths_seen first, or knows of it
-- otherwise. `admitted` paths may be archived next.
structure Admission (inv : State → Prop) (admitted : List Component → State → Prop) : Prop where
  enter : ∀ s cs, inv s → cs ∉ s.pathsSeen → admitted cs {s with pathsSeen:=cs :: s.pathsSeen}
  keep : ∀ s (c : Call) a, admitted (components c.target) s → inv {s with archive:=a,archived:=s.archived ++ [c]}
  between : ∀ s (c : Call) a cs, admitted cs s → components c.target ∉ s.pathsSeen →
    admitted cs {s with archive:=a,archived:=s.archived ++ [c],pathsSeen:=components c.target :: s.pathsSeen}
  -- a failure, also between the two sides of a parent
  stopped : ∀ s a cs, admitted cs s → inv {s with archive:=a}
  halfway : ∀ s a cs ds, admitted cs s → inv {s with archive:=a,pathsSeen:=ds :: s.pathsSeen}
  kmods : ∀ s gk, inv s → inv {s with gk:=gk}

section admission
variable {inv : State → Prop} {admitted : List Component → State → Prop} {host : Host} {fs : FileSystem} {conf : Map}
  {dst : Path} {amd : ArchiveMd} {cs : List Component}

abbrev Maintains (inv : State → Prop) (act : Gather α) : Prop := Triple inv act (fun _ => inv) fun _ => inv

theorem archiveMd_maintains : Maintains inv (archiveMd md) := archiveMd_triple (fun _ _ before _ => before) fun _ _ before _ => before

theorem gatherArchiveDirs_admitted (admission : Admission inv admitted) :
    Triple (admitted cs) (gatherArchiveDirs p amd) (fun _ => admitted cs) fun _ => inv := by
  have stop : ∀ s, admitted cs s → inv s := fun s before => admission.stopped s s.archive cs before
  refine gatherArchiveDirs_triple (fun _ _ _ => stop) stop fun p => insertPath_bind ?_ ?_
  · refine .runIf (fun _ => archive_triple ?_ ?_) fun no => absurd rfl no
    · rintro _ a ⟨s,before,new,rfl⟩ _
      exact admission.between s _ a cs before new
    · rintro _ e a ⟨s,before,_,rfl⟩ _
      exact admission.halfway s a cs _ before
  · exact .runIf (fun yes => absurd yes Bool.noConfusion) fun _ _ before => before.1

theorem archive_admitted (admission : Admission inv admitted) (aim : c.target = dst) :
    Triple (admitted (components dst)) (archive c) (fun _ => inv) fun _ => inv := by
  subst aim
  exact archive_triple (fun s a before _ => admission.keep s c a before) fun s _ a before _ => admission.stopped s a _ before

-- Kernel modules
theorem archiveKmodPath_admitted (admission : Admission inv admitted) :
    Triple (admitted (components dst)) (archiveKmodPath fs src dst) (fun _ => inv) fun _ => inv := by
  have failed : ∀ s, admitted (components dst) s → inv s := fun s before => admission.stopped s s.archive _ before
  refine .ofExcept_bind (fun md _ => ?_) fun _ _ s before => failed s before
  refine .bind (archiveMd_triple (fun _ _ before _ => before) fun s _ before _ => failed s before) fun amd => ?_
  refine .bind (gatherArchiveDirs_admitted admission) fun _ => .ofExcept_bind (fun ⟨_,bytes⟩ _ => ?_) fun _ _ s before => failed s before
  exact archive_admitted admission rfl

theorem insertNew_admitted {act : Gather Unit} (admission : Admission inv admitted)
    (ran : Triple (admitted (components dst)) act (fun _ => inv) fun _ => inv) :
    Maintains inv (insertPath dst >>= fun new => Eff.runIf (new = true) act) := by
  refine insertPath_bind (.runIf (fun _ => ran.weaken ?_ fun _ _ h => h) fun no => absurd rfl no) ?_
  · rintro _ ⟨s,before,new,rfl⟩
    exact admission.enter s _ before new
  · exact .runIf (fun yes => absurd yes Bool.noConfusion) fun _ _ before => before.1

theorem ignoreNotFound_admitted (ran : Triple pre act (fun _ => inv) fun _ => inv) :
    Triple pre (ignoreNotFound act) (fun _ => inv) fun _ => inv :=
  ignoreNotFound_triple ran (fun _ _ _ left => left) fun _ _ _ left => left

theorem kmodAndDeps_maintains (admission : Admission inv admitted) : Maintains inv (gatherArchiveKmodAndDeps fs name gk) := by
  refine kmodAndDeps_triple (fun _ _ before => before) (fun m _ _ => (archiveKmodPath_admitted admission).weaken ?_ fun _ _ h => h)
    (fun _ _ _ _ _ => insertNew_admitted admission (archiveKmodPath_admitted admission)) fun _ _ _ _ _ => ?_
  · rintro _ ⟨s,before,new,rfl⟩
    exact admission.enter s _ before new
  · exact archiveSoftDep_triple fun _ _ _ =>
      insertNew_admitted admission (ignoreNotFound_admitted (archiveKmodPath_admitted admission))

theorem gatherOneKmod_maintains (admission : Admission inv admitted) (ignoreMissing : Bool) :
    Maintains inv (gatherOneKmod fs gk ignoreMissing name) :=
  gatherOneKmod_triple (kmodAndDeps_maintains admission) (fun _ _ _ left => left) (fun _ _ _ _ left => left)
    (fun _ _ _ left => left) ignoreMissing

theorem gatherArchiveKmods_maintains (admission : Admission inv admitted) :
    Maintains inv (gatherArchiveKmods host conf kmods ignoreMissing) := by
  have init : Maintains inv (gatherKmodsInit host conf) := by
    refine .ofExcept_bind (fun krel _ => ?_) fun _ _ _ before => before
    dsimp only
    split
    · exact .fail fun _ before => before
    · refine .bind (.forEach fun file _ => ?_) fun _ => .pure fun _ h => h
      exact insertNew_admitted admission (ignoreNotFound_admitted (archiveKmodPath_admitted admission))
  have known : Maintains inv (knownKmods host conf) := by
    have start : Maintains inv (Eff.read (·.gk) : Gather (Option GatherKmods)) := .read fun _ h => h
    refine .bind start fun found => ?_
    cases found with
    | some gk => exact .pure fun _ h => h
    | none => exact .bind init fun gk => .bind (.update fun s before => admission.kmods s _ before) fun _ => .pure fun _ h => h
  exact .bind known fun gk => .forEach fun _ _ => gatherOneKmod_maintains admission ignoreMissing

end admission

-- The entries of a step.
def archivedBetween (before after : State) : List Call := after.archived.drop before.archived.length

-- From the entry with the given number on, everything archived is in paths_seen.
def Recorded (n : Nat) (s : State) : Prop := n ≤ s.archived.length ∧ ∀ cs ∈ archivedPaths (s.archived.drop n), cs ∈ s.pathsSeen

theorem drop_concat {calls : List Call} (within : n ≤ calls.length) (c : Call) :
    archivedPaths ((calls ++ [c]).drop n) = archivedPaths (calls.drop n) ++ [components c.target] := by
  rw [List.drop_append_of_le_length within,archivedPaths_concat]

theorem recorded_archive {s : State} {c : Call} {seen : List (List Component)} (within : n ≤ s.archived.length) (a : Archive)
    (each : ∀ cs ∈ archivedPaths (s.archived.drop n), cs ∈ seen) (own : components c.target ∈ seen) :
    Recorded n {s with archive:=a,archived:=s.archived ++ [c],pathsSeen:=seen} := by
  refine ⟨by rw [List.length_append]; omega,fun cs inside => ?_⟩
  dsimp only at inside ⊢
  rw [drop_concat within] at inside
  rcases List.mem_append.mp inside with old | new
  · exact each cs old
  · exact List.mem_singleton.mp new ▸ own

theorem Recorded.insert (recorded : Recorded n s) (cs : List Component) : Recorded n {s with pathsSeen:=cs :: s.pathsSeen} :=
  ⟨recorded.1,fun ds inside => List.mem_cons_of_mem _ (recorded.2 ds inside)⟩

theorem recorded_admission (n : Nat) : Admission (Recorded n) fun cs s => Recorded n s ∧ cs ∈ s.pathsSeen where
  enter := fun _ cs recorded _ => ⟨recorded.insert cs,List.mem_cons_self⟩
  keep := fun _ _ a before => recorded_archive before.1.1 a before.1.2 before.2
  between := fun _ _ a _ before _ =>
    ⟨recorded_archive before.1.1 a (fun ds inside => List.mem_cons_of_mem _ (before.1.2 ds inside)) List.mem_cons_self,
      List.mem_cons_of_mem _ before.2⟩
  stopped := fun _ _ _ before => before.1
  halfway := fun _ _ _ ds before => before.1.insert ds
  kmods := fun _ _ recorded => recorded

theorem recorded_ledger (n : Nat) : Ledger (Recorded n) (fun cs s => Recorded n s ∧ cs ∈ s.pathsSeen)
    fun cs s => n ≤ s.archived.length ∧ ∀ ds ∈ archivedPaths (s.archived.drop n), ds ∈ s.pathsSeen ∨ ds = cs where
  promise := (recorded_admission n).enter
  keep := (recorded_admission n).keep
  between := (recorded_admission n).between
  owe := by
    intro s c a recorded _
    refine ⟨by rw [List.length_append]; exact Nat.le_add_right_of_le recorded.1,fun ds inside => ?_⟩
    dsimp only at inside ⊢
    rw [drop_concat recorded.1] at inside
    rcases List.mem_append.mp inside with old | last
    · exact .inl (recorded.2 ds old)
    · exact .inr (List.mem_singleton.mp last)
  pay := by
    rintro s cs ⟨within,owed⟩ _
    refine ⟨within,fun ds inside => ?_⟩
    rcases owed ds inside with old | rfl
    · exact List.mem_cons_of_mem _ old
    · exact List.mem_cons_self
  paid := by
    rintro s cs ⟨within,owed⟩ seen
    refine ⟨within,fun ds inside => ?_⟩
    rcases owed ds inside with old | rfl
    · exact old
    · exact seen
  needed := fun _ _ recorded => recorded

-- The directives other than autorun, whose entries are not put into paths_seen.
theorem directive_entered (other : etype ≠ .autorun) :
    Ensures (Recorded n) (directive host conf fuel etype args) fun _ => Recorded n := by
  have modules : ∀ ignoreMissing kmod, Ensures (Recorded n) (manifestKmod host conf ignoreMissing kmod) fun _ => Recorded n := by
    intro ignoreMissing kmod
    unfold manifestKmod
    split
    · exact .fail fun _ _ => trivial
    · exact (gatherArchiveKmods_maintains (recorded_admission n)).relax fun _ _ _ => trivial
  cases etype with
  | autorun => exact absurd rfl other
  | kmod => exact .bind (modules false _) fun _ => .pure fun _ h => h
  | tryKmod => exact .bind (modules true _) fun _ => .pure fun _ h => h
  | filter =>
    have insert : ∀ p, Ensures (Recorded n) (insertPath p) fun _ => Recorded n :=
      fun p => insertPath_triple (fun _ recorded _ => recorded.insert _) fun _ recorded _ => recorded
    exact Ensures.ofExcept_bind fun p _ => .bind (insert p) fun _ => .pure fun _ h => h
  | _ => exact directive_enters (recorded_ledger n) rfl

-- The next line holds another directive than autorun, if it holds any.
def NextInserts (fest : Fest) (_ : List Fest) (_ : State) : Prop :=
  ∀ bytes line etype args, fest.head? = some bytes → Utf8.decode bytes = some line → lineDirective line = some (etype,args) →
    etype ≠ .autorun

theorem festVisit_entered (inserts : NextInserts fest rest s) :
    Ensures (Recorded n) (festVisit host conf fuel fest rest) fun _ => Recorded n :=
  festVisit_triple (fun _ h => h) (fun _ _ _ _ => trivial) fun bytes line etype args first decoded words =>
    directive_entered (inserts bytes line etype args first decoded words)

theorem manifestParse_entered (inserts : Worklist.Meets (festVisit host conf fuel) NextInserts fests.reverse {s with autorunIdx:=0})
    (ran : (manifestParse host conf fuel fests).run s = (.ok (),t)) : Recorded s.archived.length t := by
  have start : Recorded s.archived.length {s with autorunIdx:=0} := ⟨Nat.le_refl _,by simp [archivedPaths]⟩
  refine (manifestParse_runs ran).invariant_meeting (fun _ => Recorded s.archived.length)
    (fun fest rest u items v before next visited => ?_)
    inserts start
  exact (festVisit_entered next).ok u items v before visited

-- From the entry with the given number on, nothing has one of the old paths,
-- which are all in paths_seen.
structure Spared (old : List (List Component)) (n : Nat) (s : State) : Prop where
  within : n ≤ s.archived.length
  seen : ∀ cs ∈ old, cs ∈ s.pathsSeen
  fresh : ∀ cs ∈ archivedPaths (s.archived.drop n), cs ∉ old

theorem spared_archive {s : State} {c : Call} {seen : List (List Component)} (spared : Spared old n s) (a : Archive)
    (grown : ∀ cs ∈ s.pathsSeen, cs ∈ seen) (own : components c.target ∉ old) :
    Spared old n {s with archive:=a,archived:=s.archived ++ [c],pathsSeen:=seen} := by
  refine ⟨by rw [List.length_append]; exact Nat.le_add_right_of_le spared.within,fun cs inside => grown cs (spared.seen cs inside),?_⟩
  intro cs inside
  dsimp only at inside
  rw [drop_concat spared.within] at inside
  rcases List.mem_append.mp inside with before | new
  · exact spared.fresh cs before
  · exact List.mem_singleton.mp new ▸ own

theorem Spared.insert (spared : Spared old n s) (cs : List Component) : Spared old n {s with pathsSeen:=cs :: s.pathsSeen} :=
  ⟨spared.within,fun ds inside => List.mem_cons_of_mem _ (spared.seen ds inside),spared.fresh⟩

theorem Spared.unseen (spared : Spared old n s) (new : cs ∉ s.pathsSeen) : cs ∉ old := fun inside => new (spared.seen cs inside)

theorem spared_admission (old : List (List Component)) (n : Nat) : Admission (Spared old n) fun cs s => Spared old n s ∧ cs ∉ old where
  enter := fun _ cs spared new => ⟨spared.insert cs,spared.unseen new⟩
  keep := fun _ _ a before => spared_archive before.1 a (fun _ h => h) before.2
  between := fun _ _ a _ before new =>
    ⟨spared_archive before.1 a (fun _ inside => List.mem_cons_of_mem _ inside) (before.1.unseen new),before.2⟩
  stopped := fun _ _ _ before => ⟨before.1.within,before.1.seen,before.1.fresh⟩
  halfway := fun _ _ _ ds before => ⟨before.1.within,(before.1.insert ds).seen,before.1.fresh⟩
  kmods := fun _ _ spared => ⟨spared.within,spared.seen,spared.fresh⟩

-- gather_archive_elfs archives a path first and inserts it then.
section spared
variable {old : List (List Component)} {n : Nat} {host : Host} {fs : FileSystem} {conf : Map} {dst : Path} {amd : ArchiveMd}

def Allowed (old : List (List Component)) (n : Nat) (dst : Path) (s : State) : Prop := Spared old n s ∧ components dst ∉ old

theorem archive_allowed (aim : c.target = dst) : Triple (Allowed old n dst) (archive c) (fun _ => Spared old n) fun _ => Spared old n :=
  archive_admitted (spared_admission old n) aim

theorem archive_unseen (aim : c.target = dst) :
    Triple (fun s => Spared old n s ∧ components dst ∉ s.pathsSeen) (archive c) (fun _ => Spared old n) fun _ => Spared old n :=
  (archive_allowed aim).weaken (fun _ before => ⟨before.1,before.1.unseen before.2⟩) fun _ _ h => h

theorem insertPath_spared : Maintains (Spared old n) (insertPath p) :=
  insertPath_triple (fun _ spared _ => spared.insert _) fun _ spared _ => spared

theorem spared_steps : EntrySteps dst (Allowed old n dst) (Spared old n) (Spared old n) fun _ => Spared old n where
  unresolved := fun _ before => before.1
  failed := fun _ _ before => before.1
  stopped := fun _ _ spared => spared
  needed := fun _ _ before => ⟨⟨before.1.within,before.1.seen,before.1.fresh⟩,before.2⟩
  archived := fun _ aim => archive_allowed aim
  inserted := insertPath_spared

theorem elfGot_spared : Maintains (Spared old n) (elfGot host ent src dst md rest) := by
  refine EntrySteps.got (fun _ : True => spared_steps) (fun _ spared _ => spared) (fun _ _ spared _ => spared) fun amd => ?_
  refine (gatherArchiveDirs_admitted (spared_admission old n)).weaken ?_ fun _ _ allowed => ⟨allowed,trivial⟩
  exact fun _ before => ⟨before.1,before.1.unseen before.2⟩

theorem elfVisit_spared (ent : GatherEnt) (rest : List GatherEnt) : Maintains (Spared old n) (elfVisit host ent rest) :=
  elfVisit_triple (fun _ _ _ _ _ spared => spared) (fun _ _ _ spared => spared) (fun _ spared => spared)
    fun _ _ _ _ => elfGot_spared

theorem gatherArchiveElfs_spared : Maintains (Spared old n) (gatherArchiveElfs host fuel elfs) := by
  refine Worklist.loop_triple (fun _ => Spared old n) ?_ elfVisit_spared fuel elfs.reverse
  exact fun _ _ h => h

-- The default symlinks are looked up in paths_seen, except /lib/modules.
theorem symlinkUnseen_spared : Maintains (Spared old n) (symlinkUnseen p tgt) := by
  refine pathSeen_bind (.runIf (fun no => absurd no Bool.noConfusion) fun _ _ before => before.1) ?_
  exact .runIf (fun _ => archive_unseen rfl) fun no => absurd rfl no

theorem sbinSymlink_spared : Maintains (Spared old n) sbinSymlink := by
  refine pathSeen_bind ?_ ?_
  · refine pathSeen_bind ?_ ?_
    · exact .bind (.read fun _ before => before.1.1) fun _ => .runIf (fun both => absurd both.1 Bool.noConfusion) fun _ _ h => h
    · have looked : Triple (fun s => (Spared old n s ∧ components (asPath "/sbin") ∈ s.pathsSeen) ∧
            components (asPath "/sbin/modprobe") ∉ s.pathsSeen)
          (pathSeen (asPath "/usr/sbin/modprobe")) (fun _ => Allowed old n (asPath "/sbin/modprobe")) fun _ => Spared old n :=
        .read fun _ before => ⟨before.1.1,before.1.1.unseen before.2⟩
      exact .bind looked fun _ => .runIf (fun _ => archive_allowed rfl) fun _ _ before => before.1
  · rw [if_neg Bool.false_ne_true]
    exact archive_unseen rfl

theorem archiveKmodsSymlink_spared (apart : components (asPath "/lib") ∈ seen → components (asPath "/lib/modules") ∉ old) :
    Triple (fun s => Spared old n s ∧ s.pathsSeen = seen) archiveKmodsSymlink (fun _ => Spared old n) fun _ => Spared old n := by
  refine pathSeen_bind ?_ ?_
  · rw [if_pos rfl]
    refine (archive_allowed rfl).weaken (fun s before => ⟨before.1.1,apart ?_⟩) fun _ _ h => h
    exact before.1.2 ▸ before.2
  · rw [if_neg Bool.false_ne_true]
    exact (archive_unseen rfl).weaken (fun _ before => ⟨before.1.1,before.2⟩) fun _ _ h => h

end spared

-- None of the symlinks is put into paths_seen.
def Unchanged (seen : List (List Component)) (s : State) : Prop := s.pathsSeen = seen

theorem archive_unchanged : Maintains (Unchanged seen) (archive c) :=
  archive_triple (fun _ _ same _ => same) fun _ _ _ same _ => same

theorem pathSeen_unchanged : Maintains (Unchanged seen) (pathSeen p) := .read fun _ same => same

theorem symlinkUnseen_unchanged : Maintains (Unchanged seen) (symlinkUnseen p tgt) :=
  .bind pathSeen_unchanged fun _ => .runIf (fun _ => archive_unchanged) fun _ _ same => same

theorem sbinSymlink_unchanged : Maintains (Unchanged seen) sbinSymlink := by
  refine .bind pathSeen_unchanged fun there => ?_
  split
  · exact .bind pathSeen_unchanged fun _ => .bind pathSeen_unchanged fun _ => .runIf (fun _ => archive_unchanged) fun _ _ same => same
  · exact archive_unchanged

theorem Maintains.and {inv other : State → Prop} {act : Gather α} (first : Maintains inv act) (second : Maintains other act) :
    Maintains (fun s => inv s ∧ other s) act where
  ok := fun s value t before ran => ⟨first.ok s value t before.1 ran,second.ok s value t before.2 ran⟩
  error := fun s e t before ran => ⟨first.error s e t before.1 ran,second.error s e t before.2 ran⟩

theorem populateDefaultSymlinks_spared (apart : components (asPath "/lib") ∈ seen → components (asPath "/lib/modules") ∉ old) :
    Triple (fun s => Spared old n s ∧ Unchanged seen s) populateDefaultSymlinks (fun _ => Spared old n) fun _ => Spared old n := by
  have link : ∀ p tgt, Triple (fun s => Spared old n s ∧ Unchanged seen s) (symlinkUnseen p tgt)
      (fun _ s => Spared old n s ∧ Unchanged seen s)
      fun _ => Spared old n :=
    fun p tgt => (Maintains.and symlinkUnseen_spared symlinkUnseen_unchanged).relax fun _ _ left => left.1
  have sbin : Triple (fun s => Spared old n s ∧ Unchanged seen s) sbinSymlink (fun _ s => Spared old n s ∧ Unchanged seen s)
      fun _ => Spared old n := (Maintains.and sbinSymlink_spared sbinSymlink_unchanged).relax fun _ _ left => left.1
  exact .bind (link _ _) fun _ => .bind (link _ _) fun _ => .bind sbin fun _ => archiveKmodsSymlink_spared apart

-- Archiving a symlink with a short name and target does not fail.
theorem symlink_accepted (p tgt : Path) (short : (pathTrimPrefixes p).isOk = true) (fits : tgt.length < PATH_MAX) (s : State) :
    ∃ a, (archive (.symlink p SYMLINK_AMD tgt)).run s =
      (.ok (),{s with archive:=a,archived:=s.archived ++ [.symlink p SYMLINK_AMD tgt]}) := by
  apply archive_ok
  have link : ¬SYMLINK_AMD.mode &&& S_IFMT ≠ S_IFLNK := by decide
  unfold Call.run archiveSymlink
  dsimp only
  obtain ⟨fname,trimmed⟩ := isOk_value short
  rw [trimmed,ofExcept_ok,pure_bind_run,if_neg (Nat.not_le.mpr fits),if_neg link]
  rfl

theorem symlinkUnseen_runs (p tgt : Path) (short : (pathTrimPrefixes p).isOk = true) (fits : tgt.length < PATH_MAX) (s : State) :
    ∃ t, (symlinkUnseen p tgt).run s = (.ok (),t) := by
  unfold symlinkUnseen pathSeen
  rw [read_bind_run]
  unfold Eff.runIf
  split
  · obtain ⟨a,ran⟩ := symlink_accepted p tgt short fits s
    exact ⟨_,ran⟩
  · exact ⟨s,rfl⟩

theorem sbinSymlink_runs (s : State) : ∃ t, sbinSymlink.run s = (.ok (),t) := by
  unfold sbinSymlink pathSeen
  rw [read_bind_run]
  split
  · rw [read_bind_run,read_bind_run]
    unfold Eff.runIf
    split
    · obtain ⟨a,ran⟩ := symlink_accepted (asPath "/sbin/modprobe") (asPath "/usr/sbin/modprobe") (by decide +kernel) (by decide +kernel) s
      exact ⟨_,ran⟩
    · exact ⟨s,rfl⟩
  · obtain ⟨a,ran⟩ := symlink_accepted (asPath "/sbin") (asPath "/usr/sbin") (by decide +kernel) (by decide +kernel) s
    exact ⟨_,ran⟩

def modulesLink : Call := .symlink (asPath "/lib/modules") SYMLINK_AMD (asPath "/usr/lib/modules")

-- With /lib in paths_seen, /lib/modules is archived whatever else there is.
theorem populateDefaultSymlinks_modules (seen : components (asPath "/lib") ∈ s.pathsSeen) :
    ∃ t a, Grows s t ∧ populateDefaultSymlinks.run s = (.ok (),{t with archive:=a,archived:=t.archived ++ [modulesLink]}) := by
  have stored := (grows_stable s).toStored
  obtain ⟨t,first⟩ := symlinkUnseen_runs (asPath "/lib64") (asPath "/usr/lib64") (by decide +kernel) (by decide +kernel) s
  obtain ⟨u,second⟩ := symlinkUnseen_runs (asPath "/bin") (asPath "/usr/bin") (by decide +kernel) (by decide +kernel) t
  obtain ⟨v,third⟩ := sbinSymlink_runs u
  obtain ⟨a,last⟩ := symlink_accepted (asPath "/lib/modules") (asPath "/usr/lib/modules") (by decide +kernel) (by decide +kernel) v
  have link : ∀ p tgt, Keeps (fun _ => False) (Grows s) (symlinkUnseen p tgt) :=
    fun p tgt => .bind pathSeen_keeps fun _ => .runIf (archive_keeps stored)
  have sbin : Keeps (fun _ => False) (Grows s) sbinSymlink := by
    refine .bind pathSeen_keeps fun _ => ?_
    split
    · exact .bind pathSeen_keeps fun _ => .bind pathSeen_keeps fun _ => .runIf (archive_keeps stored)
    · exact archive_keeps stored
  have grown : Grows s v := sbin.ok u _ v ((link _ _).ok t _ u ((link _ _).ok s _ t (.refl s) first) second) third
  refine ⟨v,a,grown,?_⟩
  unfold populateDefaultSymlinks
  rw [bind_run_ok first,bind_run_ok second,bind_run_ok third]
  unfold archiveKmodsSymlink pathSeen
  rw [read_bind_run,decide_eq_true (grown.seen _ seen),if_pos rfl]
  exact last

-- The entries of a step have none of the paths of earlier ones.
def Fresh (old new : List Call) : Prop := ∀ c ∈ new, components c.target ∉ archivedPaths old

theorem Spared.entries (spared : Spared (archivedPaths old) s.archived.length t) : Fresh old (archivedBetween s t) :=
  fun c inside => spared.fresh _ (mem_archivedPaths.mpr ⟨c,inside,rfl⟩)

-- The three steps after vm_autorun.env, each as far as it gets. `s` and `m` are
-- the states before and after manifest_parse.
def NothingOverwritten (host : Host) (conf : Map) (fuel : Nat) (s m r : State) : Prop :=
  ∀ elfs a, (gatherCoreElfs host fuel).run r = (elfs,a) → Fresh (archivedBetween s m) (archivedBetween r a) ∧
    (elfs = .ok () → ∀ kmods b, (gatherConfKmods host conf).run a = (kmods,b) →
      Fresh (archivedBetween s m ++ archivedBetween r a) (archivedBetween a b) ∧
      (kmods = .ok () → ∀ links c, populateDefaultSymlinks.run b = (links,c) →
        Fresh (archivedBetween s m ++ archivedBetween r a ++ archivedBetween a b) (archivedBetween b c)))

theorem spared_start {s : State} (seen : ∀ cs ∈ old, cs ∈ s.pathsSeen) : Spared old s.archived.length s :=
  ⟨Nat.le_refl _,seen,by simp [archivedPaths]⟩

theorem recorded_start (s : State) : Recorded s.archived.length s := ⟨Nat.le_refl _,by simp [archivedPaths]⟩

theorem maintained {inv : State → Prop} {act : Gather α} (always : Triple pre act (fun _ => inv) fun _ => inv) (start : pre s)
    (ran : act.run s = (result,t)) : inv t := by
  cases result with
  | ok value => exact always.ok s value t start ran
  | error e => exact always.error s e t start ran

-- What is old and what the step has added is in paths_seen.
theorem seen_added {older : List Call} (spared : Spared (archivedPaths older) n t) (recorded : Recorded s.archived.length t) :
    ∀ cs ∈ archivedPaths (older ++ archivedBetween s t), cs ∈ t.pathsSeen := by
  intro cs inside
  unfold archivedPaths at inside
  rw [List.map_append] at inside
  rcases List.mem_append.mp inside with old | new
  · exact spared.seen cs old
  · exact recorded.2 cs new

-- Only a manifest that provides something at /lib/modules is in the way.
theorem additions_fresh (inserts : Worklist.Meets (festVisit host conf fuel) NextInserts fests.reverse {s with autorunIdx:=0})
    (parsed : (manifestParse host conf fuel fests).run s = (.ok (),m)) (sourced : (archiveRapidoRc host.toFileSystem).run m = (.ok (),r)) :
    NothingOverwritten host conf fuel s m r ↔
      ∀ a b, (gatherCoreElfs host fuel).run r = (.ok (),a) → (gatherConfKmods host conf).run a = (.ok (),b) →
        components (asPath "/lib") ∈ b.pathsSeen →
        components (asPath "/lib/modules") ∉ archivedPaths (archivedBetween s m ++ archivedBetween r a ++ archivedBetween a b) := by
  constructor
  · intro fresh a b elfs kmods lib inside
    obtain ⟨t,arch,grown,ran⟩ := populateDefaultSymlinks_modules lib
    have last := ((fresh _ a elfs).2 rfl _ b kmods).2 rfl _ _ ran
    refine last modulesLink ?_ inside
    unfold archivedBetween
    dsimp only
    rw [List.drop_append_of_le_length grown.archived.length_le]
    exact List.mem_append_right _ List.mem_cons_self
  · intro apart elfs a gathered
    have manifest : ∀ cs ∈ archivedPaths (archivedBetween s m), cs ∈ r.pathsSeen := by
      have same : Ensures (Unchanged m.pathsSeen) (archiveRapidoRc host.toFileSystem) fun _ => Unchanged m.pathsSeen := by
        refine Ensures.ofExcept_bind fun ⟨_,bytes⟩ _ => .bind archiveMd_same fun amd => ?_
        exact archive_unchanged.relax fun _ _ _ => trivial
      rw [same.ok m () r rfl sourced]
      exact (manifestParse_entered inserts parsed).2
    have afterElfs := maintained gatherArchiveElfs_spared (spared_start manifest) gathered
    refine ⟨afterElfs.entries,?_⟩
    rintro rfl kmods b loaded
    have recorded := (gatherArchiveElfs_enters (recorded_ledger r.archived.length)).ok r () a (recorded_start r) gathered
    have afterKmods := maintained (gatherArchiveKmods_maintains (spared_admission _ _)) (spared_start (seen_added afterElfs recorded)) loaded
    refine ⟨afterKmods.entries,?_⟩
    rintro rfl links c linked
    have held := (gatherArchiveKmods_maintains (recorded_admission a.archived.length)).ok a () b (recorded_start a) loaded
    have before : Spared (archivedPaths (archivedBetween s m ++ archivedBetween r a ++ archivedBetween a b)) b.archived.length b ∧
        Unchanged b.pathsSeen b :=
      ⟨spared_start (seen_added afterKmods held),rfl⟩
    exact (maintained (populateDefaultSymlinks_spared (apart a b gathered loaded)) before linked).entries

-- A machine with an empty file wherever one is looked for but no module files,
-- and virtio_rng in the kernel.
def emptyMd : Metadata := plainMd (S_IFREG ||| 0o755) 1
def virtioRng : KmodModule := ⟨.builtin,[],[],[],[],[]⟩
def coreHost : Host := {bareHost with
  symlinkMetadata := fun p => if asPath "/lib/modules" <+: p then .error (.ofKind .notFound) else .ok emptyMd
  fileOpen := fun _ => .ok (emptyMd,[])
  kmodContextNew := fun root => .ok ⟨fun n => if n = asPath "virtio_rng" then some virtioRng else none,fun _ => none,root⟩
  cwd_absolute := root_absolute
  readDir_names := @lists_nothing
  canonicalize_absolute := @resolves_nothing}
def coreConf : Map := confDefaults.insert "KERNEL_RELEASE".toList "6.17".toList

@[irreducible] def confState : State := ((archiveRapidoConf none).run emptyState).2
@[irreducible] def parsedState (fest : Fest) : State := ((manifestParse coreHost coreConf 9 [fest]).run confState).2
@[irreducible] def sourcedState (fest : Fest) : State := ((archiveRapidoRc coreHost.toFileSystem).run (parsedState fest)).2
@[irreducible] def elfsState (fest : Fest) : State := ((gatherCoreElfs coreHost 9).run (sourcedState fest)).2
@[irreducible] def kmodsState (fest : Fest) : State := ((gatherConfKmods coreHost coreConf).run (elfsState fest)).2
@[irreducible] def linksState (fest : Fest) : State := (populateDefaultSymlinks.run (kmodsState fest)).2

def plainFest : Fest := [asPath "dir /a\n"]
def modulesFest : Fest := [asPath "dir /lib/modules\n"]

-- Each step succeeds on both manifests.
def stepsOutcomes (fest : Fest) : List (Except IoError Unit) :=
  [((manifestParse coreHost coreConf 9 [fest]).run confState).1,((archiveRapidoRc coreHost.toFileSystem).run (parsedState fest)).1,
    ((gatherCoreElfs coreHost 9).run (sourcedState fest)).1,((gatherConfKmods coreHost coreConf).run (elfsState fest)).1,
    (populateDefaultSymlinks.run (kmodsState fest)).1]

structure StepsRun (fest : Fest) : Prop where
  parsed : (manifestParse coreHost coreConf 9 [fest]).run confState = (.ok (),parsedState fest)
  sourced : (archiveRapidoRc coreHost.toFileSystem).run (parsedState fest) = (.ok (),sourcedState fest)
  elfs : (gatherCoreElfs coreHost 9).run (sourcedState fest) = (.ok (),elfsState fest)
  kmods : (gatherConfKmods coreHost coreConf).run (elfsState fest) = (.ok (),kmodsState fest)
  links : populateDefaultSymlinks.run (kmodsState fest) = (.ok (),linksState fest)

theorem steps_run (succeed : stepsOutcomes fest = List.replicate 5 (.ok ())) : StepsRun fest := by
  unfold stepsOutcomes at succeed
  simp only [List.replicate,List.cons.injEq,and_true] at succeed
  obtain ⟨parsed,sourced,elfs,kmods,links⟩ := succeed
  constructor
  · unfold parsedState
    exact run_ok parsed
  · unfold sourcedState
    exact run_ok sourced
  · unfold elfsState
    exact run_ok elfs
  · unfold kmodsState
    exact run_ok kmods
  · unfold linksState
    exact run_ok links

theorem plainFest_inserts : Worklist.Meets (festVisit coreHost coreConf 9) NextInserts [plainFest] {confState with autorunIdx:=0} := by
  refine Worklist.meets_cons ?_ fun items t ran => ?_
  · intro bytes line etype args first decoded words
    have read : Utf8.decode (asPath "dir /a\n") = some "dir /a\n".toList := by decide +kernel
    have split : lineDirective "dir /a\n".toList = some (.dir,["/a".toList]) := by decide +kernel
    rw [← Option.some.inj first,read] at decoded
    cases decoded
    rw [split] at words
    cases words
    exact nofun
  · have only : ((festVisit coreHost coreConf 9 plainFest []).run {confState with autorunIdx:=0}).1 = .ok [[]] := by decide +kernel
    have last : items = [[]] := run_value ran only
    subst last
    refine Worklist.meets_cons nofun fun items u ended => ?_
    rw [← festVisit_done ended]
    exact Worklist.meets_nil

theorem additions_fresh_plain : NothingOverwritten coreHost coreConf 9 confState (parsedState plainFest) (sourcedState plainFest) := by
  have facts : stepsOutcomes plainFest = List.replicate 5 (.ok ()) ∧ components (asPath "/lib") ∉ (kmodsState plainFest).pathsSeen := by
    decide +kernel
  have run := steps_run facts.1
  refine (additions_fresh plainFest_inserts run.parsed run.sourced).mpr fun a b elfs kmods lib => ?_
  cases run.elfs.symm.trans elfs
  cases run.kmods.symm.trans kmods
  exact absurd lib facts.2

-- "dir /lib/modules": the symlink has the path of the directory.
def modulesPath : List Component := components (asPath "/lib/modules")

theorem modules_overwritten :
    ((cutMain coreHost none coreConf 9 [modulesFest]).run emptyState).1 = .ok () ∧
    (archivedPaths ((cutMain coreHost none coreConf 9 [modulesFest]).run emptyState).2.archived).count modulesPath = 2 ∧
    ¬NothingOverwritten coreHost coreConf 9 confState (parsedState modulesFest) (sourcedState modulesFest) := by
  have twice : ((cutMain coreHost none coreConf 9 [modulesFest]).run emptyState).1 = .ok () ∧
      (archivedPaths ((cutMain coreHost none coreConf 9 [modulesFest]).run emptyState).2.archived).count modulesPath = 2 := by decide +kernel
  have facts : stepsOutcomes modulesFest = List.replicate 5 (.ok ()) ∧
      modulesPath ∈ archivedPaths (archivedBetween (kmodsState modulesFest) (linksState modulesFest)) ∧
      modulesPath ∈ archivedPaths (archivedBetween confState (parsedState modulesFest) ++
        archivedBetween (sourcedState modulesFest) (elfsState modulesFest) ++
        archivedBetween (elfsState modulesFest) (kmodsState modulesFest)) := by decide +kernel
  have run := steps_run facts.1
  refine ⟨twice.1,twice.2,fun fresh => ?_⟩
  have last := ((fresh _ _ run.elfs).2 rfl _ _ run.kmods).2 rfl _ _ run.links
  obtain ⟨c,inside,same⟩ := mem_archivedPaths.mp facts.2.1
  exact last c inside (same ▸ facts.2.2)

end Rapido.Cut
