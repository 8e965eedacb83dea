import Rapido.TreeCopy
import Rapido.ElfWorklist
import Mathlib.Order.Lattice.Nat
import Mathlib.Algebra.BigOperators.Group.List.Basic

-- gather_archive_elfs comes to an end on every machine with finitely many files.
namespace Rapido.Cut
open UnixPath Cpio Eff

-- The directories of a tree, given by what they hold.
def Files.Dir : Files → Files → Prop
  | .nil,_ => False
  | .cons _ _ _ below rest,inside => inside = below ∨ below.Dir inside ∨ rest.Dir inside

def Files.texts : Files → List (List UInt8)
  | .nil => []
  | .cons _ _ text below rest => text :: (below.texts ++ rest.texts)

def Files.paths (dir : Path) : Files → List Path
  | .nil => []
  | .cons name _ _ below rest => join dir name :: (below.paths (join dir name) ++ rest.paths dir)

-- All that the file system shows are the nodes of one finite tree. A path may
-- lead to a directory of it in any way, through any symlinks; symlinks point
-- anywhere, and canonicalize, where it succeeds, gives the path in the tree.
structure OnDisk (fs : FileSystem) (root : Files) : Prop where
  listed : ∀ p names, fs.readDir p = .ok names → ∃ below, (below = root ∨ root.Dir below) ∧ names.Perm below.names ∧ Holds fs p below
  opened : ∀ p md bytes, fs.fileOpen p = .ok (md,bytes) → bytes ∈ root.texts
  resolved : ∀ p q, fs.canonicalize p = .ok q → q = [slash] ∨ q ∈ root.paths [slash]

def realPaths (root : Files) : List (List Component) := ([slash] :: root.paths [slash]).map components

def neededIn (host : Host) (bytes : List UInt8) : List Name :=
  match host.elfOpen bytes with
  | some file => neededOf file
  | none => []

def neededNames (host : Host) (root : Files) : List Name := root.texts.flatMap (neededIn host)

-- What is left to be seen: real paths and library names. Any other path comes
-- from the first entries or from a library's turn.
def unvisited (host : Host) (root : Files) (s : State) : Nat :=
  Worklist.remaining (realPaths root) s.pathsSeen + Worklist.remaining (neededNames host root) s.libsSeen

-- An entry that leads to a real path counts as one, since either it has been
-- seen or there is one less to be seen afterwards. Any other weighs as much as
-- the tree it may be the root of.
def Weighs (fs : FileSystem) (root : Files) (ent : GatherEnt) (n : Nat) : Prop :=
  0 < n ∧ ∀ got, pathStat fs ent = .ok got → components (destination ent got) ∈ realPaths root ∨
    (2 ≤ n ∧ (got.md.mode &&& S_IFMT = S_IFDIR → ∀ names, fs.readDir got.path = .ok names →
      ∃ below, names.Perm below.names ∧ Holds fs got.path below ∧ 2 * below.size + 2 ≤ n))

theorem weighs_some (disk : OnDisk fs root) (ent : GatherEnt) : ∃ n, Weighs fs root ent n := by
  cases found : pathStat fs ent with
  | error e => exact ⟨1,Nat.one_pos,fun got again => by rw [found] at again; cases again⟩
  | ok got =>
    cases listed : fs.readDir got.path with
    | error e =>
      refine ⟨2,Nat.two_pos,fun got' again => .inr ⟨Nat.le_refl 2,fun _ names present => ?_⟩⟩
      rw [found] at again
      cases again
      rw [listed] at present
      cases present
    | ok names =>
      obtain ⟨below,_,same,holds⟩ := disk.listed got.path names listed
      refine ⟨2 * below.size + 2,by omega,fun got' again => .inr ⟨by omega,fun _ names' present => ?_⟩⟩
      rw [found] at again
      cases again
      rw [listed] at present
      cases present
      exact ⟨below,same,holds,Nat.le_refl _⟩

noncomputable def weight (fs : FileSystem) (root : Files) (ent : GatherEnt) : Nat := sInf {n | Weighs fs root ent n}

theorem weight_spec (disk : OnDisk fs root) (ent : GatherEnt) : Weighs fs root ent (weight fs root ent) :=
  Nat.sInf_mem (weighs_some disk ent)

theorem weight_le (weighs : Weighs fs root ent n) : weight fs root ent ≤ n := Nat.sInf_le weighs

noncomputable def total (fs : FileSystem) (root : Files) (ents : List GatherEnt) : Nat := (ents.map (weight fs root)).sum

theorem total_append (front back : List GatherEnt) : total fs root (front ++ back) = total fs root front + total fs root back := by
  simp [total]

theorem total_perm (same : front.Perm back) : total fs root front = total fs root back := (same.map _).sum_eq

-- The entry for a file of a directory.
theorem weighs_child (shows : Shows fs p md text below.names) (holds : Holds fs p below) :
    Weighs fs root (.path p) (2 * below.size + 2) := by
  refine ⟨by omega,fun got found => .inr ⟨by omega,fun dir names listed => ?_⟩⟩
  unfold pathStat at found
  dsimp only at found
  split at found
  · rename_i md' stat
    cases found
    have same := shows.stat md' stat
    subst same
    exact ⟨below,shows.listed dir names listed,holds,Nat.le_refl _⟩
  · cases found

theorem total_children (holds : Holds fs p below) : total fs root (below.names.map fun n => .path (join p n)) ≤ 2 * below.size := by
  induction below with
  | nil => simp [total,Files.names,Files.size]
  | cons name md text deeper rest _ ih =>
    obtain ⟨shows,down,right⟩ := holds
    have first : weight fs root (.path (join p name)) ≤ 2 * deeper.size + 2 := weight_le (weighs_child shows down)
    have others := ih right
    simp only [Files.names,Files.size,total,List.map_cons,List.sum_cons] at others ⊢
    omega

-- libs_seen only grows, and a turn that pushes libraries adds a name to it.
def Learned (host : Host) (bytes : List UInt8) (deps : List GatherEnt) (before after : List Name) : Prop :=
  (∀ n ∈ before, n ∈ after) ∧ (deps = [] ∨ ∃ n ∈ neededIn host bytes, n ∉ before ∧ n ∈ after)

theorem elfDeps_learned (ran : (elfDeps host bytes).run names = (result,after)) :
    Learned host bytes (result.toOption.getD []) names after := by
  cases opened : host.elfOpen bytes with
  | none =>
    rw [elfDeps_closed opened] at ran
    cases ran
    exact ⟨fun _ old => old,.inl rfl⟩
  | some file =>
    have needed : neededIn host bytes = neededOf file := by simp [neededIn,opened]
    rcases elfDeps_run opened names with ⟨e,failed,_⟩ | whole
    · rw [failed] at ran
      cases ran
      exact ⟨fun _ old => old,.inl rfl⟩
    · rw [whole] at ran
      cases ran
      refine ⟨fun n old => (mem_filtered _ _).mpr (.inl old),?_⟩
      by_cases bad : none ∈ neededStrings file
      · rw [if_pos bad]
        exact .inl rfl
      · rw [if_neg bad,namesRead_needed bad,needed]
        cases first : passing names (neededOf file) with
        | nil => exact .inl rfl
        | cons n others =>
          have new : n ∈ passing names (neededOf file) := by simp [first]
          obtain ⟨inside,fresh⟩ := (mem_passing _ _).mp new
          exact .inr ⟨n,inside,fresh,(mem_filtered _ _).mpr (.inr inside)⟩

theorem depsFor_learned : Ensures (fun s => s.libsSeen = names) (depsFor host ent amd bytes) fun deps s =>
    Learned host bytes deps names s.libsSeen := by
  unfold depsFor
  split
  · refine elfDepsOrNone_triple fun s deps result after same parsed => ?_
    obtain ⟨parsed,rfl⟩ := parsed
    exact elfDeps_learned (same ▸ parsed)
  · exact .pure fun s same => ⟨fun n old => same ▸ old,.inl rfl⟩

-- What one turn for an unseen destination pushes.
inductive Pushes (host : Host) (ent : GatherEnt) (src dst : Path) (md : Metadata) (before : State) :
    List GatherEnt → State → Prop where
  | nothing (grown : ∀ n ∈ before.libsSeen, n ∈ after.libsSeen) : Pushes host ent src dst md before [] after
  | target (grown : ∀ n ∈ before.libsSeen, n ∈ after.libsSeen) (resolved : host.canonicalize dst = .ok tgt)
      (seen : components dst ∈ after.pathsSeen) :
      Pushes host ent src dst md before [if ent.isLib then .lib tgt else .name tgt] after
  | libraries (opened : host.fileOpen src = .ok (opened,bytes)) (learned : Learned host bytes deps before.libsSeen after.libsSeen)
      (seen : components dst ∈ after.pathsSeen) : Pushes host ent src dst md before deps.reverse after
  | children (grown : ∀ n ∈ before.libsSeen, n ∈ after.libsSeen) (dir : md.mode &&& S_IFMT = S_IFDIR)
      (listed : host.readDir src = .ok names) (seen : components dst ∈ after.pathsSeen) :
      Pushes host ent src dst md before ((sortNames names).map fun e => .path (join src e)).reverse after

theorem elfGot_pushes {start : State} : Ensures (fun s => s = start) (elfGot host ent src dst md rest) fun items t =>
    ∃ pushed, items = pushed ++ rest ∧ (pushed = [] ∨ components dst ∉ start.pathsSeen) ∧
      Pushes host ent src dst md start pushed t := by
  have old : ∀ {names : List Name}, names = start.libsSeen → ∀ n ∈ start.libsSeen, n ∈ names := fun same n inside => same ▸ inside
  have kept : Stored (fun _ => False) fun t : State => t.libsSeen = start.libsSeen := libs_stored (· = start.libsSeen)
  have archived : ∀ c, Ensures (fun t : State => t.libsSeen = start.libsSeen) (archive c) fun _ t => t.libsSeen = start.libsSeen :=
    fun c => (archive_keeps kept).ensures
  have inserted : ∀ fact : List Name → Prop, Ensures (fun t : State => fact t.libsSeen) (insertPath dst) fun _ t =>
      fact t.libsSeen ∧ components dst ∈ t.pathsSeen := fun fact =>
    insertPath_triple (fun _ holds _ => ⟨holds,List.mem_cons_self⟩) fun _ holds seen => ⟨holds,seen⟩
  have parents : ∀ amd, Ensures (fun s => s = start ∧ components dst ∉ s.pathsSeen) (gatherArchiveDirs (parent dst) amd)
      fun _ t => t.libsSeen = start.libsSeen ∧ components dst ∉ start.pathsSeen := by
    refine fun amd => .given fun s ⟨same,fresh⟩ => ?_
    subst same
    exact (gatherArchiveDirs_keeps kept).ensures.weaken (fun _ here => here ▸ rfl) fun _ _ libs => ⟨libs,fresh⟩
  refine elfGot_triple (fun s same _ => ?_) (fun _ _ _ _ => trivial) parents (fun _ _ => trivial) (fun amd _ => .assuming fun fresh => ?_)
    (fun amd _ => .assuming fun fresh => ?_) (fun amd dir => .assuming fun fresh => ?_) fun amd _ => .assuming fun fresh => ?_
  · exact ⟨[],rfl,.inl rfl,.nothing fun _ inside => same ▸ inside⟩
  · unfold elfSymlink
    split
    · exact .pure fun _ libs => ⟨[],rfl,.inl rfl,.nothing (old libs)⟩
    · rename_i tgt resolved
      refine .bind (archived _) fun _ => ?_
      split
      · refine .bind (inserted (· = start.libsSeen)) fun _ => .pure fun t ⟨libs,seen⟩ => ?_
        exact ⟨[_],rfl,.inr fresh,.target (old libs) resolved seen⟩
      · exact .fail fun _ _ => trivial
  · refine Ensures.ofExcept_bind fun ⟨md',bytes⟩ opened => .bind depsFor_learned fun deps => ?_
    have learned : Stored (fun _ => False) fun t : State => Learned host bytes deps start.libsSeen t.libsSeen :=
      libs_stored (Learned host bytes deps start.libsSeen)
    refine .bind (archive_keeps learned).ensures fun _ => .bind (inserted (Learned host bytes deps start.libsSeen)) fun _ => ?_
    exact .pure fun t ⟨learned,seen⟩ => ⟨_,rfl,.inr fresh,.libraries opened learned seen⟩
  · refine .bind (archived _) fun _ => Ensures.ofExcept_bind fun names listed => .bind (inserted (· = start.libsSeen)) fun _ => ?_
    exact .pure fun t ⟨libs,seen⟩ => ⟨_,rfl,.inr fresh,.children (old libs) dir listed seen⟩
  · refine .bind (archived _) fun _ => .bind (inserted (· = start.libsSeen)) fun _ => .pure fun t ⟨libs,_⟩ => ?_
    exact ⟨[],rfl,.inl rfl,.nothing (old libs)⟩

theorem elfVisit_pushes (ran : (elfVisit host ent rest).run s = (.ok items,t)) : ∃ added, items = added ++ rest ∧
    ((added = [] ∧ ∀ n ∈ s.libsSeen, n ∈ t.libsSeen) ∨ ∃ got, pathStat host.toFileSystem ent = .ok got ∧
      (added = [] ∨ components (destination ent got) ∉ s.pathsSeen) ∧
      Pushes host ent got.path (destination ent got) got.md s added t) := by
  have turn : Ensures (fun u => u = s) (elfVisit host ent rest) fun items t => ∃ added, items = added ++ rest ∧
      ((added = [] ∧ ∀ n ∈ s.libsSeen, n ∈ t.libsSeen) ∨ ∃ got, pathStat host.toFileSystem ent = .ok got ∧
        (added = [] ∨ components (destination ent got) ∉ s.pathsSeen) ∧
        Pushes host ent got.path (destination ent got) got.md s added t) := by
    refine elfVisit_triple (fun _ _ u _ _ same => ?_) (fun _ _ _ _ => trivial) (fun _ _ => trivial) fun got dst found lands => ?_
    · exact ⟨[],rfl,.inl ⟨rfl,fun _ inside => same ▸ inside⟩⟩
    · refine elfGot_pushes.weaken (fun _ h => h) fun items t ⟨added,shape,pushes⟩ => ⟨added,shape,.inr ⟨got,found,?_⟩⟩
      rw [← lands.destination]
      exact pushes
  exact turn.ok s items t rfl ran

theorem Pushes.grown (pushes : Pushes host ent src dst md before added after) : ∀ n ∈ before.libsSeen, n ∈ after.libsSeen := by
  cases pushes with
  | nothing grown => exact grown
  | target grown => exact grown
  | libraries _ learned => exact learned.1
  | children grown => exact grown

-- A symlink's target is a real path, so its entry weighs one.
theorem weighs_target {host : Host} (disk : OnDisk host.toFileSystem root) (resolved : host.canonicalize p = .ok tgt) (lib : Bool) :
    Weighs host.toFileSystem root (if lib then .lib tgt else .name tgt) 1 := by
  have absolute := host.canonicalize_absolute resolved
  have known : components tgt ∈ realPaths root := by
    rcases disk.resolved p tgt resolved with rfl | inside
    · exact List.mem_map_of_mem List.mem_cons_self
    · exact List.mem_map_of_mem (List.mem_cons_of_mem _ inside)
  refine ⟨Nat.one_pos,fun got found => .inl ?_⟩
  cases lib with
  | true =>
    change components got.path ∈ realPaths root
    rwa [(statByName_path absolute found).2]
  | false =>
    change components got.path ∈ realPaths root
    rwa [(statByName_path absolute found).2]

-- One turn: there is less left to be seen, or what is on the stack weighs less.
theorem elfVisit_less {host : Host} (disk : OnDisk host.toFileSystem root) (ran : (elfVisit host ent rest).run s = (.ok items,t)) :
    unvisited host root t < unvisited host root s ∨ (unvisited host root t ≤ unvisited host root s ∧
      total host.toFileSystem root items < total host.toFileSystem root (ent :: rest)) := by
  have grown : Grows s t := (elfVisit_keeps (grows_stable s).steady).ok s items t (.refl s) ran
  obtain ⟨added,rfl,outcome⟩ := elfVisit_pushes ran
  have libs : ∀ n ∈ s.libsSeen, n ∈ t.libsSeen := by
    rcases outcome with ⟨_,libs⟩ | ⟨_,_,_,pushes⟩
    · exact libs
    · exact pushes.grown
  have pathsLeft : Worklist.remaining (realPaths root) t.pathsSeen ≤ Worklist.remaining (realPaths root) s.pathsSeen :=
    Worklist.remaining_mono grown.seen
  have namesLeft : Worklist.remaining (neededNames host root) t.libsSeen ≤ Worklist.remaining (neededNames host root) s.libsSeen :=
    Worklist.remaining_mono libs
  have spec := weight_spec disk ent
  have lighter : total host.toFileSystem root added < weight host.toFileSystem root ent →
      unvisited host root t ≤ unvisited host root s ∧
        total host.toFileSystem root (added ++ rest) < total host.toFileSystem root (ent :: rest) := by
    intro less
    refine ⟨Nat.add_le_add pathsLeft namesLeft,?_⟩
    rw [total_append]
    simp only [total,List.map_cons,List.sum_cons] at less ⊢
    omega
  have empty : added = [] → unvisited host root t < unvisited host root s ∨ (unvisited host root t ≤ unvisited host root s ∧
      total host.toFileSystem root (added ++ rest) < total host.toFileSystem root (ent :: rest)) := by
    rintro rfl
    exact .inr (lighter spec.1)
  -- a real path that is new is one less to be seen
  have reached : ∀ cs, cs ∈ realPaths root → cs ∉ s.pathsSeen → cs ∈ t.pathsSeen → unvisited host root t < unvisited host root s := by
    intro cs known fresh seen
    have less := Worklist.remaining_less grown.seen known fresh seen
    exact Nat.add_lt_add_of_lt_of_le less namesLeft
  rcases outcome with ⟨none,_⟩ | ⟨got,found,none | fresh,pushes⟩
  · exact empty none
  · exact empty none
  · rcases spec.2 got found with known | ⟨two,listing⟩
    · cases pushes with
      | nothing => exact empty rfl
      | target _ _ seen => exact .inl (reached _ known fresh seen)
      | libraries _ _ seen => exact .inl (reached _ known fresh seen)
      | children _ _ _ seen => exact .inl (reached _ known fresh seen)
    · cases pushes with
      | nothing => exact empty rfl
      | target _ resolved =>
        have one := weight_le (weighs_target disk resolved ent.isLib)
        refine .inr (lighter ?_)
        simp only [total,List.map_cons,List.map_nil,List.sum_cons,List.sum_nil]
        omega
      | libraries opened learned =>
        rcases learned.2 with rfl | ⟨n,inside,new,now⟩
        · exact empty rfl
        · have needed : n ∈ neededNames host root := List.mem_flatMap.mpr ⟨_,disk.opened _ _ _ opened,inside⟩
          have less := Worklist.remaining_less libs needed new now
          exact .inl (Nat.add_lt_add_of_le_of_lt pathsLeft less)
      | children _ dir listed =>
        obtain ⟨below,same,holds,heavy⟩ := listing dir _ listed
        have light : total host.toFileSystem root (below.names.map fun n => .path (join got.path n)) ≤ 2 * below.size :=
          total_children holds
        refine .inr (lighter ?_)
        rw [total_perm ((List.reverse_perm _).trans (((sortNames_reorders _).trans same).map _))]
        exact Nat.lt_of_le_of_lt light (by omega)

theorem elf_gathering_terminates {host : Host} (disk : OnDisk host.toFileSystem root) (elfs : List GatherEnt) (s : State) :
    Worklist.Halts (elfVisit host) elfs.reverse s ∧
      ∃ enough outcome, ∀ fuel, enough ≤ fuel → (gatherArchiveElfs host fuel elfs).run s = outcome := by
  have less : ∀ ent rest s items t, (elfVisit host ent rest).run s = (.ok items,t) →
      unvisited host root t < unvisited host root s ∨ (unvisited host root t ≤ unvisited host root s ∧
        total host.toFileSystem root items < total host.toFileSystem root (ent :: rest)) :=
    fun _ _ _ _ _ ran => elfVisit_less disk ran
  have halts : Worklist.Halts (elfVisit host) elfs.reverse s := Worklist.halts_ranked less _ s
  obtain ⟨enough,outcome,ends⟩ := halts.enough
  exact ⟨halts,enough,outcome,ends spent⟩

-- "/d" holds a symlink "up" to "/", a symlink "me" to itself and a program "x"
-- that needs itself.
def dirMd : Metadata := plainMd (S_IFDIR ||| 0o755) 2
def linkMd : Metadata := plainMd (S_IFLNK ||| 0o777) 1
def cyclicDir : Files := .cons (asPath "up") linkMd (asPath "/") .nil (.cons (asPath "me") linkMd (asPath "me") .nil
  (.cons (asPath "x") (oneByte (S_IFREG ||| 0o755)) (asPath "x") .nil .nil))
def cyclicFiles : Files := .cons (asPath "d") dirMd [] cyclicDir .nil

def cyclicHost : Host := {bareHost with
  symlinkMetadata := fun p =>
    if p = asPath "/" ∨ p = asPath "/d" then .ok dirMd
    else if p = asPath "/d/up" ∨ p = asPath "/d/me" then .ok linkMd
    else if p = asPath "/d/x" then .ok (oneByte (S_IFREG ||| 0o755))
    else .error (.ofKind .notFound)
  fileOpen := fun p => if p = asPath "/d/x" then .ok (oneByte (S_IFREG ||| 0o755),asPath "x") else .error (.ofKind .notFound)
  readDir := fun p =>
    if p = asPath "/" then .ok [asPath "d"]
    else if p = asPath "/d" then .ok [asPath "up",asPath "me",asPath "x"]
    else .error (.ofKind .notFound)
  readLink := fun p =>
    if p = asPath "/d/up" then .ok (asPath "/") else if p = asPath "/d/me" then .ok (asPath "me") else .error (.ofKind .invalidInput)
  canonicalize := fun p => if p = asPath "/d/up" then .ok (asPath "/") else .error (.ofKind (.other 40))
  elfOpen := fun bytes => if bytes = asPath "x" then some (needs "/d/x" []) else none
  cwd_absolute := root_absolute
  readDir_names := by
    intro p names listed
    split at listed
    · cases listed
      decide +kernel
    · split at listed
      · cases listed
        decide +kernel
      · cases listed
  canonicalize_absolute := by
    intro p q resolved
    split at resolved
    · cases resolved
      decide +kernel
    · cases resolved}

theorem shows_link (stat : fs.symlinkMetadata p = .ok md) (link : md.mode &&& S_IFMT = S_IFLNK) (linked : fs.readLink p = .ok text) :
    Shows fs p md text [] where
  stat := fun _ again => Except.ok.inj (again.symm.trans stat)
  listed := fun dir => absurd (link.symm.trans dir) (by decide)
  childless := fun _ => rfl
  opened := fun file => absurd (link.symm.trans file) (by decide)
  linked := fun _ _ again => Except.ok.inj (again.symm.trans linked)

theorem cyclicDir_held : Holds cyclicHost.toFileSystem (asPath "/d") cyclicDir := by
  refine ⟨shows_link (by decide +kernel) (by decide) (by decide +kernel),trivial,
    shows_link (by decide +kernel) (by decide) (by decide +kernel),trivial,?_,trivial,trivial⟩
  have stat : cyclicHost.symlinkMetadata (join (asPath "/d") (asPath "x")) = .ok (oneByte (S_IFREG ||| 0o755)) := by decide +kernel
  have opened : cyclicHost.fileOpen (join (asPath "/d") (asPath "x")) = .ok (oneByte (S_IFREG ||| 0o755),asPath "x") := by decide +kernel
  exact ⟨fun _ again => Except.ok.inj (again.symm.trans stat),fun dir => absurd dir (by decide),fun _ => rfl,
    fun _ _ again => congrArg Prod.snd (Except.ok.inj (again.symm.trans opened)),fun link => absurd link (by decide)⟩

theorem cyclicFiles_held : Holds cyclicHost.toFileSystem (asPath "/") cyclicFiles := by
  have stat : cyclicHost.symlinkMetadata (join (asPath "/") (asPath "d")) = .ok dirMd := by decide +kernel
  have listed : cyclicHost.readDir (join (asPath "/") (asPath "d")) = .ok cyclicDir.names := by decide +kernel
  have same : join (asPath "/") (asPath "d") = asPath "/d" := by decide +kernel
  refine ⟨⟨fun _ again => Except.ok.inj (again.symm.trans stat),?_,fun other => absurd (by decide) other,
    fun file => absurd file (by decide),fun link => absurd link (by decide)⟩,same ▸ cyclicDir_held,trivial⟩
  intro _ got again
  rw [Except.ok.inj (again.symm.trans listed)]

theorem cyclicHost_onDisk : OnDisk cyclicHost.toFileSystem cyclicFiles where
  listed := by
    intro p names listed
    dsimp only [cyclicHost] at listed
    split at listed
    · rename_i top
      cases listed
      exact ⟨cyclicFiles,.inl rfl,.refl _,top ▸ cyclicFiles_held⟩
    · split at listed
      · rename_i dir
        cases listed
        exact ⟨cyclicDir,.inr (.inl rfl),.refl _,dir ▸ cyclicDir_held⟩
      · cases listed
  opened := by
    intro p md bytes opened
    dsimp only [cyclicHost] at opened
    split at opened
    · cases opened
      decide +kernel
    · cases opened
  resolved := by
    intro p q resolved
    dsimp only [cyclicHost] at resolved
    split at resolved
    · cases resolved
      exact .inl (by decide +kernel)
    · cases resolved

theorem elf_gathering_terminates_cyclic : Worklist.Halts (elfVisit cyclicHost) [namedEnt "/d"] emptyState :=
  (elf_gathering_terminates cyclicHost_onDisk [namedEnt "/d"] emptyState).1

end Rapido.Cut
