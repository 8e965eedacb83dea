import Rapido.CutTraversal

-- The shared libraries that gather_archive_elfs pulls in.
namespace Rapido.Cut
open UnixPath Cpio Eff

-- The name is pushed unless an earlier file, or an earlier offset, has it.
theorem elfDeps_pushes (opened : host.elfOpen bytes = some file) (needed : n ∈ neededOf file) :
    Ensures (fun seen => n ∉ seen) (elfDeps host bytes) fun deps _ => depEnt (runpathsOf file) n ∈ deps := by
  refine ⟨fun seen deps after new ran => ?_,fun _ _ _ _ _ => trivial⟩
  obtain ⟨file',again,_,rfl,_⟩ := elfDeps_ok ran
  rw [opened] at again
  cases again
  exact List.mem_map_of_mem ((mem_passing _ _).mpr ⟨needed,new⟩)

def destination (ent : GatherEnt) (got : Fsent) : Path :=
  match ent with
  | .nameDst _ d => d
  | _ => got.path

theorem destination_plain {ent : GatherEnt} (plain : ∀ n d, ent = .nameDst n d → False) (got : Fsent) :
    destination ent got = got.path := by
  unfold destination
  split
  · rename_i n d
    exact (plain n d rfl).elim
  · rfl

theorem Lands.destination (lands : Lands ent got dst) : dst = Cut.destination ent got := by
  cases lands with
  | given absolute => rfl
  | found plain => exact (destination_plain plain got).symm

-- This turn of the loop archives a regular file with these bytes, and elf_deps
-- runs on it and returns Ok.
structure Parses (host : Host) (ent : GatherEnt) (got : Fsent) (bytes : List UInt8) (deps : List GatherEnt) (s : State) : Prop where
  stat : pathStat host.toFileSystem ent = .ok got
  unseen : components (destination ent got) ∉ s.pathsSeen
  file : got.md.mode &&& S_IFMT = S_IFREG
  filled : ∃ amd, ArchiveMd.fromMetadata s.archive.state got.md = .ok amd ∧ amd.len > 0
  code : got.md.mode &&& 0o111 ≠ 0 ∨ ent.isLib = true
  opened : ∃ md, host.fileOpen got.path = .ok (md,bytes)
  parsed : ∃ names, (elfDeps host bytes).run s.libsSeen = (.ok deps,names)

theorem libs_stored (fact : List Name → Prop) : Stored (fun _ => False) (fun s => fact s.libsSeen) where
  archived := fun _ _ _ holds _ => holds
  refused := fun _ _ _ _ holds _ _ => holds
  inserted := fun _ _ holds => holds
  missing := fun _ impossible => impossible.elim

theorem elfDepsOrNone_deps (parsed : (elfDeps host bytes).run names = (.ok deps,after)) :
    Ensures (fun s => s.libsSeen = names) (elfDepsOrNone host bytes) fun found _ => found = deps := by
  refine ⟨?_,fun _ _ _ _ _ => trivial⟩
  rintro s found t rfl ran
  unfold elfDepsOrNone at ran
  dsimp only at ran
  rw [parsed] at ran
  cases ran
  rfl

theorem elfFile_deps (opened : host.fileOpen src = .ok (md,bytes)) (code : amd.mode &&& 0o111 ≠ 0 ∨ ent.isLib = true)
    (parsed : (elfDeps host bytes).run names = (.ok deps,after)) :
    Ensures (fun s => s.libsSeen = names) (elfFile host ent src dst amd rest) fun items _ => items = deps.reverse ++ rest := by
  refine Ensures.ofExcept_bind fun ⟨md',bytes'⟩ again => ?_
  rw [opened] at again
  cases again
  dsimp only
  unfold depsFor
  rw [if_pos code]
  refine .bind (elfDepsOrNone_deps parsed) fun found => .given fun s same => ?_
  rw [same]
  exact .bind Ensures.any fun _ => .bind Ensures.any fun _ => .pure fun _ _ => rfl

theorem elfGot_deps (parses : Parses host ent got bytes deps start) :
    Ensures (fun s => s = start) (elfGot host ent got.path (destination ent got) got.md rest)
      fun items _ => items = deps.reverse ++ rest := by
  obtain ⟨amd,made,filled⟩ := parses.filled
  obtain ⟨md,opened⟩ := parses.opened
  obtain ⟨names,parsed⟩ := parses.parsed
  have mode := fromMetadata_mode made
  refine pathSeen_bind ⟨?_,fun _ _ _ _ _ => trivial⟩ ?_
  · rintro s _ _ ⟨rfl,seen⟩
    exact absurd seen parses.unseen
  · have same : Ensures (fun s => s = start ∧ components (destination ent got) ∉ s.pathsSeen) (archiveMd got.md)
        fun found s => found = amd ∧ s.libsSeen = start.libsSeen := by
      refine archiveMd_triple ?_ fun _ _ _ _ => trivial
      rintro s found ⟨rfl,_⟩ again
      exact ⟨Except.ok.inj (again.symm.trans made),rfl⟩
    refine .bind same fun found => .given fun s ⟨equal,names⟩ => ?_
    subst equal
    refine .bind ((gatherArchiveDirs_keeps (libs_stored (· = start.libsSeen))).ensures.weaken (fun _ h => h ▸ names) fun _ _ h => h) fun _ => ?_
    have link : ¬(found.mode &&& S_IFMT = S_IFLNK) := by
      rw [mode,parses.file]
      decide
    rw [if_neg link,if_pos ⟨mode ▸ parses.file,filled⟩]
    exact elfFile_deps opened (mode ▸ parses.code) parsed

theorem elfVisit_deps (parses : Parses host ent got bytes deps s) (ran : (elfVisit host ent rest).run s = (.ok items,t)) :
    items = deps.reverse ++ rest := by
  have turn : Ensures (fun u => u = s) (elfVisit host ent rest) fun items _ => items = deps.reverse ++ rest := by
    refine elfVisit_triple (fun _ _ _ _ failed => ?_) (fun _ _ _ _ => trivial) (fun _ _ => trivial) fun _ dst stat lands => ?_
    · cases parses.stat.symm.trans failed
    · cases parses.stat.symm.trans stat
      cases lands.destination
      exact elfGot_deps parses
  exact turn.ok s items t rfl ran

-- An entry that will put a path into paths_seen once its turn comes.
def Resolves (fs : FileSystem) (ent : GatherEnt) (cs : List Component) : Prop :=
  (∀ n d, ent ≠ .nameDst n d) ∧ ∃ got, pathStat fs ent = .ok got ∧ ¬Dangling fs got.node ∧ components got.path = cs

def Seen (s : State) (cs : List Component) : Prop := cs ∈ s.pathsSeen

theorem elfVisit_resolves (ran : (elfVisit host ent rest).run s = (.ok items,t))
    (covered : Worklist.Covered (Resolves host.toFileSystem) Seen (ent :: rest) s cs) :
    Worklist.Covered (Resolves host.toFileSystem) Seen items t cs := by
  have grown : Grows s t := (elfVisit_keeps (grows_stable s).steady).ok s items t (.refl s) ran
  have visited : Ensures (fun _ => True) (elfVisit host ent rest) _ := elfVisit_kept
  have kept : ∀ e ∈ rest, e ∈ items := visited.ok s items t trivial ran
  rcases covered with old | ⟨e,inside,resolves⟩
  · exact .inl (grown.seen cs old)
  · rcases List.mem_cons.mp inside with rfl | other
    · obtain ⟨plain,got,found,resolved,rfl⟩ := resolves
      rcases (elfVisit_taken plain found).ok s items t rfl ran with ⟨seen,_⟩ | taken
      · exact .inl (grown.seen _ seen)
      · exact .inl (taken.archived resolved).2
    · exact .inr ⟨e,kept e other,resolves⟩

-- A needed library ends up in paths_seen if it is there already, if its name is
-- new to libs_seen, or if another entry leads to the same path.
theorem needed_gathered (ran : (gatherArchiveElfs host fuel elfs).run s = (.ok (),t))
    (reached : Worklist.Runs (elfVisit host) elfs.reverse s (ent :: rest) u) (parses : Parses host ent got bytes deps u)
    (opened : host.elfOpen bytes = some file) (needed : n ∈ neededOf file)
    (found : pathStat host.toFileSystem (depEnt (runpathsOf file) n) = .ok dep)
    (kept : components dep.path ∈ u.pathsSeen ∨ (n ∉ u.libsSeen ∧ ¬Dangling host.toFileSystem dep.node) ∨
      ∃ e ∈ rest, Resolves host.toFileSystem e (components dep.path)) :
    components dep.path ∈ t.pathsSeen := by
  have onwards := reached.rest (Worklist.loop_runs ran)
  cases onwards with
  | step visited more =>
    change Seen t (components dep.path)
    refine more.covered (fun _ _ _ _ _ _ _ => elfVisit_resolves) Worklist.meets_true ?_
    rcases kept with seen | ⟨new,resolved⟩ | pending
    · exact elfVisit_resolves visited (.inl seen)
    · obtain ⟨names,parsed⟩ := parses.parsed
      have pushed := (elfDeps_pushes opened needed).ok _ _ _ new parsed
      rw [elfVisit_deps parses visited]
      refine .inr ⟨_,List.mem_append_left _ (List.mem_reverse.mpr pushed),?_,dep,found,resolved,rfl⟩
      intro m d
      unfold depEnt
      split <;> exact nofun
    · obtain ⟨e,other,resolves⟩ := pending
      exact elfVisit_resolves visited (.inr ⟨e,List.mem_cons_of_mem _ other,resolves⟩)

-- Three programs: "/a" and "/b" need "l" and have a DT_RUNPATH each, "/c" needs
-- "d", which is found under LIB_PATHS as a symlink to nowhere.
def needs (lib : String) (runpaths : List Name) : ElfStream where
  dynamic := .ok (some ((.needed,0) :: (List.range runpaths.length).map fun i => (.runpath,i + 1)))
  dynamicSymbolTable := .ok (some fun off => (asPath lib :: runpaths)[off]?)

def oneByte (mode : UInt32) : Metadata := {plainMd mode 1 with len:=1}

def libHost : Host where
  cwd := [slash]
  symlinkMetadata := fun p =>
    if p ∈ [asPath "/a",asPath "/b",asPath "/c"] then .ok (oneByte (S_IFREG ||| 0o755))
    else if p ∈ [asPath "/x/l",asPath "/y/l"] then .ok (oneByte (S_IFREG ||| 0o644))
    else if p = asPath "/usr/lib64/d" then .ok (oneByte (S_IFLNK ||| 0o777))
    else .error (.ofKind .notFound)
  fileOpen := fun p => .ok (oneByte (S_IFREG ||| 0o755),p.drop 1 |>.take 1)
  readDir := fun _ => .error (.ofKind .notFound)
  readLink := fun _ => .error (.ofKind .notFound)
  canonicalize := fun _ => .error (.ofKind .notFound)
  pathExists := fun _ => false
  cwd_absolute := root_absolute
  readDir_names := @lists_nothing
  canonicalize_absolute := @resolves_nothing
  elfOpen := fun bytes =>
    if bytes = asPath "a" then some (needs "l" [asPath "/x"])
    else if bytes = asPath "b" then some (needs "l" [asPath "/y"])
    else if bytes = asPath "c" then some (needs "d" [])
    else none
  kmodContextNew := fun _ => .error []

def namedEnt (text : String) : GatherEnt := .name (asPath text)

def libX : GatherEnt := .libRunPath (asPath "l") [asPath "/x"]
@[irreducible] def runpathRun : Except IoError Unit × State :=
  (gatherArchiveElfs libHost 9 [namedEnt "/b",namedEnt "/a"]).run emptyState
def program (text : String) : Fsent := ⟨asPath text,oneByte (S_IFREG ||| 0o755)⟩
def programMd : ArchiveMd := ⟨1,S_IFREG ||| 0o755,0,0,0,0,0,1⟩

theorem program_parses (stat : pathStat libHost.toFileSystem (namedEnt text) = .ok (program text))
    (unseen : components (asPath text) ∉ s.pathsSeen)
    (made : ArchiveMd.fromMetadata s.archive.state (program text).md = .ok programMd)
    (opened : libHost.fileOpen (asPath text) = .ok ((program text).md,bytes))
    (parsed : ((elfDeps libHost bytes).run s.libsSeen).1 = .ok deps) :
    Parses libHost (namedEnt text) (program text) bytes deps s where
  stat := stat
  unseen := unseen
  file := show (S_IFREG ||| 0o755) &&& S_IFMT = S_IFREG by decide
  filled := ⟨programMd,made,by decide⟩
  code := .inl (show (S_IFREG ||| 0o755) &&& 0o111 ≠ 0 by decide)
  opened := ⟨_,opened⟩
  parsed := ⟨_,run_ok parsed⟩

theorem runpathRun_ok : (gatherArchiveElfs libHost 9 [namedEnt "/b",namedEnt "/a"]).run emptyState = (.ok (),runpathRun.2) := by
  have succeeds : ((gatherArchiveElfs libHost 9 [namedEnt "/b",namedEnt "/a"]).run emptyState).1 = .ok () := by decide +kernel
  unfold runpathRun
  exact run_ok succeeds

theorem needed_gathered_first : components (asPath "/x/l") ∈ runpathRun.2.pathsSeen := by
  have parses : Parses libHost (namedEnt "/a") (program "/a") (asPath "a") [libX] emptyState :=
    program_parses (by decide +kernel) (by decide +kernel) (by decide +kernel) (by decide +kernel) (by decide +kernel)
  have found : pathStat libHost.toFileSystem (depEnt (runpathsOf (needs "l" [asPath "/x"])) (asPath "l")) =
      .ok ⟨asPath "/x/l",oneByte (S_IFREG ||| 0o644)⟩ := by decide +kernel
  have resolved : ¬Dangling libHost.toFileSystem (Fsent.node ⟨asPath "/x/l",oneByte (S_IFREG ||| 0o644)⟩) :=
    fun dangling => absurd dangling.1 (by decide)
  have opened : libHost.elfOpen (asPath "a") = some (needs "l" [asPath "/x"]) := rfl
  exact needed_gathered runpathRun_ok .refl parses opened (by decide +kernel) found (.inr (.inl ⟨nofun,resolved⟩))

-- Every needed library of every parsed file is in paths_seen in the end.
def NeededSeen (host : Host) (elfs : List GatherEnt) (s t : State) : Prop :=
  ∀ ent rest u got bytes deps file n dep, Worklist.Runs (elfVisit host) elfs.reverse s (ent :: rest) u →
    Parses host ent got bytes deps u → host.elfOpen bytes = some file → n ∈ neededOf file →
    pathStat host.toFileSystem (depEnt (runpathsOf file) n) = .ok dep → components dep.path ∈ t.pathsSeen

@[irreducible] def danglingRun : Except IoError Unit × State := (gatherArchiveElfs libHost 9 [namedEnt "/c"]).run emptyState

@[irreducible] def afterA : State := ((elfVisit libHost (namedEnt "/a") [namedEnt "/b"]).run emptyState).2
@[irreducible] def afterX : State := ((elfVisit libHost libX [namedEnt "/b"]).run afterA).2

theorem reachesB : Worklist.Runs (elfVisit libHost) [namedEnt "/a",namedEnt "/b"] emptyState [namedEnt "/b"] afterX := by
  have first : ((elfVisit libHost (namedEnt "/a") [namedEnt "/b"]).run emptyState).1 = .ok [libX,namedEnt "/b"] := by decide +kernel
  have second : ((elfVisit libHost libX [namedEnt "/b"]).run afterA).1 = .ok [namedEnt "/b"] := by decide +kernel
  have ranA : (elfVisit libHost (namedEnt "/a") [namedEnt "/b"]).run emptyState = (.ok [libX,namedEnt "/b"],afterA) := by
    unfold afterA
    exact run_ok first
  have ranX : (elfVisit libHost libX [namedEnt "/b"]).run afterA = (.ok [namedEnt "/b"],afterX) := by
    unfold afterX
    exact run_ok second
  exact .step ranA (.step ranX .refl)

theorem needed_lost : runpathRun.1 = .ok () ∧ ¬NeededSeen libHost [namedEnt "/b",namedEnt "/a"] emptyState runpathRun.2 ∧
    danglingRun.1 = .ok () ∧ ¬NeededSeen libHost [namedEnt "/c"] emptyState danglingRun.2 := by
  refine ⟨by decide +kernel,fun all => ?_,by decide +kernel,fun all => ?_⟩
  · have parses : Parses libHost (namedEnt "/b") (program "/b") (asPath "b") [] afterX :=
      program_parses (by decide +kernel) (by decide +kernel) (by decide +kernel) (by decide +kernel) (by decide +kernel)
    have found : pathStat libHost.toFileSystem (depEnt (runpathsOf (needs "l" [asPath "/y"])) (asPath "l")) =
        .ok ⟨asPath "/y/l",oneByte (S_IFREG ||| 0o644)⟩ := by decide +kernel
    have missing : components (asPath "/y/l") ∉ runpathRun.2.pathsSeen := by decide +kernel
    exact missing (all _ _ _ _ _ _ (needs "l" [asPath "/y"]) _ _ reachesB parses rfl (by decide +kernel) found)
  · have parses : Parses libHost (namedEnt "/c") (program "/c") (asPath "c") [.lib (asPath "d")] emptyState :=
      program_parses (by decide +kernel) (by decide +kernel) (by decide +kernel) (by decide +kernel) (by decide +kernel)
    have found : pathStat libHost.toFileSystem (depEnt (runpathsOf (needs "d" [])) (asPath "d")) =
        .ok ⟨asPath "/usr/lib64/d",oneByte (S_IFLNK ||| 0o777)⟩ := by decide +kernel
    have missing : components (asPath "/usr/lib64/d") ∉ danglingRun.2.pathsSeen := by decide +kernel
    exact missing (all _ _ _ _ _ _ (needs "d" []) _ _ .refl parses rfl (by decide +kernel) found)
end Rapido.Cut
