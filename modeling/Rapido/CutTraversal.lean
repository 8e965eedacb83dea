import Rapido.CutInvariant

-- What tree and bin directives archive of the directories they are given.
namespace Rapido.Cut
open UnixPath Cpio Text KvConf Eff

structure Node where
  md : Metadata
  src : Path
  dst : Path

def Archived (s : State) (cs : List Component) : Prop := cs ∈ archivedPaths s.archived

theorem archive_archived (aim : c.target = dst) : Ensures pre (archive c) fun _ s => Archived s (components dst) := by
  subst aim
  refine archive_triple (fun s a _ _ => ?_) fun _ _ _ _ _ => trivial
  exact mem_archivedPaths.mpr ⟨c,List.mem_append_right _ (List.mem_singleton.mpr rfl),rfl⟩

-- gather_archive_elfs leaves these symlinks out.
def Dangling (fs : FileSystem) (node : Node) : Prop :=
  node.md.mode &&& S_IFMT = S_IFLNK ∧ ∃ e, fs.canonicalize node.src = .error e

def Fsent.node (got : Fsent) : Node := ⟨got.md,got.path,got.path⟩

-- What one turn of gather_archive_elfs does with an entry that is not in paths_seen.
structure EntTaken (fs : FileSystem) (got : Fsent) (rest items : List GatherEnt) (t : State) : Prop where
  archived : ¬Dangling fs got.node → Archived t (components got.path) ∧ components got.path ∈ t.pathsSeen
  kept : ∀ e ∈ rest, e ∈ items
  children : ∀ names n, got.md.mode &&& S_IFMT = S_IFDIR → fs.readDir got.path = .ok names → n ∈ names →
    .path (join got.path n) ∈ items

theorem insertPath_archived :
    Ensures (fun s => Archived s cs) (insertPath p) fun _ s => Archived s cs ∧ components p ∈ s.pathsSeen :=
  insertPath_triple (fun _ archived _ => ⟨archived,List.mem_cons_self⟩) fun _ archived seen => ⟨archived,seen⟩

theorem elfSymlink_taken (link : got.md.mode &&& S_IFMT = S_IFLNK) :
    Ensures pre (elfSymlink fs ent got.path amd rest) (EntTaken fs got rest) := by
  have childless : got.md.mode &&& S_IFMT ≠ S_IFDIR := by
    rw [link]
    decide
  unfold elfSymlink
  split
  · rename_i e unresolved
    refine .pure fun s _ => ⟨fun resolved => absurd ⟨link,e,unresolved⟩ resolved,fun _ h => h,?_⟩
    exact fun _ _ dir => absurd dir childless
  · refine .bind (archive_archived rfl) fun _ => ?_
    split
    · refine .bind insertPath_archived fun _ => .pure fun s archived => ⟨fun _ => archived,?_,?_⟩
      · exact fun e old => List.mem_cons_of_mem _ old
      · exact fun _ _ dir => absurd dir childless
    · exact .fail fun _ _ => trivial

theorem elfFile_taken (file : got.md.mode &&& S_IFMT = S_IFREG) :
    Ensures pre (elfFile host ent got.path got.path amd rest) (EntTaken host.toFileSystem got rest) := by
  have childless : got.md.mode &&& S_IFMT ≠ S_IFDIR := by
    rw [file]
    decide
  refine Ensures.ofExcept_bind fun ⟨_,bytes⟩ _ => .bind Ensures.any fun deps => .bind (archive_archived rfl) fun _ => ?_
  refine .bind insertPath_archived fun _ => .pure fun s archived => ⟨fun _ => archived,?_,?_⟩
  · exact fun e old => List.mem_append_right _ old
  · exact fun _ _ dir => absurd dir childless

theorem elfDir_taken : Ensures pre (elfDir fs got.path got.path amd rest) (EntTaken fs got rest) := by
  refine .bind (archive_archived rfl) fun _ => Ensures.ofExcept_bind fun names listed => .bind insertPath_archived fun _ => ?_
  refine .pure fun s archived => ⟨fun _ => archived,fun e old => List.mem_append_right _ old,?_⟩
  intro names' n _ listed' member
  rw [listed] at listed'
  cases listed'
  exact List.mem_append_left _ (List.mem_reverse.mpr (List.mem_map.mpr ⟨n,(List.mem_insertionSort _).mpr member,rfl⟩))

theorem elfOther_taken (childless : got.md.mode &&& S_IFMT ≠ S_IFDIR) :
    Ensures pre (elfOther got.path amd rest) (EntTaken fs got rest) := by
  refine .bind (archive_archived rfl) fun _ => .bind insertPath_archived fun _ => ?_
  exact .pure fun s archived => ⟨fun _ => archived,fun _ h => h,fun _ _ dir => absurd dir childless⟩

theorem elfGot_taken {start : State} {got : Fsent} :
    Ensures (fun s => s = start) (elfGot host ent got.path got.path got.md rest) fun items t =>
      (components got.path ∈ start.pathsSeen ∧ items = rest) ∨ EntTaken host.toFileSystem got rest items t := by
  have new : ∀ {act : Gather (List GatherEnt)}, Ensures (fun _ => True) act (EntTaken host.toFileSystem got rest) →
      Ensures (fun _ => True) act fun items t =>
        (components got.path ∈ start.pathsSeen ∧ items = rest) ∨ EntTaken host.toFileSystem got rest items t :=
    fun taken => taken.weaken (fun _ h => h) fun _ _ => .inr
  refine elfGot_triple (fun s same seen => .inl ⟨same ▸ seen,rfl⟩) (fun _ _ _ _ => trivial) (fun _ => Ensures.any) (fun _ _ => trivial)
    (fun _ link => new (elfSymlink_taken link)) (fun _ file => new (elfFile_taken file)) (fun _ _ => new elfDir_taken)
    fun _ childless => new (elfOther_taken childless)

theorem elfGot_kept : Ensures pre (elfGot host ent src dst md rest) fun items _ => ∀ e ∈ rest, e ∈ items := by
  refine elfGot_triple (fun _ _ _ _ h => h) (fun _ _ _ _ => trivial) (fun _ => Ensures.any) (fun _ _ => trivial)
    (fun amd _ => ?_) (fun amd _ => ?_) (fun amd _ => ?_) fun amd _ => ?_
  · unfold elfSymlink
    split
    · exact .pure fun _ _ _ h => h
    · refine .bind Ensures.any fun _ => ?_
      split
      · exact .bind Ensures.any fun _ => .pure fun _ _ _ old => List.mem_cons_of_mem _ old
      · exact .fail fun _ _ => trivial
  · exact .bind Ensures.any fun ⟨_,bytes⟩ => .bind Ensures.any fun deps => .bind Ensures.any fun _ => .bind Ensures.any fun _ =>
      .pure fun _ _ _ old => List.mem_append_right _ old
  · exact .bind Ensures.any fun _ => .bind Ensures.any fun names => .bind Ensures.any fun _ =>
      .pure fun _ _ _ old => List.mem_append_right _ old
  · exact .bind Ensures.any fun _ => .bind Ensures.any fun _ => .pure fun _ _ _ h => h

theorem elfVisit_kept : Ensures pre (elfVisit host ent rest) fun items _ => ∀ e ∈ rest, e ∈ items :=
  elfVisit_triple (fun _ _ _ _ _ _ _ h => h) (fun _ _ _ _ => trivial) (fun _ _ => trivial) fun _ _ _ _ => elfGot_kept

theorem elfVisit_taken {start : State} (plain : ∀ n d, ent ≠ .nameDst n d) (found : pathStat host.toFileSystem ent = .ok got) :
    Ensures (fun s => s = start) (elfVisit host ent rest) fun items t =>
      (components got.path ∈ start.pathsSeen ∧ items = rest) ∨ EntTaken host.toFileSystem got rest items t := by
  refine elfVisit_triple (fun _ _ _ _ failed => ?_) (fun _ _ _ _ => trivial) (fun _ _ => trivial) fun _ dst stat lands => ?_
  · cases found.symm.trans failed
  · cases found.symm.trans stat
    cases lands with
    | given absolute => exact absurd rfl (plain _ _)
    | found => exact elfGot_taken

-- A machine with a directory "/l" that holds the empty file "f".
def asPath (text : String) : Path := Utf8.encode text.toList

def plainMd (mode : UInt32) (nlink : UInt64) : Metadata := {mode,nlink,uid:=0,gid:=0,rdev:=0,mtime:=0,len:=0}

def treeHost : Host where
  cwd := [slash]
  symlinkMetadata := fun p =>
    if p = asPath "/l" then .ok (plainMd (S_IFDIR ||| 0o755) 2)
    else if p = asPath "/l/f" then .ok (plainMd (S_IFREG ||| 0o644) 1)
    else .error (.ofKind .notFound)
  fileOpen := fun _ => .error (.ofKind .notFound)
  readDir := fun p => if p = asPath "/l" then .ok [asPath "f"] else .error (.ofKind .notFound)
  readLink := fun _ => .error (.ofKind .notFound)
  canonicalize := fun _ => .error (.ofKind .notFound)
  pathExists := fun _ => false
  cwd_absolute := root_absolute
  readDir_names := by
    intro p names listed
    split at listed
    · cases listed
      decide
    · cases listed
  canonicalize_absolute := @resolves_nothing
  elfOpen := fun _ => none
  kmodContextNew := fun _ => .error []

def noConf : Map := fun _ => none
end Rapido.Cut
