import Rapido.Host
import Rapido.CpioAccounting
import Rapido.Worklist
import Mathlib.Data.List.Sort

-- src/bin/rapido-cut.rs: gathering files into the initramfs archive.
namespace Rapido.Cut
open UnixPath Cpio

def BIN_PATHS : List Path := ["/usr/bin","/usr/sbin","/usr/lib/systemd","/bin","/sbin"].map fun d => Utf8.encode d.toList
-- on x86_64
def LIB_PATHS : List Path := ["/usr/lib64","/usr/lib","/lib64","/lib","/usr/lib/x86_64-linux-gnu"].map
  fun d => Utf8.encode d.toList
def MANIFEST_PATHS : List Path := ["manifest"].map fun d => Utf8.encode d.toList

def GATHER_ITEM_IGNORE_PARENT : UInt32 := 1

def CPIO_AMD_DEFAULT : ArchiveMd := ⟨1,S_IFREG ||| 0o755,0,0,0,0,0,0⟩

structure Fsent where
  path : Path
  md : Metadata
deriving DecidableEq, Repr

structure GatherItem where
  src : Path
  dst : Path
  flags : UInt32
deriving DecidableEq, Repr

inductive GatherEnt where
  | name (n : Name)
  | nameStatic (n : Name)
  | nameDst (n : Name) (dst : Path)
  | nameTry (n : Name)
  | path (p : Path)
  | lib (n : Name)
  | libRunPath (n : Name) (paths : List Name)
  | manifest (n : Name)
deriving DecidableEq, Repr

structure GatherKmods where
  kmodDstRoot : Path
  kmodCtx : KmodContext

-- The &mut arguments of the gather functions: the archive writer, paths_seen
-- with paths as their components, libs_seen, the kernel modules and the
-- autorun counter. `archived` records the calls the writer has carried out.
structure State where
  archive : Archive
  archived : List Call := []
  pathsSeen : List (List Component) := []
  libsSeen : List Name := []
  gk : Option GatherKmods := none
  autorunIdx : UInt32 := 0

abbrev Gather := Eff IoError State

def archive (c : Call) : Gather Unit := ⟨fun s => match c.run.run s.archive with
  | (.ok (),a) => (.ok (),{s with archive:=a,archived:=s.archived ++ [c]})
  | (.error e,a) => (.error e,{s with archive:=a})⟩

-- paths_seen.contains and paths_seen.insert
def pathSeen (p : Path) : Gather Bool := .read fun s => decide (components p ∈ s.pathsSeen)
def insertPath (p : Path) : Gather Bool := do
  let seen ← pathSeen p
  if seen then pure false
  else do
    Eff.update fun s => {s with pathsSeen:=components p :: s.pathsSeen}
    return true

def archiveMd (md : Metadata) : Gather ArchiveMd :=
  Eff.read (·.archive.state) >>= fun state => .ofExcept (ArchiveMd.fromMetadata state md)

-- {:?} of a name that needs no escapes, and of a list of such names
def debugName (n : Name) : String := "\"" ++ Utf8.display n ++ "\""
def debugList (names : List Name) : String := "[" ++ ", ".intercalate (names.map debugName) ++ "]"

def firstStat (fs : FileSystem) (name : Name) : List Path → Option Fsent
  | [] => none
  | dir :: rest => match fs.symlinkMetadata (join dir name) with
    | .ok md => some ⟨join dir name,md⟩
    | .error _ => firstStat fs name rest

-- A name with a separator in it is a path.
def statByName (fs : FileSystem) (searchPaths : List Path) (missing : String) (name : Name) : Except IoError Fsent :=
  if slash ∈ name then
    match fs.symlinkMetadata name with
    | .ok md => match absolute fs.cwd name with
      | some p => .ok ⟨p,md⟩
      | none => .error ⟨.panic,"absolute failed for good path"⟩
    | .error _ => .error ⟨.notFound,Utf8.display name ++ " missing"⟩
  else match firstStat fs name searchPaths with
    | some got => .ok got
    | none => .error ⟨.notFound,Utf8.display name ++ " missing from: " ++ missing⟩

def pathStat (fs : FileSystem) : GatherEnt → Except IoError Fsent
  | .path p => match fs.symlinkMetadata p with
    | .ok md => .ok ⟨p,md⟩
    | .error e => .error e
  | .name n => statByName fs BIN_PATHS (debugList BIN_PATHS) n
  | .nameStatic n => statByName fs BIN_PATHS (debugList BIN_PATHS) n
  | .nameDst n _ => statByName fs BIN_PATHS (debugList BIN_PATHS) n
  | .nameTry n => statByName fs BIN_PATHS (debugList BIN_PATHS) n
  | .lib n => statByName fs LIB_PATHS (debugList LIB_PATHS) n
  | .libRunPath n paths =>
    let missing := debugList paths ++ " & " ++ debugList LIB_PATHS
    if slash ∈ n then statByName fs LIB_PATHS missing n
    else match firstStat fs n paths with
      | some got => .ok got
      | none => statByName fs LIB_PATHS missing n
  | .manifest n => statByName fs MANIFEST_PATHS (debugList MANIFEST_PATHS) n

def offsets (tag : DynTag) (dynamics : List (DynTag × Nat)) : List Nat :=
  dynamics.filterMap fun d => if d.1 = tag then some d.2 else none

-- The needed names, each pushed once over all files. The state is dups_filter.
def neededEnts (runpaths : List Name) (strs : Nat → Option Name) : List Nat → Eff IoError (List Name) (List GatherEnt)
  | [] => pure []
  | off :: rest => match strs off with
    | none => .fail (.ofKind .invalidData)
    | some s => do
      let dup ← Eff.read fun seen => decide (s ∈ seen)
      if dup then neededEnts runpaths strs rest
      else do
        Eff.update fun seen => s :: seen
        let ret ← neededEnts runpaths strs rest
        return (if runpaths.length > 0 then .libRunPath s runpaths else .lib s) :: ret

def elfDeps (host : Host) (bytes : List UInt8) : Eff IoError (List Name) (List GatherEnt) :=
  match host.elfOpen bytes with
  | none => .fail (.ofKind .invalidInput)
  | some file => match file.dynamic with
    | .error () => .fail (.ofKind .invalidData)
    | .ok none => pure []
    | .ok (some dynamics) => match file.dynamicSymbolTable with
      | .error () => .fail (.ofKind .invalidData)
      | .ok none => pure []
      | .ok (some strs) =>
        neededEnts ((offsets .runpath dynamics).filterMap strs) strs (offsets .needed dynamics)

-- `if let Ok(mut d) = elf_deps(..)`: a failure is ignored, but the names it has
-- already put into libs_seen stay there.
def elfDepsOrNone (host : Host) (bytes : List UInt8) : Gather (List GatherEnt) := ⟨fun s =>
  match (elfDeps host bytes).run s.libsSeen with
  | (.ok deps,seen) => (.ok deps,{s with libsSeen:=seen})
  | (.error _,seen) => (.ok [],{s with libsSeen:=seen})⟩

-- The path of `here`, a PathBuf that starts as "/" and is only pushed and popped.
def rootPath (here : List Name) : Path := slash :: unsegments here

-- 0111 is a decimal literal.
def parentDirsAmd (child : ArchiveMd) : ArchiveMd :=
  {child with
    mode := if child.mode &&& S_IFMT = S_IFDIR then child.mode else (child.mode &&& ~~~S_IFMT) ||| S_IFDIR ||| 111
    nlink := 2,rmajor := 0,rminor := 0,len := 0}

def dirsLoop (amd : ArchiveMd) : List Name → List Component → Gather Unit
  | _,[] => pure ()
  | here,.rootDir :: rest => dirsLoop amd here rest
  | here,.curDir :: rest => dirsLoop amd here rest
  | here,.parentDir :: rest =>
    if here = [] then .fail (.ofKind .invalidInput) else dirsLoop amd here.dropLast rest
  | here,.normal c :: rest => do
    let new ← insertPath (rootPath (here ++ [c]))
    Eff.runIf new (archive (.path (rootPath (here ++ [c])) amd))
    dirsLoop amd (here ++ [c]) rest

def gatherArchiveDirs (path : Option Path) (childAmd : ArchiveMd) : Gather Unit :=
  match path with
  | none => pure ()
  | some p =>
    if isAbsolute p = false then .fail ⟨.panic,"non-absolute path, check path_stat and dst paths"⟩
    else do
      let seen ← pathSeen p
      if seen then pure () else dirsLoop (parentDirsAmd childAmd) [] (components p)

def bytesLe : List UInt8 → List UInt8 → Bool
  | [],_ => true
  | _ :: _,[] => false
  | a :: as,b :: bs => a < b || (a == b && bytesLe as bs)

-- entries.sort(); paths with one parent are ordered as their last components.
def sortNames (names : List Name) : List Name := names.insertionSort fun a b => bytesLe a b = true

def GatherEnt.isLib : GatherEnt → Bool
  | .lib _ => true
  | .libRunPath _ _ => true
  | _ => false

-- A symlink is archived with its canonical target, which is gathered next.
-- One whose target cannot be resolved is left out.
def elfSymlink (fs : FileSystem) (ent : GatherEnt) (dst : Path) (amd : ArchiveMd) (rest : List GatherEnt) :
    Gather (List GatherEnt) :=
  match fs.canonicalize dst with
  | .error _ => pure rest
  | .ok canonTgt => do
    archive (.symlink dst amd canonTgt)
    if Utf8.valid canonTgt then do
      let _ ← insertPath dst
      return (if ent.isLib then .lib canonTgt else .name canonTgt) :: rest
    else .fail (.ofKind .invalidInput)

-- Only executables and libraries are parsed.
def depsFor (host : Host) (ent : GatherEnt) (amd : ArchiveMd) (bytes : List UInt8) : Gather (List GatherEnt) :=
  if amd.mode &&& 0o111 ≠ 0 ∨ ent.isLib then elfDepsOrNone host bytes else pure []

def elfFile (host : Host) (ent : GatherEnt) (src dst : Path) (amd : ArchiveMd) (rest : List GatherEnt) :
    Gather (List GatherEnt) := do
  let (_,bytes) ← Eff.ofExcept (host.fileOpen src)
  let deps ← depsFor host ent amd bytes
  archive (.file dst amd bytes)
  let _ ← insertPath dst
  return deps.reverse ++ rest

def elfDir (fs : FileSystem) (src dst : Path) (amd : ArchiveMd) (rest : List GatherEnt) : Gather (List GatherEnt) := do
  archive (.path dst amd)
  let entries ← Eff.ofExcept (fs.readDir src)
  let _ ← insertPath dst
  return ((sortNames entries).map fun e => .path (join src e)).reverse ++ rest

def elfOther (dst : Path) (amd : ArchiveMd) (rest : List GatherEnt) : Gather (List GatherEnt) := do
  archive (.path dst amd)
  let _ ← insertPath dst
  return rest

-- The body of the loop for an entry that path_stat found at `src`.
def elfGot (host : Host) (ent : GatherEnt) (src dst : Path) (md : Metadata) (rest : List GatherEnt) :
    Gather (List GatherEnt) := do
  let seen ← pathSeen dst
  if seen then pure rest
  else do
    let amd ← archiveMd md
    gatherArchiveDirs (parent dst) amd
    if amd.mode &&& S_IFMT = S_IFLNK then
      match ent with
      | .nameDst _ _ => .fail (.ofKind .invalidInput)
      | _ => elfSymlink host.toFileSystem ent dst amd rest
    else if amd.mode &&& S_IFMT = S_IFREG ∧ amd.len > 0 then elfFile host ent src dst amd rest
    else if amd.mode &&& S_IFMT = S_IFDIR then elfDir host.toFileSystem src dst amd rest
    else elfOther dst amd rest

def elfVisit (host : Host) (ent : GatherEnt) (rest : List GatherEnt) : Gather (List GatherEnt) :=
  match pathStat host.toFileSystem ent with
  | .error e => match ent with
    | .nameTry _ => pure rest
    | _ => .fail e
  | .ok got => match ent with
    | .nameDst _ d =>
      if isAbsolute d = false then .fail ⟨.panic,"assert!(dst.is_absolute())"⟩ else elfGot host ent got.path d got.md rest
    | _ => elfGot host ent got.path got.path got.md rest

def spent : IoError := ⟨.outOfFuel,""⟩

-- `elfs` is a Vec: its last element is popped first.
def gatherArchiveElfs (host : Host) (fuel : Nat) (elfs : List GatherEnt) : Gather Unit :=
  Worklist.loop spent (elfVisit host) fuel elfs.reverse

-- The body of the loop for an item with the given metadata that is new.
def dataItem (fs : FileSystem) (item : GatherItem) (amd : ArchiveMd) (rest : List GatherItem) : Gather (List GatherItem) :=
  if amd.mode &&& S_IFMT = S_IFDIR then do
    archive (.path item.dst amd)
    let entries ← Eff.ofExcept (fs.readDir item.src)
    return ((sortNames entries).map fun e =>
      ⟨join item.src e,join item.dst e,GATHER_ITEM_IGNORE_PARENT⟩).reverse ++ rest
  else if amd.mode &&& S_IFMT = S_IFREG ∧ amd.len > 0 then do
    let (_,bytes) ← Eff.ofExcept (fs.fileOpen item.src)
    archive (.file item.dst amd bytes)
    return rest
  else if amd.mode &&& S_IFMT = S_IFLNK then do
    let tgt ← Eff.ofExcept (fs.readLink item.src)
    archive (.symlink item.dst amd tgt)
    return rest
  else do
    archive (.path item.dst amd)
    return rest

def missingItem (src : Path) (e : IoError) : IoError :=
  if e.kind = .notFound then ⟨.notFound,debugName src ++ " missing"⟩ else e

def dataVisit (fs : FileSystem) (item : GatherItem) (rest : List GatherItem) : Gather (List GatherItem) :=
  match fs.symlinkMetadata item.src with
  | .error e => .fail (missingItem item.src e)
  | .ok md => do
    let amd ← archiveMd md
    let new ← insertPath item.dst
    if new then do
      Eff.runIf (item.flags &&& GATHER_ITEM_IGNORE_PARENT = 0) (gatherArchiveDirs (parent item.dst) amd)
      dataItem fs item amd rest
    else pure rest

def gatherArchiveData (fs : FileSystem) (fuel : Nat) (items : List GatherItem) : Gather Unit :=
  Worklist.loop spent (dataVisit fs) fuel items.reverse

end Rapido.Cut
