import Rapido.Cpio
import Rapido.KvConf
import Rapido.Utf8

-- What rapido-cut sees of the machine it runs on. Nothing changes while it runs.
namespace Rapido
open UnixPath Text Cpio KvConf

-- A Rust String that is only handled as a file or library name.
abbrev Name := List UInt8

structure FileSystem where
  cwd : Path
  symlinkMetadata : Path → Except IoError Metadata
  -- File::open with the file's metadata and its bytes up to the end
  fileOpen : Path → Except IoError (Metadata × List UInt8)
  -- fs::read_dir, the names in no particular order
  readDir : Path → Except IoError (List Name)
  readLink : Path → Except IoError Path
  canonicalize : Path → Except IoError Path
  pathExists : Path → Bool
  cwd_absolute : isAbsolute cwd = true
  readDir_names : readDir p = .ok names → ∀ n ∈ names, n ≠ [] ∧ slash ∉ n ∧ n ≠ [dot] ∧ n ≠ [dot,dot]
  canonicalize_absolute : canonicalize p = .ok q → isAbsolute q = true

-- A machine that works in its root and lists and resolves nothing.
theorem root_absolute : isAbsolute [slash] = true := rfl

theorem lists_nothing {_ : Path} {names : List Name} (listed : (.error (.ofKind .notFound) : Except IoError (List Name)) = .ok names) :
    ∀ n ∈ names, n ≠ [] ∧ slash ∉ n ∧ n ≠ [dot] ∧ n ≠ [dot,dot] := by
  cases listed

theorem resolves_nothing {_ q : Path} (resolved : (.error (.ofKind .notFound) : Except IoError Path) = .ok q) : isAbsolute q = true := by
  cases resolved

inductive DynTag where
  | needed
  | runpath
  | other
deriving DecidableEq, Repr

-- The elf crate's view of a file. `dynamic` is file.dynamic() with each tag and
-- d_val(), `dynamicSymbolTable` the string table of the dynamic symbols.
structure ElfStream where
  dynamic : Except Unit (Option (List (DynTag × Nat)))
  dynamicSymbolTable : Except Unit (Option (Nat → Option Name))

-- src/kmod-parser
inductive ModuleStatus where
  | builtin
  | loadableModule
deriving DecidableEq, Repr

structure KmodModule where
  status : ModuleStatus
  relPath : Name
  hardDepsPaths : List Name
  softDepsPre : List Name
  softDepsPost : List Name
  weakDeps : List Name
deriving DecidableEq, Repr

structure KmodContext where
  modulesHash : Name → Option KmodModule
  aliasMap : Name → Option Name
  moduleRoot : Path

-- "modules." and each of these
def MODULE_DB_FILES : List Name := ["dep","dep.bin","alias","alias.bin","softdep","weakdep","builtin","builtin.bin",
  "builtin.alias.bin","builtin.modinfo","symbols","symbols.bin","order","fips","devname"].map
  fun suffix => Utf8.encode ("modules.".toList ++ suffix.toList)

def normalName (name : Name) : Name := name.map fun b => if b = 45 then 95 else b

def KmodContext.lookup (ctx : KmodContext) (name : Name) : Option KmodModule :=
  match ctx.modulesHash name with
  | some found => some found
  | none => (ctx.aliasMap name).bind ctx.modulesHash

-- KmodContext::find: the normalized name has no '-' left, so the recursion is
-- one level deep.
def KmodContext.find (ctx : KmodContext) (name : Name) : Option KmodModule :=
  match ctx.lookup name with
  | some found => some found
  | none => if normalName name ≠ name then ctx.lookup (normalName name) else none

structure Host extends FileSystem where
  -- ElfStream::open_stream on a file with these bytes
  elfOpen : List UInt8 → Option ElfStream
  -- KmodContext::new
  kmodContextNew : Path → Except Str KmodContext

def hostKernelVersParse (kvers : List UInt8) : Except IoError Str :=
  match Utf8.decode kvers with
  | none => .error (.ofKind .invalidData)
  | some s =>
    if "Linux version ".toList <+: s then
      match splitOnce ' ' (s.drop 14) with
      | some (rel,_) => .ok rel
      | none => .error (.ofKind .invalidData)
    else .error (.ofKind .invalidData)

def hostKernelVers (fs : FileSystem) : Except IoError Str := do
  let (_,kvers) ← fs.fileOpen (Utf8.encode "/proc/version".toList)
  hostKernelVersParse kvers

-- src/lib.rs
def confSrcOrHostKernelVers (fs : FileSystem) (conf : Map) : Except IoError Str :=
  match conf "KERNEL_SRC".toList with
  | some (c :: rest) => do
    let (_,bytes) ← fs.fileOpen (Utf8.encode (c :: rest ++ "/include/config/kernel.release".toList))
    return Utf8.lossy (if bytes.getLast? = some 10 then bytes.dropLast else bytes)
  | _ => match conf "KERNEL_RELEASE".toList with
    | some krel => .ok krel
    | none => hostKernelVers fs

end Rapido
