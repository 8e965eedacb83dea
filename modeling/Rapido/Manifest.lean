import Rapido.Cut

-- src/bin/rapido-cut.rs: kernel modules, manifest directives and manifest_parse.
namespace Rapido.Cut
open UnixPath Cpio Text KvConf

def archiveKmodPath (fs : FileSystem) (src dst : Path) : Gather Unit := do
  let md ← Eff.ofExcept (fs.symlinkMetadata src)
  let amd ← archiveMd md
  gatherArchiveDirs (parent dst) amd
  let (_,bytes) ← Eff.ofExcept (fs.fileOpen src)
  archive (.file dst amd bytes)

-- Errors of the given computation that only say NotFound are dropped; what it
-- has done so far stays.
def ignoreNotFound (act : Gather Unit) : Gather Unit := ⟨fun s => match act.run s with
  | (.error e,s) => if e.kind = .notFound then (.ok (),s) else (.error e,s)
  | done => done⟩

def archiveHardDep (fs : FileSystem) (gk : GatherKmods) (depPath : Name) : Gather Unit := do
  let new ← insertPath (join gk.kmodDstRoot depPath)
  Eff.runIf new (archiveKmodPath fs (join gk.kmodCtx.moduleRoot depPath) (join gk.kmodDstRoot depPath))

def archiveSoftDep (fs : FileSystem) (gk : GatherKmods) (softMod : Name) : Gather Unit :=
  match gk.kmodCtx.find softMod with
  | none => pure ()
  | some m =>
    if m.status = .builtin then pure ()
    else do
      let new ← insertPath (join gk.kmodDstRoot m.relPath)
      Eff.runIf new (ignoreNotFound
        (archiveKmodPath fs (join gk.kmodCtx.moduleRoot m.relPath) (join gk.kmodDstRoot m.relPath)))

def gatherArchiveKmodAndDeps (fs : FileSystem) (name : Name) (gk : GatherKmods) : Gather Unit :=
  match gk.kmodCtx.find name with
  | none => .fail (.ofKind .notFound)
  | some rootMod =>
    if rootMod.status = .builtin then pure ()
    else do
      let new ← insertPath (join gk.kmodDstRoot rootMod.relPath)
      if new then do
        archiveKmodPath fs (join gk.kmodCtx.moduleRoot rootMod.relPath) (join gk.kmodDstRoot rootMod.relPath)
        Eff.forEach (archiveHardDep fs gk) rootMod.hardDepsPaths
        Eff.forEach (archiveSoftDep fs gk) (rootMod.softDepsPre ++ rootMod.softDepsPost ++ rootMod.weakDeps)
      -- a duplicate is skipped with all its deps
      else pure ()

def archiveDbFile (fs : FileSystem) (dstRoot moduleRoot : Path) (fileName : Name) : Gather Unit := do
  let new ← insertPath (join dstRoot fileName)
  Eff.runIf new (ignoreNotFound (archiveKmodPath fs (join moduleRoot fileName) (join dstRoot fileName)))

def kmodContextFor (host : Host) (conf : Map) (krel : Str) (dstRoot : Path) : Except Str KmodContext :=
  match conf "KERNEL_INSTALL_MOD_PATH".toList with
  | some (c :: rest) =>
    host.kmodContextNew (join (Utf8.encode (c :: rest)) (Utf8.encode ("lib/modules/".toList ++ krel)))
  | _ =>
    if host.pathExists dstRoot then host.kmodContextNew dstRoot
    else host.kmodContextNew (join (Utf8.encode "/lib/modules/".toList) (Utf8.encode krel))

-- GatherKmods::init
def gatherKmodsInit (host : Host) (conf : Map) : Gather GatherKmods := do
  let krel ← Eff.ofExcept (confSrcOrHostKernelVers host.toFileSystem conf)
  let dstRoot := join (Utf8.encode "/usr/lib/modules/".toList) (Utf8.encode krel)
  match kmodContextFor host conf krel dstRoot with
  | .error e => .fail ⟨.invalidInput,String.ofList e⟩
  | .ok ctx => do
    Eff.forEach (archiveDbFile host.toFileSystem dstRoot ctx.moduleRoot) MODULE_DB_FILES
    return ⟨dstRoot,ctx⟩

def gatherOneKmod (fs : FileSystem) (gk : GatherKmods) (ignoreMissing : Bool) (name : Name) : Gather Unit := ⟨fun s =>
  match (gatherArchiveKmodAndDeps fs name gk).run s with
  | (.error e,s) =>
    if e.kind = .notFound then
      if ignoreMissing then (.ok (),s)
      else (.error ⟨.notFound,Utf8.display name ++ " missing from: " ++ debugName gk.kmodCtx.moduleRoot⟩,s)
    else (.error e,s)
  | done => done⟩

def knownKmods (host : Host) (conf : Map) : Gather GatherKmods := do
  let known ← Eff.read (·.gk)
  match known with
  | some gk => pure gk
  | none => do
    let gk ← gatherKmodsInit host conf
    Eff.update fun s => {s with gk:=some gk}
    return gk

def gatherArchiveKmods (host : Host) (conf : Map) (kmods : List Name) (ignoreMissing : Bool) : Gather Unit := do
  let gk ← knownKmods host conf
  Eff.forEach (gatherOneKmod host.toFileSystem gk ignoreMissing) kmods

def subVarsLoop (conf : Map) : Bool → Str → List Str → Except String Str
  | _,acc,[] => .ok acc
  | false,acc,block :: rest =>
    if endsWith '$' block then subVarsLoop conf true (acc ++ block.dropLast) rest
    else subVarsLoop conf false (acc ++ block) rest
  | true,acc,block :: rest =>
    match splitInclusive brace block with
    | [] => .error "variables must be wrapped in \x7b\x7d braces"
    | first :: pieces =>
      if first ≠ [openBrace] then .error "variables must be wrapped in \x7b\x7d braces" else
      match pieces with
      | [] => .error "no closing brace for variable"
      | var :: pieces =>
        if endsWith closeBrace var = false then .error "no closing brace for variable" else
        match conf var.dropLast with
        | none => .error "invalid variable substitution: not seen"
        | some val => match pieces with
          | [] => subVarsLoop conf false (acc ++ val) rest
          | tail :: _ =>
            if endsWith '$' tail then subVarsLoop conf true (acc ++ val ++ tail.dropLast) rest
            else subVarsLoop conf false (acc ++ val ++ tail) rest

def subPathVars (conf : Map) (p : Str) : Except String Str := subVarsLoop conf false [] (splitInclusive (· == '$') p)

def manifestNameSub (conf : Map) (name : Option Str) : Except IoError Name :=
  match name with
  | none => .error (.ofKind .invalidData)
  | some p => match subPathVars conf p with
    | .error _ => .error (.ofKind .invalidData)
    | .ok p => .ok (Utf8.encode p)

def manifestNameSubAbsPath (fs : FileSystem) (conf : Map) (name : Option Str) : Except IoError Path := do
  let p ← manifestNameSub conf name
  match absolute fs.cwd p with
  | none => .error (.ofKind .invalidData)
  | some p => .ok p

-- Parents, the entry itself, then the entry in paths_seen.
def archiveNew (p : Path) (amd : ArchiveMd) (c : Call) : Gather Unit := do
  gatherArchiveDirs (parent p) amd
  archive c
  let _ ← insertPath p

def manifestDir (fs : FileSystem) (conf : Map) (name : Option Str) : Gather Unit := do
  let p ← Eff.ofExcept (manifestNameSubAbsPath fs conf name)
  let seen ← pathSeen p
  if seen then pure ()
  else
    let amd := {CPIO_AMD_DEFAULT with mode:=S_IFDIR ||| 0o755}
    archiveNew p amd (.path p amd)

def manifestSlink (fs : FileSystem) (conf : Map) (name slinkTgt : Option Str) : Gather Unit := do
  let p ← Eff.ofExcept (manifestNameSubAbsPath fs conf name)
  let seen ← pathSeen p
  if seen then pure ()
  else do
    let tgt ← Eff.ofExcept (manifestNameSub conf slinkTgt)
    let amd := {CPIO_AMD_DEFAULT with mode:=S_IFLNK ||| 0o777}
    archiveNew p amd (.symlink p amd tgt)

def manifestFile (fs : FileSystem) (conf : Map) (name src : Option Str) : Gather Unit := do
  let p ← Eff.ofExcept (manifestNameSubAbsPath fs conf name)
  let seen ← pathSeen p
  if seen then pure ()
  else match src with
    | some _ => do
      let src ← Eff.ofExcept (manifestNameSub conf src)
      let (md,bytes) ← Eff.ofExcept (fs.fileOpen src)
      let amd ← archiveMd md
      archiveNew p amd (.file p amd bytes)
    | none => archiveNew p CPIO_AMD_DEFAULT (.path p CPIO_AMD_DEFAULT)

-- "/rapido_autorun"
def AUTORUN_DIR : Path := Utf8.encode "/rapido_autorun".toList
-- {:03}
def pad3 (n : Nat) : Str := List.leftpad 3 '0' (Nat.toDigits 10 n)

def autorunDst (src : Path) (idx : UInt32) : Except IoError Path :=
  match fileName src with
  | none => .error (.ofKind .invalidInput)
  | some n =>
    if Utf8.valid n then .ok (AUTORUN_DIR ++ slash :: Utf8.encode (pad3 idx.toNat) ++ 45 :: n)
    else .error (.ofKind .invalidInput)

-- only a single parent, so without gather_archive_dirs()
def autorunParent : Gather Unit := do
  archive (.path AUTORUN_DIR {CPIO_AMD_DEFAULT with mode:=S_IFDIR ||| 0o755})
  let _ ← insertPath AUTORUN_DIR

def manifestAutorun (fs : FileSystem) (conf : Map) (name : Option Str) : Gather Unit := do
  let src ← Eff.ofExcept (manifestNameSubAbsPath fs conf name)
  let idx ← Eff.read (·.autorunIdx)
  let dst ← Eff.ofExcept (autorunDst src idx)
  Eff.runIf (idx = 0) autorunParent
  let (md,bytes) ← Eff.ofExcept (fs.fileOpen src)
  let amd ← archiveMd md
  archive (.file dst amd bytes)
  Eff.update fun s => {s with autorunIdx:=s.autorunIdx + 1}

def manifestTree (fs : FileSystem) (conf : Map) (fuel : Nat) (name src : Option Str) : Gather Unit := do
  let dst ← Eff.ofExcept (manifestNameSubAbsPath fs conf name)
  if isAbsolute dst = false then .fail (.ofKind .invalidInput)
  else do
    let src ← Eff.ofExcept (manifestNameSub conf src)
    gatherArchiveData fs fuel [⟨src,dst,0⟩]

-- str::split_whitespace
def wordsFrom : Str → Str → List Str
  | acc,[] => if acc = [] then [] else [acc]
  | acc,c :: rest =>
    if whitespace c then (if acc = [] then wordsFrom [] rest else acc :: wordsFrom [] rest)
    else wordsFrom (acc ++ [c]) rest
def splitWhitespace (line : Str) : List Str := wordsFrom [] line

inductive Etype where
  | dir
  | slink
  | includeManifest
  | file
  | bin
  | tryBin
  | kmod
  | tryKmod
  | autorun
  | tree
  | filter
deriving DecidableEq, Repr

def etypeOf (word : Str) : Option Etype :=
  if word = "dir".toList then some .dir
  else if word = "slink".toList then some .slink
  else if word = "include".toList then some .includeManifest
  else if word = "file".toList then some .file
  else if word = "bin".toList then some .bin
  else if word = "try-bin".toList then some .tryBin
  else if word = "kmod".toList then some .kmod
  else if word = "try-kmod".toList then some .tryKmod
  else if word = "autorun".toList then some .autorun
  else if word = "tree".toList then some .tree
  else if word = "filter".toList then some .filter
  else none

-- The lines of an open manifest that read_line has not returned yet, as bytes.
abbrev Fest := List (List UInt8)

def festLines : List UInt8 → List UInt8 → Fest
  | acc,[] => if acc = [] then [] else [acc]
  | acc,b :: rest => if b = 10 then (acc ++ [b]) :: festLines [] rest else festLines (acc ++ [b]) rest

def manifestInclude (fs : FileSystem) (conf : Map) (name : Option Str) : Gather Fest := do
  let p ← Eff.ofExcept (manifestNameSub conf name)
  let got ← Eff.ofExcept (pathStat fs (.manifest p))
  let (_,bytes) ← Eff.ofExcept (fs.fileOpen got.path)
  return festLines [] bytes

def manifestKmod (host : Host) (conf : Map) (ignoreMissing : Bool) (kmod : Option Str) : Gather Unit :=
  match kmod with
  | none => .fail (.ofKind .invalidData)
  | some kmod => gatherArchiveKmods host conf [Utf8.encode kmod] ignoreMissing

def manifestAutoruns (fs : FileSystem) (conf : Map) (locations : List Str) : Gather Unit := do
  let before ← Eff.read (·.autorunIdx)
  Eff.forEach (fun location => manifestAutorun fs conf (some location)) locations
  let after ← Eff.read (·.autorunIdx)
  Eff.runIf (before = after) (.fail (.ofKind .invalidData))

-- A directive with its words, which are taken from the front of `args`. What it
-- leaves of them is unhandled; an include returns the manifest it opened.
def directive (host : Host) (conf : Map) (fuel : Nat) (etype : Etype) (args : List Str) : Gather (List Str × List Fest) := do
  match etype with
  | .dir => do
    manifestDir host.toFileSystem conf args[0]?
    return (args.drop 1,[])
  | .slink => do
    manifestSlink host.toFileSystem conf args[0]? args[1]?
    return (args.drop 2,[])
  | .includeManifest => do
    let fest ← manifestInclude host.toFileSystem conf args[0]?
    return (args.drop 1,[fest])
  | .file => do
    manifestFile host.toFileSystem conf args[0]? args[1]?
    return (args.drop 2,[])
  | .bin => do
    let src ← Eff.ofExcept (manifestNameSub conf args[0]?)
    gatherArchiveElfs host fuel [.name src]
    return (args.drop 1,[])
  | .tryBin => do
    let src ← Eff.ofExcept (manifestNameSub conf args[0]?)
    gatherArchiveElfs host fuel [.nameTry src]
    return (args.drop 1,[])
  | .kmod => do
    manifestKmod host conf false args[0]?
    return (args.drop 1,[])
  | .tryKmod => do
    manifestKmod host conf true args[0]?
    return (args.drop 1,[])
  | .autorun => do
    manifestAutoruns host.toFileSystem conf args
    return ([],[])
  | .tree => do
    manifestTree host.toFileSystem conf fuel args[0]? args[1]?
    return (args.drop 2,[])
  | .filter => do
    let p ← Eff.ofExcept (manifestNameSubAbsPath host.toFileSystem conf args[0]?)
    let _ ← insertPath p
    return (args.drop 1,[])

def manifestParseOne (host : Host) (conf : Map) (fuel : Nat) (line : Str) : Gather (List Fest) :=
  match splitWhitespace line with
  | [] => pure []
  | word :: args =>
    if startsWith '#' word then pure []
    else match etypeOf word with
      | none => .fail (.ofKind .unsupported)
      | some etype => do
        let (trail,opened) ← directive host conf fuel etype args
        if trail ≠ [] then .fail (.ofKind .invalidInput) else return opened

-- One turn of the loop: the line is read from the last manifest of the stack,
-- and an included manifest is put on top of it.
def festVisit (host : Host) (conf : Map) (fuel : Nat) (fest : Fest) (rest : List Fest) : Gather (List Fest) :=
  match fest with
  | [] => pure rest
  | bytes :: lines => match Utf8.decode bytes with
    | none => .fail (.ofKind .brokenPipe)
    | some line =>
      if bytes.length > 16 * 1024 then .fail (.ofKind .invalidInput)
      else do
        let opened ← manifestParseOne host conf fuel line
        return opened ++ lines :: rest

-- `fests` is a Vec: its last element is read first. The counter of autorun
-- directives starts at zero.
def manifestParse (host : Host) (conf : Map) (fuel : Nat) (fests : List Fest) : Gather Unit := do
  Eff.update fun s => {s with autorunIdx:=0}
  Worklist.loop spent (festVisit host conf fuel) fuel fests.reverse

end Rapido.Cut
