import Rapido.Manifest

-- src/kmod-parser: the index of kernel modules, read from the modules.* files.
namespace Rapido.KmodParser
open UnixPath Text

abbrev Load := Eff IoError KmodContext

def named (file : String) : Name := Utf8.encode file.toList

-- BufRead::lines: a line without its newline and a carriage return before it.
def chomp (s : Str) : Str :=
  if endsWith '\n' s then (if endsWith '\r' s.dropLast then s.dropLast.dropLast else s.dropLast) else s

def lineText (raw : List UInt8) : Except IoError Str :=
  match Utf8.decode raw with
  | none => .error ⟨.invalidData,"stream did not contain valid UTF-8"⟩
  | some s => .ok (chomp s)

def readLines (fs : FileSystem) (filename : Path) : Except IoError (List (Except IoError Str)) :=
  match fs.fileOpen filename with
  | .error e => .error e
  | .ok (_,bytes) => .ok ((Cut.festLines [] bytes).map lineText)

-- The file stem of a str is UTF-8 again, so to_str() gives it back.
def extractModuleName (pathStr : Name) : Name :=
  let stem := ((fileStem pathStr).filter fun s => Utf8.valid s).getD pathStr
  let base := if named ".ko" <:+ stem then stem.take (stem.length - 3) else stem
  normalName base

def insertModule (name : Name) (m : KmodModule) : Load Unit :=
  .update fun ctx => {ctx with modulesHash:=Function.update ctx.modulesHash name (some m)}

-- The body of a loop over the lines of a file.
def forLines (fs : FileSystem) (file : String) (each : Str → Load Unit) : Load Unit := do
  let root ← Eff.read (·.moduleRoot)
  let lines ← Eff.ofExcept (readLines fs (join root (named file)))
  Eff.forEach (fun line => Eff.ofExcept line >>= each) lines

def hardModule (modulePath : Name) (deps : Str) : KmodModule :=
  ⟨.loadableModule,modulePath,(Cut.splitWhitespace (trim deps)).map Utf8.encode,[],[],[]⟩

def hardLine (line : Str) : Load Unit :=
  match splitOnce ':' line with
  | none => pure ()
  | some (front,deps) => do
    let modulePath := Utf8.encode (trim front)
    let old ← Eff.read fun ctx => ctx.modulesHash (extractModuleName modulePath)
    insertModule (extractModuleName modulePath) (hardModule modulePath deps)
    match old with
    | some _ => .fail ⟨.invalidData,"duplicate entry: " ++ Cut.debugName modulePath⟩
    | none => pure ()

def loadHardDependencies (fs : FileSystem) : Load Unit := forLines fs "modules.dep" hardLine

-- `current_list` points to the pre or to the post list of the module.
def pushSoft (m : KmodModule) : Bool → List Str → KmodModule
  | _,[] => m
  | post,part :: rest =>
    if part = "pre:".toList then pushSoft m false rest
    else if part = "post:".toList then pushSoft m true rest
    else if post then pushSoft {m with softDepsPost:=m.softDepsPost ++ [Utf8.encode part]} post rest
    else pushSoft {m with softDepsPre:=m.softDepsPre ++ [Utf8.encode part]} post rest

-- if let Some(module) = self.modules_hash.get_mut(..)
def changeModule (name : Name) (change : KmodModule → KmodModule) : Load Unit :=
  .update fun ctx => {ctx with modulesHash:=Function.update ctx.modulesHash name ((ctx.modulesHash name).map change)}

def softLine (line : Str) : Load Unit :=
  match Cut.splitWhitespace line with
  | word :: name :: part :: parts =>
    if word ≠ "softdep".toList then pure ()
    else changeModule (Utf8.encode name) fun m => pushSoft m false (part :: parts)
  | _ => pure ()

def loadSoftDependencies (fs : FileSystem) : Load Unit := forLines fs "modules.softdep" softLine

def weakLine (line : Str) : Load Unit :=
  match Cut.splitWhitespace line with
  | [word,name,dep] =>
    if word ≠ "weakdep".toList then pure ()
    else changeModule (Utf8.encode name) fun m => {m with weakDeps:=m.weakDeps ++ [Utf8.encode dep]}
  | _ => pure ()

def loadWeakDependencies (fs : FileSystem) : Load Unit := forLines fs "modules.weakdep" weakLine

def builtinModule : KmodModule := ⟨.builtin,[],[],[],[],[]⟩

-- Retain the first entry: modules.dep takes precedence.
def builtinLine (line : Str) : Load Unit :=
  if trim line = [] then pure ()
  else do
    let name := extractModuleName (Utf8.encode (trim line))
    let old ← Eff.read fun ctx => ctx.modulesHash name
    match old with
    | some _ => pure ()
    | none => insertModule name builtinModule

def loadBuiltinModules (fs : FileSystem) : Load Unit := forLines fs "modules.builtin" builtinLine

def aliasLine (line : Str) : Load Unit :=
  match Cut.splitWhitespace line with
  | word :: aliasName :: name :: _ =>
    if word ≠ "alias".toList then pure ()
    else .update fun ctx => {ctx with aliasMap:=Function.update ctx.aliasMap (Utf8.encode aliasName) (some (Utf8.encode name))}
  | _ => pure ()

def loadAliases (fs : FileSystem) : Load Unit := do
  let root ← Eff.read (·.moduleRoot)
  if fs.pathExists (join root (named "modules.alias")) then forLines fs "modules.alias" aliasLine else pure ()

def failedToLoad (fext : String) (e : IoError) : Str := ("Failed to load modules." ++ fext ++ ": " ++ e.msg).toList

def squashNotfound (fext : String) (load : Load Unit) : Eff Str KmodContext Unit := ⟨fun ctx => match load.run ctx with
  | (.error e,ctx) => if e.kind = .notFound then (.ok (),ctx) else (.error (failedToLoad fext e),ctx)
  | (.ok (),ctx) => (.ok (),ctx)⟩

def mapErr (fext : String) (load : Load Unit) : Eff Str KmodContext Unit := ⟨fun ctx => match load.run ctx with
  | (.error e,ctx) => (.error (failedToLoad fext e),ctx)
  | (.ok (),ctx) => (.ok (),ctx)⟩

def loadAll (fs : FileSystem) : Eff Str KmodContext Unit := do
  squashNotfound "dep" (loadHardDependencies fs)
  mapErr "builtin" (loadBuiltinModules fs)
  squashNotfound "softdep" (loadSoftDependencies fs)
  squashNotfound "weakdep" (loadWeakDependencies fs)
  squashNotfound "alias" (loadAliases fs)

-- KmodContext::new
def kmodContextNew (fs : FileSystem) (dirname : Path) : Except Str KmodContext :=
  match (loadAll fs).run ⟨fun _ => none,fun _ => none,dirname⟩ with
  | (.error e,_) => .error e
  | (.ok (),ctx) => .ok ctx

end Rapido.KmodParser
