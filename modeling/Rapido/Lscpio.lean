import Rapido.CutBoot

namespace Rapido.Utf8
open Text Cpio

end Rapido.Utf8

-- src/bin/lscpio.rs
namespace Rapido.Lscpio
open Text KvConf UnixPath Cpio Newc

def nul : Char := Char.ofNat 0

-- What has been printed.
abbrev Listing := Eff IoError Str

def println (line : Str) : Listing Unit := .update (· ++ (line ++ [newline]))

-- The whole name buffer is read, padding and all.
def nameOf (ent : ArchiveEnt) : Except IoError Str :=
  match Utf8.decode ent.name with
  | none => .error (.ofKind .invalidData)
  | some s => match splitOnce nul s with
    | none => .error (.ofKind .invalidData)
    | some (before,_) => .ok before

-- {: <9} {}
def lineOf (len : UInt32) (name : Str) : Str := (Nat.toDigits 10 len.toNat).rightpad 9 ' ' ++ ' ' :: name

def listLoop : Nat → Reader → Listing Unit
  | 0,_ => .fail (.ofKind .outOfFuel)
  | fuel+1,r =>
    match next r with
    | (.panicked,_) => .fail ⟨.panic,"archive_walker.next()"⟩
    | (.done,_) => pure ()
    | (.item (.error e),_) => .fail e
    | (.item (.ok ent),r) => do
      let name ← Eff.ofExcept (nameOf ent)
      println (lineOf ent.md.len name)
      listLoop fuel r

def main (fs : FileSystem) (args : List Path) : Listing Unit :=
  match args with
  | [_,img] => do
    let (_,data) ← Eff.ofExcept (fs.fileOpen img)
    listLoop (data.length + 1) (archiveWalk data)
  | _ => do
    println "Usage: lscpio INITRAMFS".toList
    .fail (.ofKind .invalidInput)

-- The length of the data of the entry that a call writes.
def sizeOf : Call → UInt32
  | .path _ _ => 0
  | .symlink _ _ tgt => .ofNat tgt.length
  | .file _ md _ => md.len
  | .trailer => 0

-- One line for each call, up to the trailer or to the first name that is not UTF-8.
inductive Listed : List Call → Except IoError Unit → Str → Prop where
  | ended : Listed (.trailer :: calls) (.ok ()) []
  | cons (named : c.Named fname) (read : Utf8.decode fname = some s) (rest : Listed calls outcome text) :
      Listed (c :: calls) outcome (lineOf (sizeOf c) (s.takeWhile (· ≠ nul)) ++ [newline] ++ text)
  | broken (named : c.Named fname) (unread : Utf8.decode fname = none) : Listed (c :: calls) (.error (.ofKind .invalidData)) []

variable {c : Call} {e : Entry} {props : ArchiveProperties} {fs : FileSystem}

end Rapido.Lscpio
