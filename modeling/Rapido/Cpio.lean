import Rapido.Io
import Rapido.Radix
import Rapido.UnixPath

-- src/cpio: the newc writer.
namespace Rapido.Cpio
open UnixPath Radix

def NEWC_HDR_LEN : Nat := 110
def PATH_MAX : Nat := 4096
def S_IFCHR : UInt32 := 0o020000
def S_IFDIR : UInt32 := 0o040000
def S_IFBLK : UInt32 := 0o060000
def S_IFREG : UInt32 := 0o100000
def S_IFLNK : UInt32 := 0o120000
def S_IFMT : UInt32 := 0o170000

structure ArchiveProperties where
  initialIno : UInt32 := 0
  dataAlign : UInt32 := 0
  namesizeMax : UInt32 := 4096
  initialDataOff : UInt64 := 0
  fixedMtime : Option UInt32 := none
  fixedUid : Option UInt32 := none
  fixedGid : Option UInt32 := none
deriving DecidableEq, Repr

-- off and ino wrap as they do in the release build that is shipped.
structure ArchiveState where
  props : ArchiveProperties
  off : UInt64
  ino : UInt32
deriving DecidableEq, Repr

def ArchiveState.new (props : ArchiveProperties) : ArchiveState := ⟨props,0,props.initialIno⟩

structure ArchiveMd where
  nlink : UInt32
  mode : UInt32
  uid : UInt32
  gid : UInt32
  mtime : UInt32
  rmajor : UInt32
  rminor : UInt32
  len : UInt32
deriving DecidableEq, Repr

-- fs::Metadata, as far as it is read.
structure Metadata where
  mode : UInt32
  uid : UInt32
  gid : UInt32
  nlink : UInt64
  mtime : Int
  rdev : UInt64
  len : UInt64
deriving DecidableEq, Repr

-- The kernel's 32-bit dev_t is mmmM MMmm, the 64-bit one of glibc extends it.
def devMajor (rdev : UInt64) : UInt32 :=
  let high : UInt64 := (rdev >>> 32) &&& 0xfffff000
  let low : UInt64 := (rdev >>> 8) &&& 0x00000fff
  (high ||| low).toUInt32
def devMinor (rdev : UInt64) : UInt32 :=
  let high : UInt64 := (rdev >>> 12) &&& 0xffffff00
  let low : UInt64 := rdev &&& 0x000000ff
  (high ||| low).toUInt32

-- ArchiveMd::from
def ArchiveMd.fromMetadata (state : ArchiveState) (md : Metadata) : Except IoError ArchiveMd := do
  let mtime ← match state.props.fixedMtime with
    | some t => .ok t
    | none => bif decide (0 ≤ md.mtime ∧ md.mtime < 2^32) then .ok (UInt32.ofNat md.mtime.toNat)
      else .error ⟨.invalidInput,"mtime too large for cpio"⟩
  let nlink32 : Option UInt32 := if md.nlink.toNat < 2^32 then some md.nlink.toUInt32 else none
  let kind := md.mode &&& S_IFMT
  let (nlink,rmajor,rminor) : Option UInt32 × UInt32 × UInt32 :=
    if kind = S_IFBLK ∨ kind = S_IFCHR then
      (nlink32,devMajor md.rdev,devMinor md.rdev)
    else if kind = S_IFREG then (some 1,0,0)
    else (nlink32,0,0)
  let len ← bif decide (md.len.toNat < 2^32) then .ok md.len.toUInt32
    else .error ⟨.invalidInput,"file too large for newc"⟩
  match nlink with
  | none => .error ⟨.invalidInput,"nlink too large"⟩
  | some nlink => .ok {
      mode := md.mode
      uid := state.props.fixedUid.getD md.uid
      gid := state.props.fixedGid.getD md.gid
      nlink,mtime,rmajor,rminor,len }

-- "/" and "./" are kept where nothing else is left.
def trimmedName (path : Path) : List UInt8 :=
  let outpath := match stripRoot path with
    | some p => if p.length = 0 then path else p
    | none => path
  match stripCurDir outpath with
  | some p => if p.length = 0 then outpath else p
  | none => outpath

def pathTrimPrefixes (path : Path) : Except IoError (List UInt8) :=
  let fname := trimmedName path
  if fname.length + 1 ≥ PATH_MAX then .error ⟨.invalidInput,"path too long"⟩ else .ok fname

-- NEWC_HDR_FMT with major, minor and chksum zero, as every writer passes them.
def newcHdr (ino : UInt32) (md : ArchiveMd) (filesize : UInt32) (namesize : Nat) : List UInt8 :=
  [48,55,48,55,48,49] ++ fmtHex 8 ino.toNat ++ fmtHex 8 md.mode.toNat ++ fmtHex 8 md.uid.toNat ++
    fmtHex 8 md.gid.toNat ++ fmtHex 8 md.nlink.toNat ++ fmtHex 8 md.mtime.toNat ++
    fmtHex 8 filesize.toNat ++ fmtHex 8 0 ++ fmtHex 8 0 ++ fmtHex 8 md.rmajor.toNat ++
    fmtHex 8 md.rminor.toNat ++ fmtHex 8 namesize ++ fmtHex 8 0

def archivePadlen (off alignment : UInt64) : UInt64 :=
  (alignment - (off &&& (alignment - 1))) % alignment

-- The &mut ArchiveState and the writer that every archive function is given.
-- The writer takes every byte.
structure Archive where
  state : ArchiveState
  out : List UInt8
deriving DecidableEq, Repr

abbrev Write := Eff IoError Archive

def Archive.new (props : ArchiveProperties) : Archive := ⟨.new props,[]⟩

def writeAll (bytes : List UInt8) : Write Unit := .update fun a => {a with out:=a.out ++ bytes}
def advance (n : UInt64) : Write Unit := .update fun a => {a with state.off:=a.state.off + n}
def takeIno : Write UInt32 := do
  let ino ← Eff.read (·.state.ino)
  Eff.update fun a => {a with state.ino:=a.state.ino + 1}
  return ino
def zeros (n : Nat) : List UInt8 := List.replicate n 0

-- The name bytes with their terminator and the padding to a 4 byte boundary.
def writeName (fname : List UInt8) : Write Unit := do
  writeAll fname
  advance (.ofNat fname.length)
  let off ← Eff.read (·.state.off)
  let seekLen := 1 + archivePadlen (off + 1) 4
  writeAll (zeros seekLen.toNat)
  advance seekLen

-- The padding after a data segment.
def writeDataPad : Write Unit := do
  let off ← Eff.read (·.state.off)
  let dpadLen := archivePadlen off 4
  writeAll ([0,0,0].take dpadLen.toNat)
  advance dpadLen

def archivePath (path : Path) (md : ArchiveMd) : Write Unit := do
  let fname ← Eff.ofExcept (pathTrimPrefixes path)
  if (md.mode &&& S_IFMT = S_IFREG ∧ md.len > 0) ∨ md.mode &&& S_IFMT = S_IFLNK then
    Eff.fail ⟨.invalidInput,"archive_path does not support data files or symlinks"⟩
  else do
    let ino ← takeIno
    writeAll (newcHdr ino md 0 (fname.length + 1))
    advance (.ofNat NEWC_HDR_LEN)
    writeName fname

def archiveSymlink (path : Path) (md : ArchiveMd) (symlinkTgt : Path) : Write Unit := do
  let fname ← Eff.ofExcept (pathTrimPrefixes path)
  if symlinkTgt.length ≥ PATH_MAX then Eff.fail ⟨.invalidInput,"symlink path too long"⟩
  else if md.mode &&& S_IFMT ≠ S_IFLNK then Eff.fail (.ofKind .invalidInput)
  else do
    let datalen := UInt32.ofNat symlinkTgt.length
    let ino ← takeIno
    writeAll (newcHdr ino md datalen (fname.length + 1))
    advance (.ofNat NEWC_HDR_LEN)
    writeName fname
    writeAll symlinkTgt
    advance datalen.toUInt64
    writeDataPad

-- The zeros to inject after the name so that the data starts on data_align;
-- zero when alignment is off or would make the name field too large.
def dataAlignSeek (state : ArchiveState) (md : ArchiveMd) (fname : List UInt8) : Except IoError UInt32 :=
  if state.props.dataAlign > 0 ∧ md.len > state.props.dataAlign then
    let len := archivePadlen (state.props.initialDataOff + state.off + .ofNat NEWC_HDR_LEN +
      .ofNat fname.length + 1) state.props.dataAlign.toUInt64
    let paddedNamesize := len + .ofNat fname.length + 1
    if paddedNamesize > state.props.namesizeMax.toUInt64 then .ok 0
    else if len.toNat < 2^32 then .ok len.toUInt32
    else .error ⟨.panic,"len.try_into().unwrap()"⟩
  else .ok 0

def writeFileName (fname : List UInt8) (seek : UInt32) : Write Unit :=
  if seek > 0 then do
    writeAll fname
    advance (.ofNat fname.length)
    let off ← Eff.read (·.state.off)
    let seekLen := 1 + seek.toUInt64
    if archivePadlen (off + seekLen) 4 ≠ 0 then Eff.fail ⟨.panic,"assert_eq!(archive_padlen(..), 0)"⟩
    else do
      writeAll (zeros seekLen.toNat)
      advance seekLen
  else writeName fname

-- io::copy drains the reader before the length is looked at.
def copyData (md : ArchiveMd) (data : List UInt8) : Write Unit :=
  if md.len > 0 then do
    writeAll data
    if data.length ≠ md.len.toNat then Eff.fail ⟨.unexpectedEof,"copy returned unexpected length"⟩
    else do
      advance md.len.toUInt64
      writeDataPad
  else pure ()

-- `data` is what the reader yields until its end of file.
def archiveFile (path : Path) (md : ArchiveMd) (data : List UInt8) : Write Unit := do
  let fname ← Eff.ofExcept (pathTrimPrefixes path)
  if md.mode &&& S_IFMT ≠ S_IFREG then Eff.fail ⟨.invalidInput,"not a file"⟩
  else do
    let state ← Eff.read (·.state)
    let seek ← Eff.ofExcept (dataAlignSeek state md fname)
    let ino ← takeIno
    writeAll (newcHdr ino md md.len (fname.length + 1 + seek.toNat))
    advance (.ofNat NEWC_HDR_LEN)
    writeFileName fname seek
    copyData md data

-- "TRAILER!!!"
def trailerName : List UInt8 := [84,82,65,73,76,69,82,33,33,33]
def trailerMd : ArchiveMd := ⟨1,0,0,0,0,0,0,0⟩

def archiveTrailer : Write UInt64 := do
  let namesize := trailerName.length + 1
  writeAll (newcHdr 0 trailerMd 0 namesize)
  advance (.ofNat NEWC_HDR_LEN)
  let off ← Eff.read (·.state.off)
  let paddingLen := archivePadlen (off + .ofNat namesize) 4
  writeAll (trailerName ++ [0] ++ [0,0,0].take paddingLen.toNat)
  advance (.ofNat namesize + paddingLen)
  Eff.read (·.state.off)

end Rapido.Cpio
