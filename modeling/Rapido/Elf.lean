import Rapido.Endian
import Rapido.Host

-- src/third_party/rust-elf: reading the parts of an ELF file that elf_deps asks
-- for, where usize has 64 bits. The names of the fields are the crate's.
namespace Rapido.Elf
open Endian

inductive ParseError where
  | badMagic (magic : List UInt8)
  | unsupportedElfClass (eClass : UInt8)
  | unsupportedElfEndianness (eiData : UInt8)
  | unsupportedVersion (found expected : Nat)
  | badOffset (offset : Nat)
  | stringTableMissingNul (offset : Nat)
  | badEntsize (found expected : Nat)
  | sliceReadError (start stop : Nat)
  | integerOverflow
  | utf8Error
  -- no error of the crate: an index out of range, or an expect() that fails
  | panic
deriving DecidableEq, Repr

def checkedAdd (a b : Nat) : Except ParseError Nat := if a + b < 2^64 then .ok (a + b) else .error .integerOverflow
def checkedMul (a b : Nat) : Except ParseError Nat := if a * b < 2^64 then .ok (a * b) else .error .integerOverflow

-- endian.rs: the state is the offset, which stays where it is on failure.
abbrev Parse := Eff ParseError Nat

-- safe_from!
def uintAt (endian : AnyEndian) (data : List UInt8) (size : Nat) : Parse Nat := do
  let off ← Eff.read id
  let stop ← Eff.ofExcept (checkedAdd off size)
  if stop ≤ data.length then do
    Eff.update fun _ => stop
    return endian.decode ((data.drop off).take size)
  else .fail (.sliceReadError off stop)

def parseU16At (endian : AnyEndian) (data : List UInt8) : Parse Nat := uintAt endian data 2
def parseU32At (endian : AnyEndian) (data : List UInt8) : Parse Nat := uintAt endian data 4
def parseU64At (endian : AnyEndian) (data : List UInt8) : Parse Nat := uintAt endian data 8

-- from_le_bytes and from_be_bytes of i32 and i64
def signed (size n : Nat) : Int := if n < 256^size / 2 then n else (n : Int) - 256^size
def intAt (endian : AnyEndian) (data : List UInt8) (size : Nat) : Parse Int := do
  let n ← uintAt endian data size
  return signed size n

def parseI32At (endian : AnyEndian) (data : List UInt8) : Parse Int := intAt endian data 4
def parseI64At (endian : AnyEndian) (data : List UInt8) : Parse Int := intAt endian data 8

def fromEiData (eiData : UInt8) : Except ParseError AnyEndian :=
  if eiData = 1 then .ok .little
  else if eiData = 2 then .ok .big
  else .error (.unsupportedElfEndianness eiData)

-- file.rs
inductive Class where
  | elf32
  | elf64
deriving DecidableEq, Repr

structure FileHeader where
  elfClass : Class
  endianness : AnyEndian
  version : Nat
  osabi : UInt8
  abiversion : UInt8
  eType : Nat
  eMachine : Nat
  eEntry : Nat
  ePhoff : Nat
  eShoff : Nat
  eFlags : Nat
  eEhsize : Nat
  ePhentsize : Nat
  ePhnum : Nat
  eShentsize : Nat
  eShnum : Nat
  eShstrndx : Nat
deriving DecidableEq, Repr

def EI_NIDENT : Nat := 16
def ELF32_EHDR_TAILSIZE : Nat := 36
def ELF64_EHDR_TAILSIZE : Nat := 48
def ELFMAGIC : List UInt8 := [0x7f,0x45,0x4c,0x46]
def EV_CURRENT : UInt8 := 1

def byteAt (buf : List UInt8) (i : Nat) : Except ParseError UInt8 :=
  match buf[i]? with
  | some b => .ok b
  | none => .error .panic

def verifyIdent (buf : List UInt8) : Except ParseError Unit :=
  if buf.length < 4 then .error .panic
  else if buf.take 4 ≠ ELFMAGIC then .error (.badMagic (buf.take 4))
  else do
    let version ← byteAt buf 6
    if version ≠ EV_CURRENT then .error (.unsupportedVersion version.toNat EV_CURRENT.toNat) else .ok ()

def parseClass (eClass : UInt8) : Except ParseError Class :=
  if eClass = 1 then .ok .elf32
  else if eClass = 2 then .ok .elf64
  else .error (.unsupportedElfClass eClass)

def parseIdent (data : List UInt8) : Except ParseError (AnyEndian × Class × UInt8 × UInt8) := do
  verifyIdent data
  let eClass ← byteAt data 4
  let elfClass ← parseClass eClass
  let eiData ← byteAt data 5
  let endian ← fromEiData eiData
  let osabi ← byteAt data 7
  let abiversion ← byteAt data 8
  return (endian,elfClass,osabi,abiversion)

-- u32 as u64 in 32-bit files
def parseWordAt (endian : AnyEndian) (elfClass : Class) (data : List UInt8) : Parse Nat :=
  match elfClass with
  | .elf32 => parseU32At endian data
  | .elf64 => parseU64At endian data

def FileHeader.parseTail (ident : AnyEndian × Class × UInt8 × UInt8) (data : List UInt8) : Parse FileHeader := do
  let (endian,elfClass,osabi,abiversion) := ident
  let eType ← parseU16At endian data
  let eMachine ← parseU16At endian data
  let version ← parseU32At endian data
  let eEntry ← parseWordAt endian elfClass data
  let ePhoff ← parseWordAt endian elfClass data
  let eShoff ← parseWordAt endian elfClass data
  let eFlags ← parseU32At endian data
  let eEhsize ← parseU16At endian data
  let ePhentsize ← parseU16At endian data
  let ePhnum ← parseU16At endian data
  let eShentsize ← parseU16At endian data
  let eShnum ← parseU16At endian data
  let eShstrndx ← parseU16At endian data
  return {
    elfClass,endianness := endian,version,osabi,abiversion,eType,eMachine,eEntry,ePhoff,eShoff,eFlags,
    eEhsize,ePhentsize,ePhnum,eShentsize,eShnum,eShstrndx}

-- section.rs
structure SectionHeader where
  shName : Nat
  shType : Nat
  shFlags : Nat
  shAddr : Nat
  shOffset : Nat
  shSize : Nat
  shLink : Nat
  shInfo : Nat
  shAddralign : Nat
  shEntsize : Nat
deriving DecidableEq, Repr

def SectionHeader.parseAt (endian : AnyEndian) (elfClass : Class) (data : List UInt8) : Parse SectionHeader := do
  let shName ← parseU32At endian data
  let shType ← parseU32At endian data
  let shFlags ← parseWordAt endian elfClass data
  let shAddr ← parseWordAt endian elfClass data
  let shOffset ← parseWordAt endian elfClass data
  let shSize ← parseWordAt endian elfClass data
  let shLink ← parseU32At endian data
  let shInfo ← parseU32At endian data
  let shAddralign ← parseWordAt endian elfClass data
  let shEntsize ← parseWordAt endian elfClass data
  return {shName,shType,shFlags,shAddr,shOffset,shSize,shLink,shInfo,shAddralign,shEntsize}

def SectionHeader.sizeFor : Class → Nat
  | .elf32 => 40
  | .elf64 => 64

def SectionHeader.getDataRange (shdr : SectionHeader) : Except ParseError (Nat × Nat) := do
  let stop ← checkedAdd shdr.shOffset shdr.shSize
  return (shdr.shOffset,stop)

-- segment.rs
structure ProgramHeader where
  pType : Nat
  pOffset : Nat
  pVaddr : Nat
  pPaddr : Nat
  pFilesz : Nat
  pMemsz : Nat
  pFlags : Nat
  pAlign : Nat
deriving DecidableEq, Repr

-- The fields of a 64-bit file come in another order.
def ProgramHeader.parseAt (endian : AnyEndian) (elfClass : Class) (data : List UInt8) : Parse ProgramHeader :=
  match elfClass with
  | .elf32 => do
    let pType ← parseU32At endian data
    let pOffset ← parseU32At endian data
    let pVaddr ← parseU32At endian data
    let pPaddr ← parseU32At endian data
    let pFilesz ← parseU32At endian data
    let pMemsz ← parseU32At endian data
    let pFlags ← parseU32At endian data
    let pAlign ← parseU32At endian data
    return {pType,pOffset,pVaddr,pPaddr,pFilesz,pMemsz,pFlags,pAlign}
  | .elf64 => do
    let pType ← parseU32At endian data
    let pFlags ← parseU32At endian data
    let pOffset ← parseU64At endian data
    let pVaddr ← parseU64At endian data
    let pPaddr ← parseU64At endian data
    let pFilesz ← parseU64At endian data
    let pMemsz ← parseU64At endian data
    let pAlign ← parseU64At endian data
    return {pType,pOffset,pVaddr,pPaddr,pFilesz,pMemsz,pFlags,pAlign}

def ProgramHeader.sizeFor : Class → Nat
  | .elf32 => 32
  | .elf64 => 56

def ProgramHeader.getFileDataRange (phdr : ProgramHeader) : Except ParseError (Nat × Nat) := do
  let stop ← checkedAdd phdr.pOffset phdr.pFilesz
  return (phdr.pOffset,stop)

-- dynamic.rs
structure Dyn where
  dTag : Int
  dUn : Nat
deriving DecidableEq, Repr

def Dyn.parseAt (endian : AnyEndian) (elfClass : Class) (data : List UInt8) : Parse Dyn :=
  match elfClass with
  | .elf32 => do
    let dTag ← parseI32At endian data
    let dUn ← parseU32At endian data
    return {dTag,dUn}
  | .elf64 => do
    let dTag ← parseI64At endian data
    let dUn ← parseU64At endian data
    return {dTag,dUn}

-- symbol.rs
def Symbol.sizeFor : Class → Nat
  | .elf32 => 16
  | .elf64 => 24

-- parse.rs
def validateEntsize (expected entsize : Nat) : Except ParseError Nat :=
  if entsize = expected then .ok entsize else .error (.badEntsize entsize expected)

-- ParsingIterator::next until it returns None. Every item takes a byte or more.
def items (parseAt : Parse α) : Nat → Nat → List α
  | 0,_ => []
  | fuel+1,off => match parseAt.run off with
    | (.ok item,next) => item :: items parseAt fuel next
    | (.error _,_) => []

def collect (parseAt : List UInt8 → Parse α) (data : List UInt8) : List α := items (parseAt data) data.length 0

-- string_table.rs
def getRaw (data : List UInt8) (offset : Nat) : Except ParseError (List UInt8) :=
  if data = [] then .error (.badOffset offset)
  else if data.length < offset then .error (.badOffset offset)
  else if 0 ∈ data.drop offset then .ok ((data.drop offset).takeWhile (· ≠ 0))
  else .error (.stringTableMissingNul offset)

def stringGet (data : List UInt8) (offset : Nat) : Except ParseError Name := do
  let raw ← getRaw data offset
  if Utf8.valid raw then .ok raw else .error .utf8Error

-- elf_stream.rs
structure CachingReader where
  data : List UInt8
  bufs : List ((Nat × Nat) × List UInt8)
deriving DecidableEq, Repr

abbrev Stream := Eff ParseError CachingReader

def CachingReader.new (data : List UInt8) : CachingReader := ⟨data,[]⟩

def loadBytes (start stop : Nat) : Stream Unit := do
  let cached ← Eff.read fun r => (r.bufs.lookup (start,stop)).isSome
  if cached then pure ()
  else do
    let streamLen ← Eff.read (·.data.length)
    if stop > streamLen then .fail (.badOffset stop)
    else Eff.update fun r => {r with bufs := ((start,stop),(r.data.drop start).take (stop - start)) :: r.bufs}

def getBytes (start stop : Nat) : Stream (List UInt8) := do
  let buf ← Eff.read fun r => r.bufs.lookup (start,stop)
  match buf with
  | some bytes => return bytes
  | none => .fail .panic

def readBytes (start stop : Nat) : Stream (List UInt8) := do
  loadBytes start stop
  getBytes start stop

def clearCache : Stream Unit := Eff.update fun r => {r with bufs := []}

def fromStart (parse : Parse α) : Except ParseError α := (parse.run 0).1

-- The section header at index 0, where the counts that are too large for the
-- file header are.
def firstSection (ehdr : FileHeader) (size : Nat) : Stream SectionHeader := do
  let stop ← Eff.ofExcept (checkedAdd ehdr.eShoff size)
  let data ← readBytes ehdr.eShoff stop
  Eff.ofExcept (fromStart (SectionHeader.parseAt ehdr.endianness ehdr.elfClass data))

-- e_shnum, or sh_size of the section header at index 0
def sectionCount (ehdr : FileHeader) (entsize : Nat) : Stream Nat :=
  if ehdr.eShnum = 0 then do
    let shdr0 ← firstSection ehdr entsize
    return shdr0.shSize
  else pure ehdr.eShnum

def PN_XNUM : Nat := 0xffff

-- e_phnum, or sh_info of the section header at index 0
def segmentCount (ehdr : FileHeader) : Stream Nat :=
  if ehdr.ePhnum = PN_XNUM then do
    let shdr0 ← firstSection ehdr (SectionHeader.sizeFor ehdr.elfClass)
    return shdr0.shInfo
  else pure ehdr.ePhnum

def tableBytes (off entsize count : Nat) : Stream (List UInt8) := do
  let size ← Eff.ofExcept (checkedMul entsize count)
  let stop ← Eff.ofExcept (checkedAdd off size)
  readBytes off stop

def parseSectionHeaders (ehdr : FileHeader) : Stream (List SectionHeader) :=
  if ehdr.eShoff = 0 then pure []
  else do
    let entsize ← Eff.ofExcept (validateEntsize (SectionHeader.sizeFor ehdr.elfClass) ehdr.eShentsize)
    let shnum ← sectionCount ehdr entsize
    let buf ← tableBytes ehdr.eShoff entsize shnum
    return collect (SectionHeader.parseAt ehdr.endianness ehdr.elfClass) buf

def parseProgramHeaders (ehdr : FileHeader) : Stream (List ProgramHeader) :=
  if ehdr.ePhoff = 0 then pure []
  else do
    let phnum ← segmentCount ehdr
    let entsize ← Eff.ofExcept (validateEntsize (ProgramHeader.sizeFor ehdr.elfClass) ehdr.ePhentsize)
    let buf ← tableBytes ehdr.ePhoff entsize phnum
    return collect (ProgramHeader.parseAt ehdr.endianness ehdr.elfClass) buf

structure ElfStream where
  ehdr : FileHeader
  shdrs : List SectionHeader
  phdrs : List ProgramHeader
deriving DecidableEq, Repr

def tailSize : Class → Nat
  | .elf32 => ELF32_EHDR_TAILSIZE
  | .elf64 => ELF64_EHDR_TAILSIZE

def openStream : Stream ElfStream := do
  let identBuf ← readBytes 0 EI_NIDENT
  let ident ← Eff.ofExcept (parseIdent identBuf)
  let tailBuf ← readBytes EI_NIDENT (EI_NIDENT + tailSize ident.2.1)
  let ehdr ← Eff.ofExcept (fromStart (FileHeader.parseTail ident tailBuf))
  let shdrs ← parseSectionHeaders ehdr
  let phdrs ← parseProgramHeaders ehdr
  clearCache
  return {ehdr,shdrs,phdrs}

def SHT_DYNAMIC : Nat := 6
def SHT_DYNSYM : Nat := 11
def PT_DYNAMIC : Nat := 2

-- DynamicTable::iter over the bytes of a range
def dynamicTable (ehdr : FileHeader) (range : Nat × Nat) : Stream (Option (List Dyn)) := do
  let buf ← readBytes range.1 range.2
  return some (collect (Dyn.parseAt ehdr.endianness ehdr.elfClass) buf)

-- A file with section headers but no dynamic section is not asked for its
-- segments.
def dynamic (file : ElfStream) : Stream (Option (List Dyn)) :=
  if file.shdrs ≠ [] then
    match file.shdrs.find? fun shdr => shdr.shType = SHT_DYNAMIC with
    | some shdr => do
      let range ← Eff.ofExcept shdr.getDataRange
      dynamicTable file.ehdr range
    | none => pure none
  else match file.phdrs.find? fun phdr => phdr.pType = PT_DYNAMIC with
    | some phdr => do
      let range ← Eff.ofExcept phdr.getFileDataRange
      dynamicTable file.ehdr range
    | none => pure none

-- self.shdrs.get(index).ok_or(BadOffset)
def shdrGet (shdrs : List SectionHeader) (index : Nat) : Except ParseError SectionHeader :=
  match shdrs[index]? with
  | some shdr => .ok shdr
  | none => .error (.badOffset index)

-- get_symbol_table_of_type: the bytes of the symbol table and of its strings
def getSymbolTableOfType (file : ElfStream) (symtabType : Nat) : Stream (Option (List UInt8 × List UInt8)) :=
  match file.shdrs.find? fun shdr => shdr.shType = symtabType with
  | none => pure none
  | some shdr => do
    let symtab ← Eff.ofExcept shdr.getDataRange
    loadBytes symtab.1 symtab.2
    let link ← Eff.ofExcept (shdrGet file.shdrs shdr.shLink)
    let strtab ← Eff.ofExcept link.getDataRange
    loadBytes strtab.1 strtab.2
    let _ ← Eff.ofExcept (validateEntsize (Symbol.sizeFor file.ehdr.elfClass) shdr.shEntsize)
    let symbols ← getBytes symtab.1 symtab.2
    let strings ← getBytes strtab.1 strtab.2
    return some (symbols,strings)

def dynamicSymbolTable (file : ElfStream) : Stream (Option (List UInt8 × List UInt8)) := getSymbolTableOfType file SHT_DYNSYM

-- What elf_deps sees of a file: the tags it looks for, and the names at the
-- offsets they give.
def dynTag (tag : Int) : DynTag := if tag = 1 then .needed else if tag = 29 then .runpath else .other

def dynamicView : Except ParseError (Option (List Dyn)) → Except Unit (Option (List (DynTag × Nat)))
  | .ok table => .ok (table.map fun dyns => dyns.map fun dyn => (dynTag dyn.dTag,dyn.dUn))
  | .error _ => .error ()

def symbolView : Except ParseError (Option (List UInt8 × List UInt8)) → Except Unit (Option (Nat → Option Name))
  | .ok table => .ok (table.map fun tables off => (stringGet tables.2 off).toOption)
  | .error _ => .error ()

def elfOpen (bytes : List UInt8) : Option Rapido.ElfStream :=
  match openStream.run (.new bytes) with
  | (.error _,_) => none
  | (.ok file,reader) =>
    let dynamics := (dynamic file).run reader
    let symbols := (dynamicSymbolTable file).run dynamics.2
    some {dynamic := dynamicView dynamics.1,dynamicSymbolTable := symbolView symbols.1}

end Rapido.Elf
