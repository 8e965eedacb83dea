import Rapido.Elf

-- The cache of an open ELF file is never seen: every answer is the one that the
-- bytes of the file give, whatever was asked before.
namespace Rapido.Elf
open Endian Eff

-- A range of the file, read without the cache.
def slice (data : List UInt8) (range : Nat × Nat) : Except ParseError (List UInt8) :=
  if range.2 > data.length then .error (.badOffset range.2) else .ok ((data.drop range.1).take (range.2 - range.1))

def firstSectionOf (data : List UInt8) (ehdr : FileHeader) (size : Nat) : Except ParseError SectionHeader := do
  let stop ← checkedAdd ehdr.eShoff size
  let buf ← slice data (ehdr.eShoff,stop)
  fromStart (SectionHeader.parseAt ehdr.endianness ehdr.elfClass buf)

def sectionCountOf (data : List UInt8) (ehdr : FileHeader) (entsize : Nat) : Except ParseError Nat :=
  if ehdr.eShnum = 0 then SectionHeader.shSize <$> firstSectionOf data ehdr entsize else .ok ehdr.eShnum

def segmentCountOf (data : List UInt8) (ehdr : FileHeader) : Except ParseError Nat :=
  if ehdr.ePhnum = PN_XNUM then SectionHeader.shInfo <$> firstSectionOf data ehdr (SectionHeader.sizeFor ehdr.elfClass)
  else .ok ehdr.ePhnum

def tableOf (data : List UInt8) (off entsize count : Nat) : Except ParseError (List UInt8) := do
  let size ← checkedMul entsize count
  let stop ← checkedAdd off size
  slice data (off,stop)

def sectionsOf (data : List UInt8) (ehdr : FileHeader) : Except ParseError (List SectionHeader) :=
  if ehdr.eShoff = 0 then .ok []
  else do
    let entsize ← validateEntsize (SectionHeader.sizeFor ehdr.elfClass) ehdr.eShentsize
    let shnum ← sectionCountOf data ehdr entsize
    let buf ← tableOf data ehdr.eShoff entsize shnum
    return collect (SectionHeader.parseAt ehdr.endianness ehdr.elfClass) buf

def segmentsOf (data : List UInt8) (ehdr : FileHeader) : Except ParseError (List ProgramHeader) :=
  if ehdr.ePhoff = 0 then .ok []
  else do
    let phnum ← segmentCountOf data ehdr
    let entsize ← validateEntsize (ProgramHeader.sizeFor ehdr.elfClass) ehdr.ePhentsize
    let buf ← tableOf data ehdr.ePhoff entsize phnum
    return collect (ProgramHeader.parseAt ehdr.endianness ehdr.elfClass) buf

def headerOf (data : List UInt8) : Except ParseError FileHeader := do
  let identBuf ← slice data (0,EI_NIDENT)
  let ident ← parseIdent identBuf
  let tailBuf ← slice data (EI_NIDENT,EI_NIDENT + tailSize ident.2.1)
  fromStart (FileHeader.parseTail ident tailBuf)

def fileOf (data : List UInt8) : Except ParseError ElfStream := do
  let ehdr ← headerOf data
  let shdrs ← sectionsOf data ehdr
  let phdrs ← segmentsOf data ehdr
  return {ehdr,shdrs,phdrs}

def dynamicTableOf (data : List UInt8) (ehdr : FileHeader) (range : Nat × Nat) : Except ParseError (Option (List Dyn)) := do
  let buf ← slice data range
  return some (collect (Dyn.parseAt ehdr.endianness ehdr.elfClass) buf)

def dynamicOf (data : List UInt8) (file : ElfStream) : Except ParseError (Option (List Dyn)) :=
  if file.shdrs ≠ [] then
    match file.shdrs.find? fun shdr => shdr.shType = SHT_DYNAMIC with
    | some shdr => do
      let range ← shdr.getDataRange
      dynamicTableOf data file.ehdr range
    | none => .ok none
  else match file.phdrs.find? fun phdr => phdr.pType = PT_DYNAMIC with
    | some phdr => do
      let range ← phdr.getFileDataRange
      dynamicTableOf data file.ehdr range
    | none => .ok none

def symbolTableOf (data : List UInt8) (file : ElfStream) (symtabType : Nat) :
    Except ParseError (Option (List UInt8 × List UInt8)) :=
  match file.shdrs.find? fun shdr => shdr.shType = symtabType with
  | none => .ok none
  | some shdr => do
    let symtab ← shdr.getDataRange
    let symbols ← slice data symtab
    let link ← shdrGet file.shdrs shdr.shLink
    let strtab ← link.getDataRange
    let strings ← slice data strtab
    let _ ← validateEntsize (Symbol.sizeFor file.ehdr.elfClass) shdr.shEntsize
    return some (symbols,strings)

-- Every range in the cache holds the bytes of the file that belong there, and
-- some ranges are known to be in it.
structure Coherent (data : List UInt8) (held : List (Nat × Nat)) (r : CachingReader) : Prop where
  file : r.data = data
  cached : r.bufs.lookup range = some buf → slice data range = .ok buf
  present : ∀ range ∈ held, (r.bufs.lookup range).isSome = true

theorem coherent_new (data : List UInt8) : Coherent data [] (.new data) := ⟨rfl,nofun,nofun⟩

theorem Coherent.fewer (coherent : Coherent data (range :: held) r) : Coherent data held r :=
  ⟨coherent.file,coherent.cached,fun other inside => coherent.present other (List.mem_cons_of_mem _ inside)⟩

-- From any coherent cache the computation ends the same way, with a coherent
-- cache.
def Answers (data : List UInt8) (held : List (Nat × Nat)) (act : Stream α) (outcome : Except ParseError α) : Prop :=
  ∀ r, Coherent data held r → (act.run r).1 = outcome ∧ Coherent data held (act.run r).2

namespace Answers
variable {data : List UInt8} {held : List (Nat × Nat)} {act : Stream α} {next : α → Stream β} {outcome : Except ParseError α}

theorem pure : Answers data held (Pure.pure value : Stream α) (.ok value) := fun _ coherent => ⟨rfl,coherent⟩

theorem ofExcept : Answers data held (.ofExcept outcome) outcome := by
  intro r coherent
  cases outcome with
  | ok value => exact ⟨rfl,coherent⟩
  | error failure => exact ⟨rfl,coherent⟩

theorem bind {rest : α → Except ParseError β} (first : Answers data held act outcome)
    (second : ∀ value, outcome = .ok value → Answers data held (next value) (rest value)) :
    Answers data held (act >>= next) (outcome >>= rest) := by
  intro r coherent
  obtain ⟨ended,kept⟩ := first r coherent
  rw [bind_run]
  cases ran : act.run r with
  | mk result after =>
    rw [ran] at ended kept
    cases ended
    cases result with
    | ok value => exact second value rfl after kept
    | error failure => exact ⟨rfl,kept⟩

theorem map (f : α → β) (first : Answers data held act outcome) :
    Answers data held (act >>= fun value => Pure.pure (f value)) (f <$> outcome) := by
  have whole : Answers data held (act >>= fun value => Pure.pure (f value)) (outcome >>= fun value => .ok (f value)) :=
    first.bind fun _ _ => pure
  cases outcome with
  | ok value => exact whole
  | error failure => exact whole

end Answers

theorem Coherent.insert (coherent : Coherent data held r) (found : slice data range = .ok buf) :
    Coherent data (range :: held) {r with bufs := (range,buf) :: r.bufs} := by
  refine ⟨coherent.file,?_,?_⟩
  · intro other bytes known
    rw [List.lookup_cons] at known
    by_cases same : other = range
    · rw [same,beq_self_eq_true] at known
      cases known
      rw [same]
      exact found
    · rw [beq_false_of_ne same] at known
      exact coherent.cached known
  · intro other inside
    rw [List.lookup_cons]
    by_cases same : other = range
    · rw [same,beq_self_eq_true]
      rfl
    · rw [beq_false_of_ne same]
      exact coherent.present other ((List.mem_cons.mp inside).resolve_left same)

-- What load_bytes does to a coherent cache. The range is in it afterwards.
theorem loadBytes_run (coherent : Coherent data held r) :
    (∃ failure, (loadBytes start stop).run r = (.error failure,r) ∧ slice data (start,stop) = .error failure) ∨
      ∃ after buf, (loadBytes start stop).run r = (.ok (),after) ∧ slice data (start,stop) = .ok buf ∧
        Coherent data ((start,stop) :: held) after := by
  cases known : r.bufs.lookup (start,stop) with
  | some buf =>
    refine .inr ⟨r,buf,by simp [loadBytes,known],coherent.cached known,coherent.file,coherent.cached,?_⟩
    intro range inside
    rcases List.mem_cons.mp inside with rfl | other
    · rw [known]
      rfl
    · exact coherent.present range other
  | none =>
    by_cases long : stop > data.length
    · exact .inl ⟨.badOffset stop,by simp [loadBytes,known,coherent.file,long],if_pos long⟩
    · have found : slice data (start,stop) = .ok ((data.drop start).take (stop - start)) := if_neg long
      exact .inr ⟨_,_,by simp [loadBytes,known,coherent.file,long],found,coherent.insert found⟩

theorem loadBytes_bind {next : Stream β} {rest : List UInt8 → Except ParseError β}
    (later : ∀ buf, slice data (start,stop) = .ok buf → Answers data ((start,stop) :: held) next (rest buf)) :
    Answers data held (loadBytes start stop >>= fun _ => next) (slice data (start,stop) >>= rest) := by
  intro r coherent
  rcases loadBytes_run coherent with ⟨failure,ran,failed⟩ | ⟨after,buf,ran,found,kept⟩
  · rw [bind_run_error ran,failed]
    exact ⟨rfl,coherent⟩
  · rw [bind_run_ok ran,found]
    obtain ⟨ended,still⟩ := later buf found after kept
    exact ⟨ended,still.fewer⟩

-- get_bytes never meets its expect() where the range was loaded before.
theorem getBytes_answers (inside : (start,stop) ∈ held) (found : slice data (start,stop) = .ok buf) :
    Answers data held (getBytes start stop) (.ok buf) := by
  intro r coherent
  obtain ⟨bytes,known⟩ := Option.isSome_iff_exists.mp (coherent.present _ inside)
  have same := coherent.cached known
  rw [found] at same
  cases same
  have ran : (getBytes start stop).run r = (.ok buf,r) := by simp [getBytes,known]
  rw [ran]
  exact ⟨rfl,coherent⟩

theorem getBytes_bind {next : List UInt8 → Stream β} {outcome : Except ParseError β} (inside : (start,stop) ∈ held)
    (found : slice data (start,stop) = .ok buf) (later : Answers data held (next buf) outcome) :
    Answers data held (getBytes start stop >>= next) outcome := by
  have whole : Answers data held (getBytes start stop >>= next) (.ok buf >>= fun _ => outcome) := by
    refine (getBytes_answers inside found).bind fun bytes same => ?_
    cases same
    exact later
  exact whole

theorem readBytes_answers (data : List UInt8) (held : List (Nat × Nat)) (start stop : Nat) :
    Answers data held (readBytes start stop) (slice data (start,stop)) := by
  have whole : Answers data held (readBytes start stop) (slice data (start,stop) >>= pure) :=
    loadBytes_bind fun _ found => getBytes_answers List.mem_cons_self found
  rwa [bind_pure] at whole

theorem firstSection_answers (data : List UInt8) (ehdr : FileHeader) (size : Nat) :
    Answers data held (firstSection ehdr size) (firstSectionOf data ehdr size) := by
  refine Answers.ofExcept.bind fun stop _ => ?_
  refine (readBytes_answers data held _ stop).bind fun buf _ => ?_
  exact .ofExcept

theorem sectionCount_answers (data : List UInt8) (ehdr : FileHeader) (entsize : Nat) :
    Answers data held (sectionCount ehdr entsize) (sectionCountOf data ehdr entsize) := by
  unfold sectionCount sectionCountOf
  by_cases extended : ehdr.eShnum = 0
  · rw [if_pos extended,if_pos extended]
    exact (firstSection_answers data ehdr entsize).map _
  · rw [if_neg extended,if_neg extended]
    exact .pure

theorem segmentCount_answers (data : List UInt8) (ehdr : FileHeader) :
    Answers data held (segmentCount ehdr) (segmentCountOf data ehdr) := by
  unfold segmentCount segmentCountOf
  by_cases extended : ehdr.ePhnum = PN_XNUM
  · rw [if_pos extended,if_pos extended]
    exact (firstSection_answers data ehdr _).map _
  · rw [if_neg extended,if_neg extended]
    exact .pure

theorem tableBytes_answers (data : List UInt8) (off entsize count : Nat) :
    Answers data held (tableBytes off entsize count) (tableOf data off entsize count) := by
  refine Answers.ofExcept.bind fun size _ => ?_
  refine Answers.ofExcept.bind fun stop _ => ?_
  exact readBytes_answers data held off stop

theorem parseSectionHeaders_answers (data : List UInt8) (ehdr : FileHeader) :
    Answers data held (parseSectionHeaders ehdr) (sectionsOf data ehdr) := by
  unfold parseSectionHeaders sectionsOf
  by_cases absent : ehdr.eShoff = 0
  · rw [if_pos absent,if_pos absent]
    exact .pure
  · rw [if_neg absent,if_neg absent]
    refine Answers.ofExcept.bind fun entsize _ => ?_
    refine (sectionCount_answers data ehdr entsize).bind fun shnum _ => ?_
    exact (tableBytes_answers data _ entsize shnum).bind fun buf _ => .pure

theorem parseProgramHeaders_answers (data : List UInt8) (ehdr : FileHeader) :
    Answers data held (parseProgramHeaders ehdr) (segmentsOf data ehdr) := by
  unfold parseProgramHeaders segmentsOf
  by_cases absent : ehdr.ePhoff = 0
  · rw [if_pos absent,if_pos absent]
    exact .pure
  · rw [if_neg absent,if_neg absent]
    refine (segmentCount_answers data ehdr).bind fun phnum _ => ?_
    refine Answers.ofExcept.bind fun entsize _ => ?_
    exact (tableBytes_answers data _ entsize phnum).bind fun buf _ => .pure

theorem clearCache_answers : Answers data [] clearCache (.ok ()) := fun _ coherent => ⟨rfl,coherent.file,nofun,nofun⟩

theorem openStream_answers (data : List UInt8) : Answers data [] openStream (fileOf data) := by
  unfold openStream fileOf headerOf
  simp only [LawfulMonad.bind_assoc]
  refine (readBytes_answers data _ _ _).bind fun identBuf _ => ?_
  refine Answers.ofExcept.bind fun ident _ => ?_
  refine (readBytes_answers data _ _ _).bind fun tailBuf _ => ?_
  refine Answers.ofExcept.bind fun ehdr _ => ?_
  refine (parseSectionHeaders_answers data ehdr).bind fun shdrs _ => ?_
  refine (parseProgramHeaders_answers data ehdr).bind fun phdrs _ => ?_
  exact clearCache_answers.bind fun _ _ => .pure

theorem dynamicTable_answers (data : List UInt8) (ehdr : FileHeader) (range : Nat × Nat) :
    Answers data held (dynamicTable ehdr range) (dynamicTableOf data ehdr range) :=
  (readBytes_answers data held _ _).bind fun _ _ => .pure

theorem dynamic_answers (data : List UInt8) (file : ElfStream) : Answers data held (dynamic file) (dynamicOf data file) := by
  unfold dynamic dynamicOf
  by_cases sections : file.shdrs ≠ []
  · rw [if_pos sections,if_pos sections]
    cases file.shdrs.find? fun shdr => shdr.shType = SHT_DYNAMIC with
    | none => exact .pure
    | some shdr => exact Answers.ofExcept.bind fun range _ => dynamicTable_answers data _ range
  · rw [if_neg sections,if_neg sections]
    cases file.phdrs.find? fun phdr => phdr.pType = PT_DYNAMIC with
    | none => exact .pure
    | some phdr => exact Answers.ofExcept.bind fun range _ => dynamicTable_answers data _ range

theorem getSymbolTableOfType_answers (data : List UInt8) (file : ElfStream) (symtabType : Nat) :
    Answers data held (getSymbolTableOfType file symtabType) (symbolTableOf data file symtabType) := by
  unfold getSymbolTableOfType symbolTableOf
  cases file.shdrs.find? fun shdr => shdr.shType = symtabType with
  | none => exact .pure
  | some shdr =>
    refine Answers.ofExcept.bind fun symtab _ => ?_
    refine loadBytes_bind fun symbols foundSymbols => ?_
    refine Answers.ofExcept.bind fun link _ => ?_
    refine Answers.ofExcept.bind fun strtab _ => ?_
    refine loadBytes_bind fun strings foundStrings => ?_
    refine Answers.ofExcept.bind fun _ _ => ?_
    have inside : (symtab.1,symtab.2) ∈ (strtab.1,strtab.2) :: (symtab.1,symtab.2) :: held :=
      List.mem_cons_of_mem _ List.mem_cons_self
    refine getBytes_bind inside foundSymbols ?_
    exact getBytes_bind List.mem_cons_self foundStrings .pure

-- No file, however broken, makes an index fall outside a buffer.
def NoPanic (outcome : Except ParseError α) : Prop := outcome ≠ .error .panic

namespace NoPanic

theorem ok : NoPanic (.ok value : Except ParseError α) := nofun

theorem error {failure : ParseError} (other : failure ≠ .panic) : NoPanic (.error failure : Except ParseError α) :=
  fun same => other (Except.error.inj same)

theorem bind {outcome : Except ParseError α} {rest : α → Except ParseError β} (first : NoPanic outcome)
    (second : ∀ value, outcome = .ok value → NoPanic (rest value)) : NoPanic (outcome >>= rest) := by
  cases outcome with
  | ok value => exact second value rfl
  | error failure => exact error fun same => first (congrArg Except.error same)

theorem map {outcome : Except ParseError α} (f : α → β) (first : NoPanic outcome) : NoPanic (f <$> outcome) := by
  cases outcome with
  | ok value => exact ok
  | error failure => exact error fun same => first (congrArg Except.error same)

theorem ite {cond : Prop} [Decidable cond] {yes no : Except ParseError α} (first : NoPanic yes) (second : NoPanic no) :
    NoPanic (if cond then yes else no) := by
  split
  · exact first
  · exact second

end NoPanic

theorem slice_noPanic (data : List UInt8) (range : Nat × Nat) : NoPanic (slice data range) := .ite (.error nofun) .ok
theorem checkedAdd_noPanic (a b : Nat) : NoPanic (checkedAdd a b) := .ite .ok (.error nofun)
theorem checkedMul_noPanic (a b : Nat) : NoPanic (checkedMul a b) := .ite .ok (.error nofun)
theorem validateEntsize_noPanic (expected entsize : Nat) : NoPanic (validateEntsize expected entsize) := .ite .ok (.error nofun)

theorem fromEiData_noPanic (eiData : UInt8) : NoPanic (fromEiData eiData) := .ite .ok (.ite .ok (.error nofun))
theorem parseClass_noPanic (eClass : UInt8) : NoPanic (parseClass eClass) := .ite .ok (.ite .ok (.error nofun))

theorem shdrGet_noPanic (shdrs : List SectionHeader) (index : Nat) : NoPanic (shdrGet shdrs index) := by
  unfold shdrGet
  split
  · exact .ok
  · exact .error nofun

theorem uintAt_fails (endian : AnyEndian) (data : List UInt8) (size : Nat) : FailsOnly (· ≠ .panic) (uintAt endian data size) := by
  refine .bind .read fun off => ?_
  refine .bind (.ofExcept fun failure failed same => checkedAdd_noPanic off size (by rw [failed,same])) fun stop => ?_
  split
  · exact .bind .update fun _ => .pure
  · exact .fail nofun

theorem parseWordAt_fails (endian : AnyEndian) (elfClass : Class) (data : List UInt8) :
    FailsOnly (· ≠ .panic) (parseWordAt endian elfClass data) := by
  cases elfClass with
  | elf32 => exact uintAt_fails endian data 4
  | elf64 => exact uintAt_fails endian data 8

theorem parseTail_fails (ident : AnyEndian × Class × UInt8 × UInt8) (data : List UInt8) :
    FailsOnly (· ≠ .panic) (FileHeader.parseTail ident data) := by
  unfold FileHeader.parseTail
  repeat refine .bind (by first | exact uintAt_fails _ _ _ | exact parseWordAt_fails _ _ _) fun _ => ?_
  exact .pure

theorem SectionHeader.parseAt_fails (endian : AnyEndian) (elfClass : Class) (data : List UInt8) :
    FailsOnly (· ≠ .panic) (SectionHeader.parseAt endian elfClass data) := by
  unfold SectionHeader.parseAt
  repeat refine .bind (by first | exact uintAt_fails _ _ _ | exact parseWordAt_fails _ _ _) fun _ => ?_
  exact .pure

theorem fromStart_noPanic {parse : Parse α} (only : FailsOnly (· ≠ .panic) parse) : NoPanic (fromStart parse) := by
  intro same
  cases ran : parse.run 0 with
  | mk result after =>
    rw [fromStart,ran] at same
    dsimp only at same
    rw [same] at ran
    exact only.error 0 .panic after trivial ran rfl

theorem firstSectionOf_noPanic (data : List UInt8) (ehdr : FileHeader) (size : Nat) : NoPanic (firstSectionOf data ehdr size) := by
  refine (checkedAdd_noPanic _ _).bind fun stop _ => ?_
  refine (slice_noPanic data _).bind fun buf _ => ?_
  exact fromStart_noPanic (SectionHeader.parseAt_fails _ _ buf)

theorem tableOf_noPanic (data : List UInt8) (off entsize count : Nat) : NoPanic (tableOf data off entsize count) := by
  refine (checkedMul_noPanic _ _).bind fun size _ => ?_
  refine (checkedAdd_noPanic _ _).bind fun stop _ => ?_
  exact slice_noPanic data _

theorem sectionsOf_noPanic (data : List UInt8) (ehdr : FileHeader) : NoPanic (sectionsOf data ehdr) := by
  refine .ite .ok ?_
  refine (validateEntsize_noPanic _ _).bind fun entsize _ => ?_
  refine NoPanic.bind (.ite (.map _ (firstSectionOf_noPanic data ehdr entsize)) .ok) fun shnum _ => ?_
  exact (tableOf_noPanic data _ entsize shnum).bind fun buf _ => .ok

theorem segmentsOf_noPanic (data : List UInt8) (ehdr : FileHeader) : NoPanic (segmentsOf data ehdr) := by
  refine .ite .ok ?_
  refine NoPanic.bind (.ite (.map _ (firstSectionOf_noPanic data ehdr _)) .ok) fun phnum _ => ?_
  refine (validateEntsize_noPanic _ _).bind fun entsize _ => ?_
  exact (tableOf_noPanic data _ entsize phnum).bind fun buf _ => .ok

theorem slice_length (found : slice data (start,stop) = .ok buf) : buf.length = stop - start := by
  unfold slice at found
  split at found
  · cases found
  · rename_i within
    cases found
    simp only [gt_iff_lt,not_lt] at within
    rw [List.length_take,List.length_drop]
    omega

theorem byteAt_noPanic (within : i < buf.length) : NoPanic (byteAt buf i) := by
  rw [byteAt,List.getElem?_eq_getElem within]
  exact .ok

theorem parseIdent_noPanic (whole : buf.length = EI_NIDENT) : NoPanic (parseIdent buf) := by
  have each : ∀ i < 16, NoPanic (byteAt buf i) := fun i within => byteAt_noPanic (by rw [whole]; exact within)
  refine NoPanic.bind ?_ fun _ _ => ?_
  · unfold verifyIdent
    rw [if_neg (by rw [whole]; decide)]
    exact .ite (.error nofun) ((each 6 (by decide)).bind fun version _ => .ite (.error nofun) .ok)
  · refine (each 4 (by decide)).bind fun eClass _ => ?_
    refine (parseClass_noPanic eClass).bind fun elfClass _ => ?_
    refine (each 5 (by decide)).bind fun eiData _ => ?_
    refine (fromEiData_noPanic eiData).bind fun endian _ => ?_
    refine (each 7 (by decide)).bind fun osabi _ => ?_
    exact (each 8 (by decide)).bind fun abiversion _ => .ok

theorem headerOf_noPanic (data : List UInt8) : NoPanic (headerOf data) := by
  refine (slice_noPanic data _).bind fun identBuf found => ?_
  refine (parseIdent_noPanic (slice_length found)).bind fun ident _ => ?_
  refine (slice_noPanic data _).bind fun tailBuf _ => ?_
  exact fromStart_noPanic (parseTail_fails ident tailBuf)

theorem fileOf_noPanic (data : List UInt8) : NoPanic (fileOf data) := by
  refine (headerOf_noPanic data).bind fun ehdr _ => ?_
  refine (sectionsOf_noPanic data ehdr).bind fun shdrs _ => ?_
  exact (segmentsOf_noPanic data ehdr).bind fun phdrs _ => .ok

theorem dynamicTableOf_noPanic (data : List UInt8) (ehdr : FileHeader) (range : Nat × Nat) :
    NoPanic (dynamicTableOf data ehdr range) := (slice_noPanic data range).bind fun _ _ => .ok

theorem dynamicOf_noPanic (data : List UInt8) (file : ElfStream) : NoPanic (dynamicOf data file) := by
  refine .ite ?_ ?_
  · split
    · exact NoPanic.bind ((checkedAdd_noPanic _ _).bind fun _ _ => .ok) fun range _ => dynamicTableOf_noPanic data _ range
    · exact .ok
  · split
    · exact NoPanic.bind ((checkedAdd_noPanic _ _).bind fun _ _ => .ok) fun range _ => dynamicTableOf_noPanic data _ range
    · exact .ok

theorem symbolTableOf_noPanic (data : List UInt8) (file : ElfStream) (symtabType : Nat) :
    NoPanic (symbolTableOf data file symtabType) := by
  unfold symbolTableOf
  split
  · exact .ok
  · refine NoPanic.bind ((checkedAdd_noPanic _ _).bind fun _ _ => .ok) fun symtab _ => ?_
    refine (slice_noPanic data symtab).bind fun symbols _ => ?_
    refine (shdrGet_noPanic _ _).bind fun link _ => ?_
    refine NoPanic.bind ((checkedAdd_noPanic _ _).bind fun _ _ => .ok) fun strtab _ => ?_
    refine (slice_noPanic data strtab).bind fun strings _ => ?_
    exact (validateEntsize_noPanic _ _).bind fun _ _ => .ok

-- What a user of an open file may ask, in any order and as often as wanted. The
-- cache stays as a failed request leaves it.
inductive Request where
  | dynamic
  | dynamicSymbolTable
deriving DecidableEq, Repr

inductive Answer where
  | dynamic (table : Option (List Dyn))
  | symbols (tables : Option (List UInt8 × List UInt8))
deriving DecidableEq, Repr

def ask (file : ElfStream) : Request → Stream Answer
  | .dynamic => do
    let table ← dynamic file
    return .dynamic table
  | .dynamicSymbolTable => do
    let tables ← dynamicSymbolTable file
    return .symbols tables

def session (file : ElfStream) : List Request → CachingReader → List (Except ParseError Answer)
  | [],_ => []
  | request :: rest,r => ((ask file request).run r).1 :: session file rest ((ask file request).run r).2

def answerOf (data : List UInt8) (file : ElfStream) : Request → Except ParseError Answer
  | .dynamic => Answer.dynamic <$> dynamicOf data file
  | .dynamicSymbolTable => Answer.symbols <$> symbolTableOf data file SHT_DYNSYM

theorem ask_answers (data : List UInt8) (file : ElfStream) (request : Request) :
    Answers data [] (ask file request) (answerOf data file request) := by
  cases request with
  | dynamic => exact (dynamic_answers data file).map _
  | dynamicSymbolTable => exact (getSymbolTableOfType_answers data file SHT_DYNSYM).map _

theorem session_answers (file : ElfStream) (coherent : Coherent data [] r) (requests : List Request) :
    session file requests r = requests.map (answerOf data file) := by
  induction requests generalizing r with
  | nil => rfl
  | cons request rest ih =>
    obtain ⟨ended,kept⟩ := ask_answers data file request r coherent
    rw [session,List.map_cons,ended,ih kept]

theorem answerOf_noPanic (data : List UInt8) (file : ElfStream) (request : Request) : NoPanic (answerOf data file request) := by
  cases request with
  | dynamic => exact (dynamicOf_noPanic data file).map _
  | dynamicSymbolTable => exact (symbolTableOf_noPanic data file SHT_DYNSYM).map _

-- An open file answers every request as the bare bytes would, whatever was asked
-- before it, and neither opening nor asking panics.
theorem open_file_answers (bytes : List UInt8) (requests : List Request) :
    (openStream.run (.new bytes)).1 = fileOf bytes ∧ NoPanic (fileOf bytes) ∧
      ∀ file, fileOf bytes = .ok file →
        session file requests (openStream.run (.new bytes)).2 = requests.map (answerOf bytes file) ∧
          ∀ outcome ∈ session file requests (openStream.run (.new bytes)).2, NoPanic outcome := by
  obtain ⟨opened,kept⟩ := openStream_answers bytes (.new bytes) (coherent_new bytes)
  refine ⟨opened,fileOf_noPanic bytes,fun file _ => ?_⟩
  have answers := session_answers file kept requests
  refine ⟨answers,fun outcome inside => ?_⟩
  rw [answers] at inside
  obtain ⟨request,_,rfl⟩ := List.mem_map.mp inside
  exact answerOf_noPanic bytes file request

-- A header that points to no tables.
def bareBytes : List UInt8 := ELFMAGIC ++ [1,1,1] ++ List.replicate 45 0
def bareFile : ElfStream := ⟨⟨.elf32,.little,0,0,0,0,0,0,0,0,0,0,0,0,0,0,0⟩,[],[]⟩

theorem bare_file_answers : fileOf bareBytes = .ok bareFile ∧
    session bareFile [.dynamic,.dynamicSymbolTable,.dynamic] (openStream.run (.new bareBytes)).2 =
      [.ok (.dynamic none),.ok (.symbols none),.ok (.dynamic none)] := by
  have opened : fileOf bareBytes = .ok bareFile := by decide +kernel
  exact ⟨opened,((open_file_answers bareBytes _).2.2 bareFile opened).1⟩

end Rapido.Elf
