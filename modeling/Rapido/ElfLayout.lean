import Rapido.ElfCache

-- What a file has to look like for the ELF reader to open it: where the headers
-- stand and which bytes they are made of.
namespace Rapido.Elf
open Endian Eff

-- A file's length is a u64.
variable {data : List UInt8} (short : data.length < 2^64)

theorem except_map_ok {first : Except ε α} {f : α → β} : f <$> first = .ok result ↔ ∃ value, first = .ok value ∧ f value = result := by
  cases first with
  | error failure => exact ⟨nofun,nofun⟩
  | ok value =>
    constructor
    · rintro ⟨⟩
      exact ⟨value,rfl,rfl⟩
    · rintro ⟨_,⟨⟩,rfl⟩
      rfl

theorem checked_ok {a c : Nat} : (if a < 2^64 then .ok a else .error .integerOverflow : Except ParseError Nat) = .ok c ↔
    a < 2^64 ∧ c = a := by
  constructor
  · intro ran
    split at ran
    · rename_i small
      cases ran
      exact ⟨small,rfl⟩
    · cases ran
  · rintro ⟨small,rfl⟩
    exact if_pos small

theorem checkedAdd_ok : checkedAdd a b = .ok c ↔ a + b < 2^64 ∧ c = a + b := checked_ok
theorem checkedMul_ok : checkedMul a b = .ok c ↔ a * b < 2^64 ∧ c = a * b := checked_ok

theorem slice_ok (forward : start ≤ stop) : slice data (start,stop) = .ok buf ↔ At data start buf ∧ stop = start + buf.length := by
  unfold slice
  constructor
  · intro found
    split at found
    · cases found
    · rename_i within
      cases found
      simp only [gt_iff_lt,not_lt] at within
      refine ⟨at_taken (by omega),?_⟩
      rw [List.length_take,List.length_drop]
      omega
  · rintro ⟨here,rfl⟩
    have within := here.length_le
    rw [if_neg (by simpa using within)]
    simp only [Nat.add_sub_cancel_left,here.taken]

include short in
theorem uintAt_ok (endian : AnyEndian) : (uintAt endian data width).run off = (.ok n,next) ↔
    n < 256^width ∧ next = off + width ∧ At data off (endian.encode width n) := by
  by_cases within : off + width ≤ data.length
  · have added : checkedAdd off width = .ok (off + width) := checkedAdd_ok.mpr ⟨by omega,rfl⟩
    have ran : (uintAt endian data width).run off = (.ok (endian.decode ((data.drop off).take width)),off + width) := by
      simp [uintAt,added,within]
    have here := at_taken within
    have length : ((data.drop off).take width).length = width := by
      rw [List.length_take,List.length_drop]
      omega
    rw [ran]
    constructor
    · rintro ⟨⟩
      have small := endian.decode_lt ((data.drop off).take width)
      have back := endian.encode_decode ((data.drop off).take width)
      rw [length] at small back
      rw [back]
      exact ⟨small,rfl,here⟩
    · rintro ⟨small,rfl,encoded⟩
      rw [here.unique encoded (by rw [length,AnyEndian.length_encode]),endian.decode_encode small]
  · constructor
    · intro ran
      obtain ⟨off',_,read,ran⟩ := bind_ok.mp ran
      cases read
      obtain ⟨stop,_,added,ran⟩ := bind_ok.mp ran
      obtain ⟨sum,rfl⟩ := ofExcept_run_ok added
      obtain ⟨_,rfl⟩ := checkedAdd_ok.mp sum
      dsimp only [id] at ran
      rw [if_neg within] at ran
      cases ran
    · rintro ⟨_,_,encoded⟩
      have inside := encoded.length_le
      rw [AnyEndian.length_encode] at inside
      exact absurd inside within

-- The fields of a record stand one after the other from one offset to another.
def Fields (endian : AnyEndian) (data : List UInt8) : List (Nat × Nat) → Nat → Nat → Prop
  | [],off,next => off = next
  | (width,n) :: rest,off,next => n < 256^width ∧ At data off (endian.encode width n) ∧ Fields endian data rest (off + width) next

theorem fields_iff (endian : AnyEndian) (some : fields ≠ []) : Fields endian data fields off next ↔
    Fit fields ∧ At data off (endian.bytesOf fields) ∧ next = off + (fields.map Prod.fst).sum := by
  induction fields generalizing off with
  | nil => exact absurd rfl some
  | cons field rest ih =>
    obtain ⟨width,n⟩ := field
    rw [Fields,fit_cons,at_bytesOf_cons,List.map_cons,List.sum_cons]
    cases rest with
    | nil =>
      have trailing : At data off (endian.encode width n) → At data (off + width) (endian.bytesOf []) := by
        rintro ⟨before,after,rfl,rfl⟩
        exact ⟨before ++ endian.encode width n,after,by simp,by simp [AnyEndian.bytesOf]⟩
      constructor
      · rintro ⟨small,here,rfl⟩
        exact ⟨⟨small,fit_nil⟩,⟨here,trailing here⟩,rfl⟩
      · rintro ⟨⟨small,_⟩,⟨here,_⟩,rfl⟩
        exact ⟨small,here,rfl⟩
    | cons second more =>
      rw [ih (List.cons_ne_nil _ _)]
      constructor
      · rintro ⟨small,here,fit,later,rfl⟩
        exact ⟨⟨small,fit⟩,⟨here,later⟩,Nat.add_assoc _ _ _⟩
      · rintro ⟨⟨small,fit⟩,⟨here,later⟩,rfl⟩
        exact ⟨small,here,fit,later,(Nat.add_assoc _ _ _).symm⟩

include short in
theorem uintAt_bind (endian : AnyEndian) {next : Nat → Parse α} : (uintAt endian data width >>= next).run off = (.ok item,stop) ↔
    ∃ n, n < 256^width ∧ At data off (endian.encode width n) ∧ (next n).run (off + width) = (.ok item,stop) := by
  rw [bind_ok]
  constructor
  · rintro ⟨n,middle,started,ran⟩
    obtain ⟨small,rfl,here⟩ := (uintAt_ok short endian).mp started
    exact ⟨n,small,here,ran⟩
  · rintro ⟨n,small,here,ran⟩
    exact ⟨n,off + width,(uintAt_ok short endian).mpr ⟨small,rfl,here⟩,ran⟩

def wordSize : Class → Nat
  | .elf32 => 4
  | .elf64 => 8

theorem parseWordAt_eq (endian : AnyEndian) (elfClass : Class) (data : List UInt8) :
    parseWordAt endian elfClass data = uintAt endian data (wordSize elfClass) := by
  cases elfClass with
  | elf32 => rfl
  | elf64 => rfl

-- The parser succeeds wherever that many bytes are left.
def Total (data : List UInt8) (parse : Parse α) (size : Nat) : Prop :=
  ∀ off, off + size ≤ data.length → ∃ item next, parse.run off = (.ok item,next)

theorem total_pure : Total data (pure item : Parse α) size := fun off _ => ⟨item,off,rfl⟩

include short in
theorem total_bind {endian : AnyEndian} {next : Nat → Parse α} (less : width ≤ size)
    (later : ∀ n, Total data (next n) (size - width)) : Total data (uintAt endian data width >>= next) size := by
  intro off within
  have small := endian.decode_lt ((data.drop off).take width)
  have back := endian.encode_decode ((data.drop off).take width)
  have length : ((data.drop off).take width).length = width := by
    rw [List.length_take,List.length_drop]
    omega
  rw [length] at small back
  have here : At data off ((data.drop off).take width) := at_taken (by omega)
  rw [← back] at here
  obtain ⟨item,stop,ran⟩ := later _ (off + width) (by omega)
  exact ⟨item,stop,(uintAt_bind short endian).mpr ⟨_,small,here,ran⟩⟩

def SectionHeader.fields (elfClass : Class) (shdr : SectionHeader) : List (Nat × Nat) :=
  [(4,shdr.shName),(4,shdr.shType),(wordSize elfClass,shdr.shFlags),(wordSize elfClass,shdr.shAddr),(wordSize elfClass,shdr.shOffset),
    (wordSize elfClass,shdr.shSize),(4,shdr.shLink),(4,shdr.shInfo),(wordSize elfClass,shdr.shAddralign),
    (wordSize elfClass,shdr.shEntsize)]

include short in
theorem SectionHeader.parseAt_fields (endian : AnyEndian) (elfClass : Class) :
    (SectionHeader.parseAt endian elfClass data).run off = (.ok item,next) ↔
      Fields endian data (SectionHeader.fields elfClass item) off next := by
  simp only [SectionHeader.parseAt,parseU32At,parseWordAt_eq,uintAt_bind short,pure_run,Prod.mk.injEq,Except.ok.injEq,
    SectionHeader.fields,Fields]
  constructor
  · rintro ⟨_,fit1,at1,_,fit2,at2,_,fit3,at3,_,fit4,at4,_,fit5,at5,_,fit6,at6,_,fit7,at7,_,fit8,at8,_,fit9,at9,_,fit10,at10,rfl,rfl⟩
    exact ⟨fit1,at1,fit2,at2,fit3,at3,fit4,at4,fit5,at5,fit6,at6,fit7,at7,fit8,at8,fit9,at9,fit10,at10,rfl⟩
  · rintro ⟨fit1,at1,fit2,at2,fit3,at3,fit4,at4,fit5,at5,fit6,at6,fit7,at7,fit8,at8,fit9,at9,fit10,at10,rfl⟩
    exact ⟨_,fit1,at1,_,fit2,at2,_,fit3,at3,_,fit4,at4,_,fit5,at5,_,fit6,at6,_,fit7,at7,_,fit8,at8,_,fit9,at9,_,fit10,at10,rfl,rfl⟩

include short in
theorem SectionHeader.parseAt_total (endian : AnyEndian) (elfClass : Class) :
    Total data (SectionHeader.parseAt endian elfClass data) (SectionHeader.sizeFor elfClass) := by
  unfold SectionHeader.parseAt
  simp only [parseU32At,parseWordAt_eq]
  cases elfClass with
  | elf32 | elf64 =>
    repeat refine total_bind short (by decide) fun _ => ?_
    exact total_pure

def ProgramHeader.fields (elfClass : Class) (phdr : ProgramHeader) : List (Nat × Nat) :=
  match elfClass with
  | .elf32 => [(4,phdr.pType),(4,phdr.pOffset),(4,phdr.pVaddr),(4,phdr.pPaddr),(4,phdr.pFilesz),(4,phdr.pMemsz),(4,phdr.pFlags),
    (4,phdr.pAlign)]
  | .elf64 => [(4,phdr.pType),(4,phdr.pFlags),(8,phdr.pOffset),(8,phdr.pVaddr),(8,phdr.pPaddr),(8,phdr.pFilesz),(8,phdr.pMemsz),
    (8,phdr.pAlign)]

include short in
theorem ProgramHeader.parseAt_fields (endian : AnyEndian) (elfClass : Class) :
    (ProgramHeader.parseAt endian elfClass data).run off = (.ok item,next) ↔
      Fields endian data (ProgramHeader.fields elfClass item) off next := by
  cases elfClass with
  | elf32 | elf64 =>
    simp only [ProgramHeader.parseAt,parseU32At,parseU64At,uintAt_bind short,pure_run,Prod.mk.injEq,Except.ok.injEq,
      ProgramHeader.fields,Fields]
    constructor
    · rintro ⟨_,fit1,at1,_,fit2,at2,_,fit3,at3,_,fit4,at4,_,fit5,at5,_,fit6,at6,_,fit7,at7,_,fit8,at8,rfl,rfl⟩
      exact ⟨fit1,at1,fit2,at2,fit3,at3,fit4,at4,fit5,at5,fit6,at6,fit7,at7,fit8,at8,rfl⟩
    · rintro ⟨fit1,at1,fit2,at2,fit3,at3,fit4,at4,fit5,at5,fit6,at6,fit7,at7,fit8,at8,rfl⟩
      exact ⟨_,fit1,at1,_,fit2,at2,_,fit3,at3,_,fit4,at4,_,fit5,at5,_,fit6,at6,_,fit7,at7,_,fit8,at8,rfl,rfl⟩

include short in
theorem ProgramHeader.parseAt_total (endian : AnyEndian) (elfClass : Class) :
    Total data (ProgramHeader.parseAt endian elfClass data) (ProgramHeader.sizeFor elfClass) := by
  unfold ProgramHeader.parseAt
  cases elfClass with
  | elf32 | elf64 =>
    repeat refine total_bind short (by decide) fun _ => ?_
    exact total_pure

-- The two's complement of d_tag.
def unsigned (size : Nat) (z : Int) : Nat := (z % 256^size).toNat

theorem signed_iff (positive : 0 < size) : n < 256^size ∧ signed size n = z ↔
    n = unsigned size z ∧ unsigned size z < 256^size ∧ -(256^size : Int) ≤ 2 * z ∧ 2 * z < 256^size := by
  obtain ⟨half,even⟩ : ∃ half, 256^size = 2 * half := ⟨128 * 256^(size - 1),by rw [← Nat.mul_assoc,← Nat.pow_succ']; congr 1; omega⟩
  have cast : (256^size : Int) = 2 * half := by exact_mod_cast even
  unfold unsigned signed
  rw [cast,even,Nat.mul_div_cancel_left _ (by decide)]
  constructor
  · rintro ⟨small,value⟩
    split at value
    · subst value
      rw [Int.emod_eq_of_lt (by omega) (by omega)]
      omega
    · subst value
      rw [Int.sub_emod_right,Int.emod_eq_of_lt (by omega) (by omega)]
      omega
  · rintro ⟨found,small,low,high⟩
    by_cases negative : z < 0
    · have shifted : z % (2 * half) = z + 2 * half := by
        rw [← Int.add_emod_right,Int.emod_eq_of_lt (by omega) (by omega)]
      rw [shifted] at found small
      rw [if_neg (by omega)]
      omega
    · rw [Int.emod_eq_of_lt (by omega) (by omega)] at found small
      rw [if_pos (by omega)]
      omega

def Dyn.fields (elfClass : Class) (dyn : Dyn) : List (Nat × Nat) :=
  [(wordSize elfClass,unsigned (wordSize elfClass) dyn.dTag),(wordSize elfClass,dyn.dUn)]

def Dyn.Legal (elfClass : Class) (dyn : Dyn) : Prop :=
  -(256^wordSize elfClass : Int) ≤ 2 * dyn.dTag ∧ 2 * dyn.dTag < 256^wordSize elfClass

theorem Dyn.parseAt_eq (endian : AnyEndian) (elfClass : Class) (data : List UInt8) :
    Dyn.parseAt endian elfClass data = (do
      let tag ← uintAt endian data (wordSize elfClass)
      let dUn ← uintAt endian data (wordSize elfClass)
      return {dTag := signed (wordSize elfClass) tag,dUn}) := by
  cases elfClass with
  | elf32 | elf64 =>
    simp only [Dyn.parseAt,parseI32At,parseI64At,intAt,bind_assoc]
    rfl

include short in
theorem Dyn.parseAt_fields (endian : AnyEndian) (elfClass : Class) : (Dyn.parseAt endian elfClass data).run off = (.ok item,next) ↔
    item.Legal elfClass ∧ Fields endian data (item.fields elfClass) off next := by
  have positive : 0 < wordSize elfClass := by cases elfClass <;> decide
  simp only [Dyn.parseAt_eq,uintAt_bind short,pure_run,Prod.mk.injEq,Except.ok.injEq,Dyn.fields,Fields]
  constructor
  · rintro ⟨tag,fit1,at1,dUn,fit2,at2,rfl,rfl⟩
    obtain ⟨same,_,legal⟩ := (signed_iff positive).mp ⟨fit1,rfl⟩
    rw [same] at fit1 at1
    exact ⟨legal,fit1,at1,fit2,at2,rfl⟩
  · rintro ⟨legal,fit1,at1,fit2,at2,rfl⟩
    obtain ⟨_,same⟩ := (signed_iff positive).mpr ⟨rfl,fit1,legal⟩
    exact ⟨_,fit1,at1,_,fit2,at2,by rw [same],rfl⟩

include short in
theorem Dyn.parseAt_total (endian : AnyEndian) (elfClass : Class) :
    Total data (Dyn.parseAt endian elfClass data) (2 * wordSize elfClass) := by
  rw [Dyn.parseAt_eq]
  cases elfClass with
  | elf32 | elf64 =>
    repeat refine total_bind short (by decide) fun _ => ?_
    exact total_pure

include short in
theorem tableOf_ok : tableOf data off size count = .ok buf ↔ At data off buf ∧ buf.length = size * count := by
  simp only [tableOf,except_bind_ok,checkedMul_ok,checkedAdd_ok]
  constructor
  · rintro ⟨_,⟨_,rfl⟩,_,⟨_,rfl⟩,found⟩
    obtain ⟨here,length⟩ := (slice_ok (Nat.le_add_right _ _)).mp found
    exact ⟨here,by omega⟩
  · rintro ⟨here,length⟩
    have within := here.length_le
    exact ⟨_,⟨by omega,rfl⟩,_,⟨by omega,rfl⟩,(slice_ok (Nat.le_add_right _ _)).mpr ⟨here,by rw [length]⟩⟩

-- How the records of a table are laid out, and that its parser agrees.
structure Format (α : Type) where
  endian : AnyEndian
  parseAt : List UInt8 → Parse α
  fields : α → List (Nat × Nat)
  legal : α → Prop
  size : Nat
  size_pos : 0 < size
  fields_size : ∀ item, ((fields item).map Prod.fst).sum = size
  parses : ∀ {data : List UInt8} {off item next}, data.length < 2^64 →
    ((parseAt data).run off = (.ok item,next) ↔ legal item ∧ Fields endian data (fields item) off next)
  total : ∀ {data : List UInt8}, data.length < 2^64 → Total data (parseAt data) size

namespace Format
variable (format : Format α)

def encode (item : α) : List UInt8 := format.endian.bytesOf (format.fields item)

structure Valid (item : α) : Prop where
  legal : format.legal item
  fits : Fit (format.fields item)

@[simp] theorem length_encode (item : α) : (format.encode item).length = format.size := by
  rw [encode,length_bytesOf,format.fields_size]

include short in
theorem parses_at : (format.parseAt data).run off = (.ok item,next) ↔
    format.Valid item ∧ At data off (format.encode item) ∧ next = off + format.size := by
  have some : format.fields item ≠ [] := by
    intro none
    have size := format.fields_size item
    rw [none] at size
    exact absurd size.symm format.size_pos.ne'
  rw [format.parses short,fields_iff format.endian some,format.fields_size]
  constructor
  · rintro ⟨legal,fits,here,rfl⟩
    exact ⟨⟨legal,fits⟩,here,rfl⟩
  · rintro ⟨⟨legal,fits⟩,here,rfl⟩
    exact ⟨legal,fits,here,rfl⟩

def encodeAll (list : List α) : List UInt8 := list.flatMap format.encode

theorem length_encodeAll (list : List α) : (format.encodeAll list).length = format.size * list.length := by
  induction list with
  | nil => rfl
  | cons item rest ih =>
    rw [encodeAll] at ih ⊢
    rw [List.flatMap_cons,List.length_append,ih,length_encode,List.length_cons,Nat.mul_succ,Nat.add_comm]

-- The records of a table up to where the next would not fit.
structure Lists (bytes : List UInt8) (list : List α) : Prop where
  valid : ∀ item ∈ list, format.Valid item
  laid : ∃ rest, bytes = format.encodeAll list ++ rest ∧ rest.length < format.size

include short in
theorem items_lists (enough : data.length - off ≤ fuel) : format.Lists (data.drop off) (items (format.parseAt data) fuel off) := by
  induction fuel generalizing off with
  | zero =>
    refine ⟨nofun,data.drop off,rfl,?_⟩
    rw [List.length_drop]
    have := format.size_pos
    omega
  | succ fuel ih =>
    unfold items
    split
    · rename_i item next ran
      obtain ⟨valid,here,rfl⟩ := (format.parses_at short).mp ran
      have within := here.length_le
      rw [length_encode] at within
      have positive := format.size_pos
      obtain ⟨others,rest,split,less⟩ := ih (show data.length - (off + format.size) ≤ fuel by omega)
      refine ⟨List.forall_mem_cons.mpr ⟨valid,others⟩,rest,?_,less⟩
      have taken := here.taken
      rw [length_encode] at taken
      rw [← List.take_append_drop format.size (data.drop off),List.drop_drop,taken,split,encodeAll,encodeAll,List.flatMap_cons,
        List.append_assoc]
    · rename_i failure next ran
      refine ⟨nofun,data.drop off,rfl,?_⟩
      by_contra left
      rw [List.length_drop] at left
      have positive := format.size_pos
      obtain ⟨item,stop,parsed⟩ := format.total short off (by omega)
      rw [parsed] at ran
      cases ran

include short in
theorem items_of_lists (enough : data.length - off ≤ fuel) (lists : format.Lists (data.drop off) list) :
    items (format.parseAt data) fuel off = list := by
  have positive := format.size_pos
  induction list generalizing off fuel with
  | nil =>
    obtain ⟨_,rest,split,less⟩ := lists
    cases fuel with
    | zero => rfl
    | succ fuel =>
      unfold items
      cases ran : (format.parseAt data).run off with
      | mk result next =>
        cases result with
        | error failure => rfl
        | ok item =>
          obtain ⟨_,here,_⟩ := (format.parses_at short).mp ran
          have within := here.length_le
          have left := congrArg List.length split
          rw [length_encode] at within
          simp only [List.length_drop,encodeAll,List.flatMap_nil,List.nil_append] at left
          omega
  | cons item others ih =>
    obtain ⟨valid,rest,split,less⟩ := lists
    rw [encodeAll,List.flatMap_cons,List.append_assoc] at split
    have left := congrArg List.length split
    rw [List.length_drop,List.length_append,length_encode] at left
    have here : At data off (format.encode item) := by
      refine ⟨data.take off,others.flatMap format.encode ++ rest,by rw [List.length_take]; omega,?_⟩
      rw [List.append_assoc,← split,List.take_append_drop]
    have ran := (format.parses_at short).mpr ⟨valid item List.mem_cons_self,here,rfl⟩
    have after : data.drop (off + format.size) = format.encodeAll others ++ rest := by
      rw [← List.drop_drop,split,← format.length_encode item,List.drop_left]
      rfl
    cases fuel with
    | zero => omega
    | succ fuel =>
      unfold items
      rw [ran]
      refine congrArg (item :: ·) (ih (by omega) ⟨fun other inside => valid other (List.mem_cons_of_mem _ inside),rest,after,less⟩)

include short in
theorem collect_iff : collect format.parseAt data = list ↔ format.Lists data list := by
  constructor
  · rintro rfl
    exact format.items_lists short (Nat.sub_le data.length 0)
  · intro lists
    exact format.items_of_lists short (Nat.sub_le _ _) lists

-- A table with as many entries as were asked for.
structure TableAt (data : List UInt8) (off count : Nat) (list : List α) : Prop where
  valid : ∀ item ∈ list, format.Valid item
  length : list.length = count
  here : At data off (format.encodeAll list)

include short in
theorem table_iff : (tableOf data off format.size count >>= fun buf => pure (collect format.parseAt buf)) = .ok list ↔
    format.TableAt data off count list := by
  simp only [except_bind_ok,tableOf_ok short]
  constructor
  · rintro ⟨buf,⟨here,length⟩,listed⟩
    have within := here.length_le
    have lists := (format.collect_iff (by omega)).mp (Except.ok.inj listed)
    obtain ⟨valid,rest,rfl,less⟩ := lists
    rw [List.length_append,length_encodeAll] at length
    have whole : format.size ∣ rest.length := (Nat.dvd_add_right (Dvd.intro _ rfl)).mp (Dvd.intro _ length.symm)
    have none := Nat.eq_zero_of_dvd_of_lt whole less
    rw [none,Nat.add_zero] at length
    have same := Nat.eq_of_mul_eq_mul_left format.size_pos length
    rw [List.length_eq_zero_iff.mp none,List.append_nil] at here
    exact ⟨valid,same,here⟩
  · rintro ⟨valid,rfl,here⟩
    have within := here.length_le
    refine ⟨_,⟨here,format.length_encodeAll list⟩,congrArg Except.ok ((format.collect_iff (by omega)).mpr ⟨valid,[],?_,format.size_pos⟩)⟩
    rw [List.append_nil]

end Format

def SectionHeader.format (endian : AnyEndian) (elfClass : Class) : Format SectionHeader where
  endian
  parseAt := SectionHeader.parseAt endian elfClass
  fields := SectionHeader.fields elfClass
  legal _ := True
  size := SectionHeader.sizeFor elfClass
  size_pos := by cases elfClass <;> decide
  fields_size _ := by cases elfClass <;> rfl
  parses short := by rw [SectionHeader.parseAt_fields short,true_and]
  total short := SectionHeader.parseAt_total short endian elfClass

def ProgramHeader.format (endian : AnyEndian) (elfClass : Class) : Format ProgramHeader where
  endian
  parseAt := ProgramHeader.parseAt endian elfClass
  fields := ProgramHeader.fields elfClass
  legal _ := True
  size := ProgramHeader.sizeFor elfClass
  size_pos := by cases elfClass <;> decide
  fields_size _ := by cases elfClass <;> rfl
  parses short := by rw [ProgramHeader.parseAt_fields short,true_and]
  total short := ProgramHeader.parseAt_total short endian elfClass

def Dyn.format (endian : AnyEndian) (elfClass : Class) : Format Dyn where
  endian
  parseAt := Dyn.parseAt endian elfClass
  fields := Dyn.fields elfClass
  legal := Dyn.Legal elfClass
  size := 2 * wordSize elfClass
  size_pos := by cases elfClass <;> decide
  fields_size _ := by cases elfClass <;> rfl
  parses short := Dyn.parseAt_fields short endian elfClass
  total short := Dyn.parseAt_total short endian elfClass

def eiClass : Class → UInt8
  | .elf32 => 1
  | .elf64 => 2

def eiData : AnyEndian → UInt8
  | .little => 1
  | .big => 2

theorem parseClass_ok : parseClass b = .ok elfClass ↔ b = eiClass elfClass := by
  unfold parseClass
  constructor
  · intro ran
    split at ran
    · rename_i one
      cases ran
      exact one
    · split at ran
      · rename_i two
        cases ran
        exact two
      · cases ran
  · rintro rfl
    cases elfClass <;> rfl

theorem fromEiData_ok : fromEiData b = .ok endian ↔ b = eiData endian := by
  unfold fromEiData
  constructor
  · intro ran
    split at ran
    · rename_i one
      cases ran
      exact one
    · split at ran
      · rename_i two
        cases ran
        exact two
      · cases ran
  · rintro rfl
    cases endian <;> rfl

-- The first nine bytes. What follows up to EI_NIDENT is not looked at.
def identBytes (ident : AnyEndian × Class × UInt8 × UInt8) : List UInt8 :=
  ELFMAGIC ++ [eiClass ident.2.1,eiData ident.1,EV_CURRENT,ident.2.2.1,ident.2.2.2]

theorem byteAt_ok : byteAt buf i = .ok b ↔ buf[i]? = some b := by
  unfold byteAt
  cases buf[i]? with
  | none => exact ⟨nofun,nofun⟩
  | some other => simp

theorem verifyIdent_ok : verifyIdent buf = .ok u ↔ 4 ≤ buf.length ∧ buf.take 4 = ELFMAGIC ∧ buf[6]? = some EV_CURRENT := by
  unfold verifyIdent
  by_cases long : buf.length < 4
  · rw [if_pos long]
    exact ⟨nofun,fun both => by omega⟩
  · rw [if_neg long]
    by_cases magic : buf.take 4 = ELFMAGIC
    · rw [if_neg (not_not_intro magic),except_bind_ok]
      constructor
      · rintro ⟨version,found,ran⟩
        split at ran
        · cases ran
        · rename_i current
          rw [byteAt_ok.mp found,not_not.mp current]
          exact ⟨by omega,magic,rfl⟩
      · rintro ⟨_,_,found⟩
        exact ⟨EV_CURRENT,byteAt_ok.mpr found,rfl⟩
    · rw [if_pos magic]
      exact ⟨nofun,fun both => absurd both.2.1 magic⟩

theorem parseIdent_ok (whole : 9 ≤ buf.length) : parseIdent buf = .ok ident ↔ buf.take 9 = identBytes ident := by
  obtain ⟨endian,elfClass,osabi,abiversion⟩ := ident
  have parts : parseIdent buf = .ok (endian,elfClass,osabi,abiversion) ↔
      buf.take 4 = ELFMAGIC ∧ buf[4]? = some (eiClass elfClass) ∧ buf[5]? = some (eiData endian) ∧ buf[6]? = some EV_CURRENT ∧
        buf[7]? = some osabi ∧ buf[8]? = some abiversion := by
    simp only [parseIdent,except_bind_ok,verifyIdent_ok,byteAt_ok,parseClass_ok,fromEiData_ok]
    constructor
    · rintro ⟨_,⟨_,magic,version⟩,_,found4,_,rfl,_,found5,_,rfl,_,found7,_,found8,⟨⟩⟩
      exact ⟨magic,found4,found5,version,found7,found8⟩
    · rintro ⟨magic,found4,found5,version,found7,found8⟩
      exact ⟨(),⟨by omega,magic,version⟩,_,found4,_,rfl,_,found5,_,rfl,_,found7,_,found8,rfl⟩
  have spread : buf.take 9 = buf.take 4 ++ [buf[4],buf[5],buf[6],buf[7],buf[8]] := by
    rw [← List.take_append_getElem (show 8 < buf.length by omega),← List.take_append_getElem (show 7 < buf.length by omega),
      ← List.take_append_getElem (show 6 < buf.length by omega),← List.take_append_getElem (show 5 < buf.length by omega),
      ← List.take_append_getElem (show 4 < buf.length by omega)]
    simp only [List.append_assoc,List.cons_append,List.nil_append]
  have four : (buf.take 4).length = ELFMAGIC.length := by rw [List.length_take,min_eq_left (by omega)]; rfl
  have halves : buf.take 9 = identBytes (endian,elfClass,osabi,abiversion) ↔ buf.take 4 = ELFMAGIC ∧
      [buf[4],buf[5],buf[6],buf[7],buf[8]] = [eiClass elfClass,eiData endian,EV_CURRENT,osabi,abiversion] := by
    rw [spread]
    exact ⟨fun same => List.append_inj same four,fun both => by rw [both.1,both.2]; rfl⟩
  rw [parts,halves]
  simp only [List.getElem?_eq_getElem (show 4 < buf.length by omega),List.getElem?_eq_getElem (show 5 < buf.length by omega),
    List.getElem?_eq_getElem (show 6 < buf.length by omega),List.getElem?_eq_getElem (show 7 < buf.length by omega),
    List.getElem?_eq_getElem (show 8 < buf.length by omega),Option.some.injEq,List.cons.injEq,and_true]

def FileHeader.ident (ehdr : FileHeader) : AnyEndian × Class × UInt8 × UInt8 :=
  (ehdr.endianness,ehdr.elfClass,ehdr.osabi,ehdr.abiversion)

-- What follows the ident bytes.
def FileHeader.fields (ehdr : FileHeader) : List (Nat × Nat) :=
  [(2,ehdr.eType),(2,ehdr.eMachine),(4,ehdr.version),(wordSize ehdr.elfClass,ehdr.eEntry),(wordSize ehdr.elfClass,ehdr.ePhoff),
    (wordSize ehdr.elfClass,ehdr.eShoff),(4,ehdr.eFlags),(2,ehdr.eEhsize),(2,ehdr.ePhentsize),(2,ehdr.ePhnum),(2,ehdr.eShentsize),
    (2,ehdr.eShnum),(2,ehdr.eShstrndx)]

theorem FileHeader.fields_size (ehdr : FileHeader) : (ehdr.fields.map Prod.fst).sum = tailSize ehdr.elfClass := by
  cases elfClass : ehdr.elfClass with
  | elf32 | elf64 => simp [FileHeader.fields,elfClass,wordSize,tailSize,ELF32_EHDR_TAILSIZE,ELF64_EHDR_TAILSIZE]

include short in
theorem FileHeader.parseTail_fields {parsed : AnyEndian × Class × UInt8 × UInt8} {ehdr : FileHeader} :
    (FileHeader.parseTail parsed data).run off = (.ok ehdr,next) ↔
      parsed = ehdr.ident ∧ Fields ehdr.endianness data ehdr.fields off next := by
  obtain ⟨endian,elfClass,osabi,abiversion⟩ := parsed
  simp only [FileHeader.parseTail,parseU16At,parseU32At,parseWordAt_eq,uintAt_bind short,pure_run,Prod.mk.injEq,Except.ok.injEq,
    FileHeader.ident,FileHeader.fields,Fields]
  constructor
  · rintro ⟨_,fit1,at1,_,fit2,at2,_,fit3,at3,_,fit4,at4,_,fit5,at5,_,fit6,at6,_,fit7,at7,_,fit8,at8,_,fit9,at9,_,fit10,at10,
      _,fit11,at11,_,fit12,at12,_,fit13,at13,rfl,rfl⟩
    exact ⟨⟨rfl,rfl,rfl,rfl⟩,fit1,at1,fit2,at2,fit3,at3,fit4,at4,fit5,at5,fit6,at6,fit7,at7,fit8,at8,fit9,at9,fit10,at10,fit11,at11,
      fit12,at12,fit13,at13,rfl⟩
  · rintro ⟨⟨rfl,rfl,rfl,rfl⟩,fit1,at1,fit2,at2,fit3,at3,fit4,at4,fit5,at5,fit6,at6,fit7,at7,fit8,at8,fit9,at9,fit10,at10,fit11,at11,
      fit12,at12,fit13,at13,rfl⟩
    exact ⟨_,fit1,at1,_,fit2,at2,_,fit3,at3,_,fit4,at4,_,fit5,at5,_,fit6,at6,_,fit7,at7,_,fit8,at8,_,fit9,at9,_,fit10,at10,
      _,fit11,at11,_,fit12,at12,_,fit13,at13,rfl,rfl⟩

-- The bytes at the start of a file that make up its header.
structure HeaderAt (data : List UInt8) (ehdr : FileHeader) : Prop where
  ident : At data 0 (identBytes ehdr.ident)
  fits : Fit ehdr.fields
  tail : At data EI_NIDENT (ehdr.endianness.bytesOf ehdr.fields)

theorem fromStart_ok {parse : Parse α} : fromStart parse = .ok item ↔ ∃ next, parse.run 0 = (.ok item,next) := by
  unfold fromStart
  constructor
  · intro ran
    exact ⟨(parse.run 0).2,run_ok ran⟩
  · rintro ⟨next,ran⟩
    rw [ran]

include short in
theorem headerOf_ok : headerOf data = .ok ehdr ↔ HeaderAt data ehdr := by
  have fields : ehdr.fields ≠ [] := List.cons_ne_nil _ _
  have size : (ehdr.endianness.bytesOf ehdr.fields).length = tailSize ehdr.elfClass := by
    rw [length_bytesOf,FileHeader.fields_size]
  simp only [headerOf,except_bind_ok,fromStart_ok]
  constructor
  · rintro ⟨identBuf,foundIdent,ident,parsed,tailBuf,foundTail,next,ran⟩
    obtain ⟨identHere,identLength⟩ := (slice_ok (Nat.zero_le _)).mp foundIdent
    obtain ⟨tailHere,tailLength⟩ := (slice_ok (Nat.le_add_right _ _)).mp foundTail
    have within := tailHere.length_le
    obtain ⟨rfl,read⟩ := (FileHeader.parseTail_fields (by omega)).mp ran
    obtain ⟨fits,inside,_⟩ := (fields_iff _ fields).mp read
    have nine : 9 ≤ identBuf.length := by rw [← Nat.zero_add identBuf.length,← identLength]; decide
    refine ⟨?_,fits,?_⟩
    · rw [← (parseIdent_ok nine).mp parsed]
      exact identHere.front 9
    · have same : tailBuf.length = (ehdr.endianness.bytesOf ehdr.fields).length := by
        rw [size]
        exact (Nat.add_left_cancel tailLength).symm
      rwa [(at_whole same).mp inside] at tailHere
  · rintro ⟨ident,fits,tail⟩
    have within := tail.length_le
    have sixteen : 0 + EI_NIDENT ≤ data.length := by omega
    have identHere := at_taken sixteen
    have identLength : ((data.drop 0).take EI_NIDENT).length = EI_NIDENT := by
      rw [List.drop_zero,List.length_take]
      omega
    refine ⟨_,(slice_ok (Nat.zero_le _)).mpr ⟨identHere,by rw [identLength,Nat.zero_add]⟩,ehdr.ident,?_,_,
      (slice_ok (Nat.le_add_right _ _)).mpr ⟨tail,by rw [size]; rfl⟩,0 + (ehdr.fields.map Prod.fst).sum,?_⟩
    · rw [parseIdent_ok (by rw [identLength]; decide),List.take_take]
      exact ident.taken
    · refine (FileHeader.parseTail_fields (by omega)).mpr ⟨rfl,(fields_iff _ fields).mpr ⟨fits,?_,rfl⟩⟩
      exact (at_whole rfl).mpr rfl

-- The section header at index 0, which is read where the file header says that
-- the table is, even if there is no table.
structure FirstAt (data : List UInt8) (ehdr : FileHeader) (shdr : SectionHeader) : Prop where
  valid : (SectionHeader.format ehdr.endianness ehdr.elfClass).Valid shdr
  here : At data ehdr.eShoff ((SectionHeader.format ehdr.endianness ehdr.elfClass).encode shdr)

def SectionCount (data : List UInt8) (ehdr : FileHeader) (count : Nat) : Prop :=
  if ehdr.eShnum = 0 then ∃ shdr0, FirstAt data ehdr shdr0 ∧ shdr0.shSize = count else ehdr.eShnum = count

def SegmentCount (data : List UInt8) (ehdr : FileHeader) (count : Nat) : Prop :=
  if ehdr.ePhnum = PN_XNUM then ∃ shdr0, FirstAt data ehdr shdr0 ∧ shdr0.shInfo = count else ehdr.ePhnum = count

def SectionsAt (data : List UInt8) (ehdr : FileHeader) (shdrs : List SectionHeader) : Prop :=
  if ehdr.eShoff = 0 then shdrs = []
  else ehdr.eShentsize = SectionHeader.sizeFor ehdr.elfClass ∧ ∃ count, SectionCount data ehdr count ∧
    (SectionHeader.format ehdr.endianness ehdr.elfClass).TableAt data ehdr.eShoff count shdrs

def SegmentsAt (data : List UInt8) (ehdr : FileHeader) (phdrs : List ProgramHeader) : Prop :=
  if ehdr.ePhoff = 0 then phdrs = []
  else ehdr.ePhentsize = ProgramHeader.sizeFor ehdr.elfClass ∧ ∃ count, SegmentCount data ehdr count ∧
    (ProgramHeader.format ehdr.endianness ehdr.elfClass).TableAt data ehdr.ePhoff count phdrs

-- A file with these headers.
structure Describes (data : List UInt8) (file : ElfStream) : Prop where
  header : HeaderAt data file.ehdr
  sections : SectionsAt data file.ehdr file.shdrs
  segments : SegmentsAt data file.ehdr file.phdrs

theorem validateEntsize_ok : validateEntsize expected found = .ok size ↔ found = expected ∧ size = expected := by
  unfold validateEntsize
  constructor
  · intro ran
    split at ran
    · rename_i same
      cases ran
      exact ⟨same,same⟩
    · cases ran
  · rintro ⟨rfl,rfl⟩
    exact if_pos rfl

include short in
theorem firstSectionOf_ok : firstSectionOf data ehdr (SectionHeader.sizeFor ehdr.elfClass) = .ok shdr ↔ FirstAt data ehdr shdr := by
  simp only [firstSectionOf,except_bind_ok,checkedAdd_ok,fromStart_ok]
  constructor
  · rintro ⟨_,⟨_,rfl⟩,buf,found,next,ran⟩
    obtain ⟨here,length⟩ := (slice_ok (Nat.le_add_right _ _)).mp found
    have within := here.length_le
    obtain ⟨valid,inside,_⟩ := ((SectionHeader.format ehdr.endianness ehdr.elfClass).parses_at (by omega)).mp ran
    refine ⟨valid,?_⟩
    have same : buf.length = ((SectionHeader.format ehdr.endianness ehdr.elfClass).encode shdr).length := by
      rw [Format.length_encode]
      exact (Nat.add_left_cancel length).symm
    rwa [(at_whole same).mp inside] at here
  · rintro ⟨valid,here⟩
    have within := here.length_le
    have length := (SectionHeader.format ehdr.endianness ehdr.elfClass).length_encode shdr
    have ran := ((SectionHeader.format ehdr.endianness ehdr.elfClass).parses_at (by omega)).mpr ⟨valid,(at_whole rfl).mpr rfl,rfl⟩
    refine ⟨_,⟨?_,rfl⟩,_,(slice_ok (Nat.le_add_right _ _)).mpr ⟨here,by rw [length]; rfl⟩,_,ran⟩
    rw [length] at within
    exact lt_of_le_of_lt within short

include short in
theorem sectionCountOf_ok : sectionCountOf data ehdr (SectionHeader.sizeFor ehdr.elfClass) = .ok count ↔ SectionCount data ehdr count := by
  unfold sectionCountOf SectionCount
  by_cases extended : ehdr.eShnum = 0
  · rw [if_pos extended,if_pos extended,except_map_ok]
    simp only [firstSectionOf_ok short]
  · rw [if_neg extended,if_neg extended,Except.ok.injEq]

include short in
theorem segmentCountOf_ok : segmentCountOf data ehdr = .ok count ↔ SegmentCount data ehdr count := by
  unfold segmentCountOf SegmentCount
  by_cases extended : ehdr.ePhnum = PN_XNUM
  · rw [if_pos extended,if_pos extended,except_map_ok]
    simp only [firstSectionOf_ok short]
  · rw [if_neg extended,if_neg extended,Except.ok.injEq]

include short in
theorem sectionsOf_ok : sectionsOf data ehdr = .ok shdrs ↔ SectionsAt data ehdr shdrs := by
  unfold sectionsOf SectionsAt
  by_cases absent : ehdr.eShoff = 0
  · rw [if_pos absent,if_pos absent,Except.ok.injEq,eq_comm]
  · rw [if_neg absent,if_neg absent,except_bind_ok]
    constructor
    · rintro ⟨_,checked,ran⟩
      obtain ⟨entsize,rfl⟩ := validateEntsize_ok.mp checked
      obtain ⟨count,counted,ran⟩ := except_bind_ok.mp ran
      exact ⟨entsize,count,(sectionCountOf_ok short).mp counted,
        ((SectionHeader.format ehdr.endianness ehdr.elfClass).table_iff short).mp ran⟩
    · rintro ⟨entsize,count,counted,table⟩
      exact ⟨_,validateEntsize_ok.mpr ⟨entsize,rfl⟩,except_bind_ok.mpr ⟨count,(sectionCountOf_ok short).mpr counted,
        ((SectionHeader.format ehdr.endianness ehdr.elfClass).table_iff short).mpr table⟩⟩

include short in
theorem segmentsOf_ok : segmentsOf data ehdr = .ok phdrs ↔ SegmentsAt data ehdr phdrs := by
  unfold segmentsOf SegmentsAt
  by_cases absent : ehdr.ePhoff = 0
  · rw [if_pos absent,if_pos absent,Except.ok.injEq,eq_comm]
  · rw [if_neg absent,if_neg absent,except_bind_ok]
    constructor
    · rintro ⟨count,counted,ran⟩
      obtain ⟨_,checked,ran⟩ := except_bind_ok.mp ran
      obtain ⟨entsize,rfl⟩ := validateEntsize_ok.mp checked
      exact ⟨entsize,count,(segmentCountOf_ok short).mp counted,
        ((ProgramHeader.format ehdr.endianness ehdr.elfClass).table_iff short).mp ran⟩
    · rintro ⟨entsize,count,counted,table⟩
      exact ⟨count,(segmentCountOf_ok short).mpr counted,except_bind_ok.mpr ⟨_,validateEntsize_ok.mpr ⟨entsize,rfl⟩,
        ((ProgramHeader.format ehdr.endianness ehdr.elfClass).table_iff short).mpr table⟩⟩

include short in
theorem fileOf_ok : fileOf data = .ok file ↔ Describes data file := by
  simp only [fileOf,except_bind_ok,headerOf_ok short,sectionsOf_ok short,segmentsOf_ok short]
  constructor
  · rintro ⟨ehdr,header,shdrs,sections,phdrs,segments,⟨⟩⟩
    exact ⟨header,sections,segments⟩
  · rintro ⟨header,sections,segments⟩
    exact ⟨_,header,_,sections,_,segments,rfl⟩

-- The reader opens just the files that are described by what it returns.
theorem openStream_describes (short : bytes.length < 2^64) :
    (openStream.run (.new bytes)).1 = .ok file ↔ Describes bytes file := by
  rw [(openStream_answers bytes _ (coherent_new bytes)).1]
  exact fileOf_ok short

-- A 32-bit file that needs the library "l": strings, one dynamic entry and an
-- empty symbol table.
def sampleHeader : FileHeader where
  elfClass := .elf32
  endianness := .little
  version := 1
  osabi := 0
  abiversion := 0
  eType := 3
  eMachine := 3
  eEntry := 0
  ePhoff := 0
  eShoff := 64
  eFlags := 0
  eEhsize := 52
  ePhentsize := 0
  ePhnum := 0
  eShentsize := 40
  eShnum := 3
  eShstrndx := 0

def sampleSection (shType shOffset shSize shLink shEntsize : Nat) : SectionHeader :=
  ⟨0,shType,0,0,shOffset,shSize,shLink,0,0,shEntsize⟩

def sampleFile : ElfStream where
  ehdr := sampleHeader
  shdrs := [sampleSection 3 52 4 0 0,sampleSection SHT_DYNAMIC 56 8 0 8,sampleSection SHT_DYNSYM 56 0 0 16]
  phdrs := []

def sampleStrings : List UInt8 := [0,108,0,0]

def sampleBytes : List UInt8 :=
  identBytes sampleHeader.ident ++ List.replicate 7 0 ++ AnyEndian.little.bytesOf sampleHeader.fields ++ sampleStrings ++
    (Dyn.format .little .elf32).encode ⟨1,1⟩ ++ (SectionHeader.format .little .elf32).encodeAll sampleFile.shdrs

theorem sample_described : sampleBytes.length < 2^64 ∧ Describes sampleBytes sampleFile := by
  have short : sampleBytes.length < 2^64 := by decide +kernel
  exact ⟨short,(openStream_describes short).mp (by decide +kernel)⟩

end Rapido.Elf
