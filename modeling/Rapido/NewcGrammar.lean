import Rapido.CpioWalk

-- The headers that the walker accepts, against the newc header grammar.
namespace Rapido.Cpio
open Radix Newc
variable {hdr rest before bytes : List UInt8} {md : ArchiveMd} {namesize : UInt32}

def hexDigitOf (b : UInt8) : Option Nat :=
  if 48 ≤ b ∧ b ≤ 57 then some (b.toNat - 48)
  else if 65 ≤ b ∧ b ≤ 70 then some (b.toNat - 55)
  else if 97 ≤ b ∧ b ≤ 102 then some (b.toNat - 87)
  else none

def hexValue : Nat → List UInt8 → Option Nat
  | acc,[] => some acc
  | acc,b :: rest => (hexDigitOf b).bind fun digit => hexValue (acc * 16 + digit) rest

-- Eight hexadecimal digits and their value.
def hexField (bytes : List UInt8) : Option Nat := if bytes.length = 8 then hexValue 0 bytes else none

-- The fields behind the magic, eight bytes each: ino, mode, uid, gid, nlink,
-- mtime, filesize, major, minor, rmajor, rminor, namesize, chksum.
def field (hdr : List UInt8) (k : Nat) : List UInt8 := (hdr.drop (6 + 8 * k)).take 8
def decodedFields : List Nat := [1,2,3,4,5,6,9,10,11]

-- The values of the decoded fields under a way to read one.
def decodeWith (parse : List UInt8 → Option Nat) (hdr : List UInt8) : Option (ArchiveMd × UInt32) := do
  let mode ← parse (field hdr 1)
  let uid ← parse (field hdr 2)
  let gid ← parse (field hdr 3)
  let nlink ← parse (field hdr 4)
  let mtime ← parse (field hdr 5)
  let len ← parse (field hdr 6)
  let rmajor ← parse (field hdr 9)
  let rminor ← parse (field hdr 10)
  let namesize ← parse (field hdr 11)
  if 1 ≤ namesize ∧ namesize ≤ 4097 then
    some (⟨.ofNat nlink,.ofNat mode,.ofNat uid,.ofNat gid,.ofNat mtime,.ofNat rmajor,.ofNat rminor,.ofNat len⟩,.ofNat namesize)
  else none

def magic : List UInt8 := [48,55,48,55,48,49]

def headerWith (parse : List UInt8 → Option Nat) (hdr : List UInt8) : Option (ArchiveMd × UInt32) :=
  if hdr.take 6 = magic then decodeWith parse hdr else none

-- The newc grammar, and what the walker takes for it.
def newcHeader (hdr : List UInt8) : Option (ArchiveMd × UInt32) := headerWith hexField hdr
def walkerHeader (hdr : List UInt8) : Option (ArchiveMd × UInt32) := headerWith (fromStrRadix 16 (2^32)) hdr

theorem digitVal_hex (b : UInt8) : digitVal 16 b = hexDigitOf b := by
  have all : ∀ n : Fin 256, digitVal 16 (UInt8.ofNat n.val) = hexDigitOf (UInt8.ofNat n.val) := by decide +kernel
  have here := all ⟨b.toNat,b.toNat_lt⟩
  simpa using here

theorem hexDigitOf_lt (digit : hexDigitOf b = some d) : d < 16 := by
  unfold hexDigitOf at digit
  simp only [UInt8.le_iff_toNat_le] at digit
  split at digit
  · rename_i range
    cases digit
    simp at range
    omega
  · split at digit
    · rename_i range
      cases digit
      simp at range
      omega
    · split at digit
      · rename_i range
        cases digit
        simp at range
        omega
      · cases digit

-- Eight digits never leave 32 bits.
theorem parseDigits_hex (bytes : List UInt8) (acc : Nat) (room : (acc + 1) * 16^bytes.length ≤ 2^32) :
    parseDigits 16 (2^32) acc bytes = hexValue acc bytes := by
  induction bytes generalizing acc with
  | nil => rfl
  | cons b rest ih =>
    unfold parseDigits hexValue
    rw [digitVal_hex]
    cases digit : hexDigitOf b with
    | none => rfl
    | some d =>
      have small := hexDigitOf_lt digit
      have power : 16^(b :: rest).length = 16 * 16^rest.length := by rw [List.length_cons,Nat.pow_succ,Nat.mul_comm]
      have next : (acc * 16 + d + 1) * 16^rest.length ≤ 2^32 := by
        have step : acc * 16 + d + 1 ≤ (acc + 1) * 16 := by omega
        calc (acc * 16 + d + 1) * 16^rest.length ≤ (acc + 1) * 16 * 16^rest.length := Nat.mul_le_mul_right _ step
          _ = (acc + 1) * 16^(b :: rest).length := by rw [power,Nat.mul_assoc]
          _ ≤ 2^32 := room
      have below : acc * 16 + d < 2^32 := by
        have one : 1 ≤ 16^rest.length := Nat.one_le_pow _ _ (by decide)
        calc acc * 16 + d < acc * 16 + d + 1 := Nat.lt_succ_self _
          _ ≤ (acc * 16 + d + 1) * 16^rest.length := Nat.le_mul_of_pos_right _ one
          _ ≤ 2^32 := next
      simp only [Option.bind_eq_bind,Option.bind_some,if_pos below]
      exact ih _ next

def signed (bytes : List UInt8) : Bool := bytes.head? == some 43

theorem hexField_signed (sign : signed bytes = true) : hexField bytes = none := by
  unfold hexField
  split
  · cases bytes with
    | nil => cases sign
    | cons b rest =>
      have plus : b = 43 := by simpa [signed] using sign
      rw [plus]
      rfl
  · rfl

theorem fromStrRadix_hexField (whole : bytes.length = 8) (unsigned : signed bytes = false) :
    fromStrRadix 16 (2^32) bytes = hexField bytes := by
  have value : parseDigits 16 (2^32) 0 bytes = hexField bytes := by
    rw [hexField,if_pos whole]
    exact parseDigits_hex bytes 0 (by rw [whole]; decide)
  cases bytes with
  | nil => cases whole
  | cons b rest =>
    have plus : b ≠ 43 := by simpa [signed] using unsigned
    by_cases minus : b = 45
    · -- not a digit, so both refuse it
      cases rest with
      | nil => cases whole
      | cons c rest =>
        subst minus
        rw [← value]
        rfl
    · rw [fromStrRadix_unsigned plus minus,value]

theorem parseDigits_lt (start : acc < limit) (parsed : parseDigits radix limit acc bytes = some value) : value < limit := by
  induction bytes generalizing acc with
  | nil =>
    cases parsed
    exact start
  | cons b rest ih =>
    unfold parseDigits at parsed
    cases digit : digitVal radix b with
    | none => simp [digit] at parsed
    | some d =>
      simp only [digit,Option.bind_eq_bind,Option.bind_some] at parsed
      split at parsed
      · rename_i below
        exact ih below parsed
      · cases parsed

theorem fromStrRadix_lt (positive : 0 < limit) (parsed : fromStrRadix radix limit bytes = some value) : value < limit := by
  unfold fromStrRadix at parsed
  split at parsed
  · cases parsed
  · cases parsed
  · cases parsed
  · exact parseDigits_lt positive parsed
  · exact parseDigits_lt positive parsed

theorem chunks_fields (whole : hdr.length = NEWC_HDR_LEN) :
    chunksExact 8 (hdr.drop 6) = [field hdr 0,field hdr 1,field hdr 2,field hdr 3,field hdr 4,field hdr 5,field hdr 6,field hdr 7,
      field hdr 8,field hdr 9,field hdr 10,field hdr 11,field hdr 12] := by
  have count : (hdr.drop 6).length / 8 = 13 := by rw [List.length_drop,whole]; rfl
  rw [chunksExact,count]
  simp [chunks,field]

-- An optional result and a fallible one that succeed together.
def Agrees (spec : Option α) (run : Except Fault α) : Prop :=
  (∀ value, spec = some value → run = .ok value) ∧ (spec = none → ∃ e, run = .error (.err e))

theorem agrees_field {next : UInt32 → Eff Fault (List (List UInt8)) α} {spec : Nat → Option α}
    (here : pieces.drop k = chunk :: tail)
    (later : ∀ value, value < 2^32 → Agrees (spec value) ((next (.ofNat value)).run tail).1) :
    Agrees ((fromStrRadix 16 (2^32) chunk).bind spec) ((fieldNth k >>= next).run pieces).1 := by
  cases parsed : fromStrRadix 16 (2^32) chunk with
  | none =>
    refine ⟨nofun,fun _ => ⟨⟨.invalidData,"invalid hdr field"⟩,?_⟩⟩
    simp only [Eff.bind_run,fieldNth,here,parsed]
  | some value =>
    have ran : ((fieldNth k >>= next).run pieces).1 = ((next (.ofNat value)).run tail).1 := by
      simp only [Eff.bind_run,fieldNth,here,parsed]
    rw [ran]
    exact later value (fromStrRadix_lt (by decide) parsed)

theorem readNewcMd_agrees (whole : hdr.length = NEWC_HDR_LEN) :
    Agrees (decodeWith (fromStrRadix 16 (2^32)) hdr) (archiveReadNewcMd (hdr.drop 6)) := by
  unfold archiveReadNewcMd decodeWith newcFields
  rw [chunks_fields whole]
  refine agrees_field rfl fun mode _ => agrees_field rfl fun uid _ => agrees_field rfl fun gid _ => agrees_field rfl fun nlink _ =>
    agrees_field rfl fun mtime _ => agrees_field rfl fun len _ => agrees_field rfl fun rmajor _ => agrees_field rfl fun rminor _ =>
    agrees_field rfl fun namesize small => ?_
  have size : (UInt32.ofNat namesize).toNat = namesize := by
    rw [UInt32.toNat_ofNat']
    exact Nat.mod_eq_of_lt small
  have zero : UInt32.ofNat namesize = 0 ↔ namesize = 0 := by
    rw [← UInt32.toNat_inj,size]
    rfl
  by_cases valid : 1 ≤ namesize ∧ namesize ≤ 4097
  · have accepted : ¬(UInt32.ofNat namesize = 0 ∨ (UInt32.ofNat namesize).toNat > PATH_MAX + 1) := by
      rw [zero,size]
      simp only [PATH_MAX]
      omega
    rw [if_pos valid,if_neg accepted]
    refine ⟨fun value same => ?_,fun none => ?_⟩
    · cases same
      rfl
    · cases none
  · have refused : UInt32.ofNat namesize = 0 ∨ (UInt32.ofNat namesize).toNat > PATH_MAX + 1 := by
      rw [zero,size]
      simp only [PATH_MAX]
      omega
    rw [if_neg valid,if_pos refused]
    refine ⟨fun value same => ?_,fun _ => ⟨_,rfl⟩⟩
    cases same

-- What stands in the fields that are passed over makes no difference.
theorem same_field {next : UInt32 → Eff Fault (List (List UInt8)) α} (here : pieces.drop k = chunk :: tail)
    (there : others.drop k = chunk :: tail') (later : ∀ value, ((next value).run tail).1 = ((next value).run tail').1) :
    ((fieldNth k >>= next).run pieces).1 = ((fieldNth k >>= next).run others).1 := by
  simp only [Eff.bind_run,fieldNth,here,there]
  cases fromStrRadix 16 (2^32) chunk with
  | none => rfl
  | some value => exact later _

structure SameDecoded (hdr other : List UInt8) : Prop where
  whole : other.length = NEWC_HDR_LEN
  magic : other.take 6 = hdr.take 6
  fields : ∀ k ∈ decodedFields, field other k = field hdr k

theorem readNewcMd_ignores (whole : hdr.length = NEWC_HDR_LEN) (same : SameDecoded hdr other) :
    archiveReadNewcMd (other.drop 6) = archiveReadNewcMd (hdr.drop 6) := by
  have equal := fun k member => same.fields k member
  unfold archiveReadNewcMd newcFields
  rw [chunks_fields whole,chunks_fields same.whole,equal 1 (by decide),equal 2 (by decide),equal 3 (by decide),equal 4 (by decide),
    equal 5 (by decide),equal 6 (by decide),equal 9 (by decide),equal 10 (by decide),equal 11 (by decide)]
  refine same_field rfl rfl fun _ => same_field rfl rfl fun _ => same_field rfl rfl fun _ => same_field rfl rfl fun _ =>
    same_field rfl rfl fun _ => same_field rfl rfl fun _ => same_field rfl rfl fun _ => same_field rfl rfl fun _ =>
    same_field rfl rfl fun namesize => ?_
  split <;> rfl

-- A reader that stands at a header, and one that has read it.
def atHeader (before hdr rest : List UInt8) : Reader := ⟨before ++ hdr ++ rest,before.length⟩
def behindHeader (before hdr rest : List UInt8) : Reader := ⟨before ++ hdr ++ rest,before.length + NEWC_HDR_LEN⟩

theorem next_header (whole : hdr.length = NEWC_HDR_LEN) (before rest : List UInt8) :
    (next (atHeader before hdr rest)).1 = if hdr.take 6 = magic then match archiveReadNewcMd (hdr.drop 6) with
      | .error .panic => .panicked
      | .error (.err e) => .item (.error e)
      | .ok (md,namesize) => (nextEntry md namesize (behindHeader before hdr rest)).1
      else .item (.error ⟨.invalidInput,"invalid newc hdr"⟩) := by
  have room : before.length + NEWC_HDR_LEN ≤ (before ++ hdr ++ rest).length := by
    simp only [List.length_append,whole]
    omega
  have taken : ((before ++ hdr ++ rest).drop before.length).take NEWC_HDR_LEN = hdr := by
    rw [List.append_assoc,List.drop_left,← whole,List.take_left]
  simp only [next,atHeader,Reader.readExact,if_pos room,taken]
  change (if hdr.take 6 = magic then _ else _ : Next × Reader).1 = _
  by_cases good : hdr.take 6 = magic
  · rw [if_pos good,if_pos good]
    cases archiveReadNewcMd (hdr.drop 6) with
    | ok pair => rfl
    | error fault => cases fault <;> rfl
  · rw [if_neg good,if_neg good]

-- Behind the header only what follows it is read.
theorem readExact_behind (whole : hdr.length = NEWC_HDR_LEN) (before rest : List UInt8) (n : Nat) :
    (behindHeader before hdr rest).readExact n = if n ≤ rest.length
      then (.ok (rest.take n),⟨before ++ hdr ++ rest,before.length + NEWC_HDR_LEN + n⟩)
      else (.error ⟨.unexpectedEof,"failed to fill whole buffer"⟩,⟨before ++ hdr ++ rest,
        max (before.length + NEWC_HDR_LEN) (before ++ hdr ++ rest).length⟩) := by
  have total : (before ++ hdr ++ rest).length = before.length + NEWC_HDR_LEN + rest.length := by
    simp only [List.length_append,whole]
  have left : (before ++ hdr ++ rest).drop (before.length + NEWC_HDR_LEN) = rest := by
    rw [← whole,← List.length_append,List.drop_left]
  unfold Reader.readExact behindHeader
  simp only [left]
  by_cases enough : n ≤ rest.length
  · rw [if_pos (by omega),if_pos enough]
  · rw [if_neg (by omega),if_neg enough]

theorem nextEntry_ignores (whole : hdr.length = NEWC_HDR_LEN) (same : other.length = NEWC_HDR_LEN) (md : ArchiveMd)
    (namesize : UInt32) (before rest : List UInt8) :
    (nextEntry md namesize (behindHeader before other rest)).1 = (nextEntry md namesize (behindHeader before hdr rest)).1 := by
  unfold nextEntry
  rw [readExact_behind whole,readExact_behind same]
  by_cases large : namesize.toNat > PATH_MAX + 1
  · rw [if_pos large,if_pos large]
  · rw [if_neg large,if_neg large]
    by_cases enough : namesize.toNat ≤ rest.length
    · have seek := seeklen_eq md namesize
      have limit := md.len.toNat_lt
      have one := pad4_lt (NEWC_HDR_LEN + namesize.toNat)
      have two := pad4_lt md.len.toNat
      have small : ¬(pad4 (NEWC_HDR_LEN + namesize.toNat) + md.len.toNat + pad4 md.len.toNat ≥ 2^63) := by omega
      simp only [if_pos enough,seek,if_neg small,Reader.seekCurrent]
      by_cases sought : before.length + NEWC_HDR_LEN + namesize.toNat + (pad4 (NEWC_HDR_LEN + namesize.toNat) + md.len.toNat +
          pad4 md.len.toNat) < 2^63
      · simp only [if_pos sought]
        by_cases empty : namesize = 0
        · simp only [if_pos empty]
        · simp only [if_neg empty]
          split <;> rfl
      · simp only [if_neg sought]
    · simp only [if_neg enough]

-- Behind a header that is taken for one of the archive's entries: its name, a
-- file offset for the next header, and no TRAILER!!!.
structure Followed (before rest : List UInt8) (md : ArchiveMd) (namesize : UInt32) : Prop where
  enough : namesize.toNat ≤ rest.length
  near : before.length + NEWC_HDR_LEN + namesize.toNat + (pad4 (NEWC_HDR_LEN + namesize.toNat) + md.len.toNat +
    pad4 md.len.toNat) < 2^63
  other : rest.take (namesize.toNat - 1) ≠ trailerName

theorem nextEntry_named (whole : hdr.length = NEWC_HDR_LEN) (named : namesize ≠ 0) (narrow : namesize.toNat ≤ PATH_MAX + 1)
    (followed : Followed before rest md namesize) :
    ∃ name, (nextEntry md namesize (behindHeader before hdr rest)).1 = .item (.ok ⟨md,namesize,name⟩) := by
  have seek := seeklen_eq md namesize
  have limit := md.len.toNat_lt
  have one := pad4_lt (NEWC_HDR_LEN + namesize.toNat)
  have two := pad4_lt md.len.toNat
  have small : ¬(pad4 (NEWC_HDR_LEN + namesize.toNat) + md.len.toNat + pad4 md.len.toNat ≥ 2^63) := by omega
  have enough := followed.enough
  have name : (rest.take namesize.toNat ++ (zeros (PATH_MAX + 1)).drop (rest.take namesize.toNat).length).take
      (namesize.toNat - 1) = rest.take (namesize.toNat - 1) := by
    rw [List.take_append_of_le_length (by rw [List.length_take]; omega),List.take_take,Nat.min_eq_left (by omega)]
  unfold nextEntry
  rw [if_neg (Nat.not_lt.mpr narrow),readExact_behind whole]
  simp only [if_pos enough,seek,if_neg small,Reader.seekCurrent,if_pos followed.near,if_neg named,name,if_neg followed.other]
  exact ⟨_,rfl⟩

-- The walker and the grammar decode alike unless a field has a sign.
theorem decode_unsigned (whole : hdr.length = NEWC_HDR_LEN) (unsigned : ∀ k ∈ decodedFields, signed (field hdr k) = false) :
    decodeWith (fromStrRadix 16 (2^32)) hdr = decodeWith hexField hdr := by
  have same : ∀ k ∈ decodedFields, fromStrRadix 16 (2^32) (field hdr k) = hexField (field hdr k) := by
    intro k member
    refine fromStrRadix_hexField ?_ (unsigned k member)
    have last : k ≤ 11 := by
      revert k
      decide
    rw [field,List.length_take,List.length_drop,whole]
    simp only [NEWC_HDR_LEN]
    omega
  simp only [decodeWith,same 1 (by decide),same 2 (by decide),same 3 (by decide),same 4 (by decide),same 5 (by decide),
    same 6 (by decide),same 9 (by decide),same 10 (by decide),same 11 (by decide)]

theorem decode_signed (member : k ∈ decodedFields) (sign : signed (field hdr k) = true) : decodeWith hexField hdr = none := by
  have none := hexField_signed sign
  simp only [decodedFields,List.mem_cons,List.not_mem_nil,or_false] at member
  rcases member with rfl | rfl | rfl | rfl | rfl | rfl | rfl | rfl | rfl <;>
    simp only [decodeWith,none,Option.bind_eq_bind,Option.bind_none,Option.bind_fun_none]

def hasSign (hdr : List UInt8) : Bool := decodedFields.any fun k => signed (field hdr k)

theorem header_unsigned (whole : hdr.length = NEWC_HDR_LEN) (unsigned : hasSign hdr = false) : walkerHeader hdr = newcHeader hdr := by
  have each : ∀ k ∈ decodedFields, signed (field hdr k) = false := by simpa [hasSign] using unsigned
  rw [walkerHeader,newcHeader,headerWith,headerWith,decode_unsigned whole each]

theorem header_signed (sign : hasSign hdr = true) : newcHeader hdr = none := by
  obtain ⟨k,member,here⟩ := List.any_eq_true.mp sign
  rw [newcHeader,headerWith,decode_signed member here]
  split <;> rfl

-- One call of next() at a header with enough input behind it.
structure Accepted (before hdr rest : List UInt8) : Prop where
  decoded : ∀ md namesize, newcHeader hdr = some (md,namesize) →
    ∃ ent, (next (atHeader before hdr rest)).1 = .item (.ok ent) ∧ ent.md = md ∧ ent.namesize = namesize
  refused : newcHeader hdr = none → ∃ e, (next (atHeader before hdr rest)).1 = .item (.error e)
  ignored : ∀ other, SameDecoded hdr other → (next (atHeader before other rest)).1 = (next (atHeader before hdr rest)).1

theorem next_ignores (whole : hdr.length = NEWC_HDR_LEN) (same : SameDecoded hdr other) (before rest : List UInt8) :
    (next (atHeader before other rest)).1 = (next (atHeader before hdr rest)).1 := by
  rw [next_header whole,next_header same.whole,readNewcMd_ignores whole same,same.magic]
  simp only [nextEntry_ignores whole same.whole]

theorem next_walkerHeader (whole : hdr.length = NEWC_HDR_LEN)
    (followed : ∀ md namesize, walkerHeader hdr = some (md,namesize) → Followed before rest md namesize) :
    (∀ md namesize, walkerHeader hdr = some (md,namesize) →
      ∃ name, (next (atHeader before hdr rest)).1 = .item (.ok ⟨md,namesize,name⟩)) ∧
    (walkerHeader hdr = none → ∃ e, (next (atHeader before hdr rest)).1 = .item (.error e)) := by
  have agrees := readNewcMd_agrees whole
  rw [next_header whole]
  unfold walkerHeader headerWith at *
  by_cases good : hdr.take 6 = magic
  · simp only [if_pos good] at followed ⊢
    refine ⟨fun md namesize found => ?_,fun none => ?_⟩
    · have decoded := agrees.1 _ found
      obtain ⟨named,narrow⟩ := readNewcMd_namesize decoded
      rw [decoded]
      exact nextEntry_named whole named narrow (followed md namesize found)
    · obtain ⟨e,failed⟩ := agrees.2 none
      rw [failed]
      exact ⟨e,rfl⟩
  · simp only [if_neg good]
    exact ⟨nofun,fun _ => ⟨_,rfl⟩⟩

theorem walker_grammar (whole : hdr.length = NEWC_HDR_LEN)
    (followed : ∀ md namesize, walkerHeader hdr = some (md,namesize) → Followed before rest md namesize) :
    Accepted before hdr rest ↔ ¬((walkerHeader hdr).isSome = true ∧ hasSign hdr = true) := by
  obtain ⟨found,missing⟩ := next_walkerHeader whole followed
  constructor
  · rintro accepted ⟨some,sign⟩
    obtain ⟨⟨md,namesize⟩,header⟩ := Option.isSome_iff_exists.mp some
    obtain ⟨name,ok⟩ := found md namesize header
    obtain ⟨e,failed⟩ := accepted.refused (header_signed sign)
    rw [ok] at failed
    cases failed
  · intro unsigned
    have ignored : ∀ other, SameDecoded hdr other → (next (atHeader before other rest)).1 = (next (atHeader before hdr rest)).1 :=
      fun other same => next_ignores whole same before rest
    have equal : walkerHeader hdr = newcHeader hdr := by
      cases sign : hasSign hdr with
      | false => exact header_unsigned whole sign
      | true =>
        rw [header_signed sign]
        cases header : walkerHeader hdr with
        | none => rfl
        | some pair => exact absurd ⟨by rw [header]; rfl,sign⟩ unsigned
    rw [equal] at found missing
    refine ⟨fun md namesize header => ?_,missing,ignored⟩
    obtain ⟨name,ok⟩ := found md namesize header
    exact ⟨_,ok,rfl,rfl⟩

def plainHeader : List UInt8 := newcHdr 0 ⟨1,0o100644,0,0,0,0,0,0⟩ 0 2

theorem walker_grammar_plain : Accepted [] plainHeader [65,0] := by
  have header : walkerHeader plainHeader = some (⟨1,0o100644,0,0,0,0,0,0⟩,2) := by decide +kernel
  refine (walker_grammar (by decide +kernel) ?_).mpr (by decide +kernel)
  intro md namesize found
  rw [header] at found
  cases found
  exact ⟨by decide,by decide +kernel,by decide⟩

-- The same header with +0000001 for its uid.
def signedHeader : List UInt8 := plainHeader.take 22 ++ [43,48,48,48,48,48,48,49] ++ plainHeader.drop 30

theorem signed_header_accepted : signedHeader.length = 110 ∧ newcHeader signedHeader = none ∧
    (∃ ent, (next (atHeader [] signedHeader [65,0])).1 = .item (.ok ent) ∧ ent.md.uid = 1) ∧
    ¬Accepted [] signedHeader [65,0] := by
  have header : walkerHeader signedHeader = some (⟨1,0o100644,1,0,0,0,0,0⟩,2) := by decide +kernel
  have whole : signedHeader.length = NEWC_HDR_LEN := by decide +kernel
  have followed : ∀ md namesize, walkerHeader signedHeader = some (md,namesize) → Followed [] [65,0] md namesize := by
    intro md namesize found
    rw [header] at found
    cases found
    exact ⟨by decide,by decide +kernel,by decide⟩
  have none : newcHeader signedHeader = none := by decide +kernel
  obtain ⟨name,ok⟩ := (next_walkerHeader whole followed).1 _ _ header
  refine ⟨whole,none,⟨_,ok,rfl⟩,fun accepted => ?_⟩
  obtain ⟨e,failed⟩ := accepted.refused none
  rw [ok] at failed
  cases failed

end Rapido.Cpio
