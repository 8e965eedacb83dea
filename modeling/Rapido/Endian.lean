import Mathlib.Data.Nat.Digits.Defs

-- Numbers of a fixed count of bytes with either end first.
namespace Rapido.Endian

inductive AnyEndian where
  | little
  | big
deriving DecidableEq, Repr

def fromLeBytes (bytes : List UInt8) : Nat := Nat.ofDigits 256 (bytes.map UInt8.toNat)

def toLeBytes : Nat → Nat → List UInt8
  | 0,_ => []
  | width+1,n => UInt8.ofNat n :: toLeBytes width (n / 256)

def AnyEndian.decode : AnyEndian → List UInt8 → Nat
  | .little,bytes => fromLeBytes bytes
  | .big,bytes => fromLeBytes bytes.reverse

def AnyEndian.encode : AnyEndian → Nat → Nat → List UInt8
  | .little,width,n => toLeBytes width n
  | .big,width,n => (toLeBytes width n).reverse

@[simp] theorem length_toLeBytes (width n : Nat) : (toLeBytes width n).length = width := by
  induction width generalizing n with
  | zero => rfl
  | succ width ih => rw [toLeBytes,List.length_cons,ih]

theorem fromLeBytes_cons (b : UInt8) (bytes : List UInt8) : fromLeBytes (b :: bytes) = b.toNat + 256 * fromLeBytes bytes := by
  simp [fromLeBytes,Nat.ofDigits_cons]

theorem fromLeBytes_toLeBytes (small : n < 256^width) : fromLeBytes (toLeBytes width n) = n := by
  induction width generalizing n with
  | zero =>
    have none : n = 0 := by simpa using small
    rw [none]
    rfl
  | succ width ih =>
    have less : n / 256 < 256^width := Nat.div_lt_of_lt_mul (by rwa [pow_succ'] at small)
    rw [toLeBytes,fromLeBytes_cons,ih less,UInt8.toNat_ofNat']
    exact Nat.mod_add_div n 256

theorem fromLeBytes_lt (bytes : List UInt8) : fromLeBytes bytes < 256^bytes.length := by
  induction bytes with
  | nil => exact Nat.one_pos
  | cons b bytes ih =>
    have byte : b.toNat < 256 := b.toNat_lt
    rw [fromLeBytes_cons,List.length_cons,pow_succ]
    omega

theorem toLeBytes_fromLeBytes (bytes : List UInt8) : toLeBytes bytes.length (fromLeBytes bytes) = bytes := by
  induction bytes with
  | nil => rfl
  | cons b bytes ih =>
    have byte : b.toNat < 256 := b.toNat_lt
    have low : UInt8.ofNat (b.toNat + 256 * fromLeBytes bytes) = b := by
      rw [← UInt8.toNat_inj,UInt8.toNat_ofNat']
      omega
    have high : (b.toNat + 256 * fromLeBytes bytes) / 256 = fromLeBytes bytes := by omega
    rw [fromLeBytes_cons,List.length_cons,toLeBytes,low,high,ih]

namespace AnyEndian

@[simp] theorem length_encode (endian : AnyEndian) (width n : Nat) : (endian.encode width n).length = width := by
  cases endian with
  | little => exact length_toLeBytes width n
  | big => rw [encode,List.length_reverse,length_toLeBytes]

theorem decode_encode (endian : AnyEndian) (small : n < 256^width) : endian.decode (endian.encode width n) = n := by
  cases endian with
  | little => exact fromLeBytes_toLeBytes small
  | big => rw [encode,decode,List.reverse_reverse,fromLeBytes_toLeBytes small]

theorem decode_lt (endian : AnyEndian) (bytes : List UInt8) : endian.decode bytes < 256^bytes.length := by
  cases endian with
  | little => exact fromLeBytes_lt bytes
  | big =>
    have small := fromLeBytes_lt bytes.reverse
    rwa [List.length_reverse] at small

theorem encode_decode (endian : AnyEndian) (bytes : List UInt8) : endian.encode bytes.length (endian.decode bytes) = bytes := by
  cases endian with
  | little => exact toLeBytes_fromLeBytes bytes
  | big =>
    have back := toLeBytes_fromLeBytes bytes.reverse
    rw [List.length_reverse] at back
    rw [decode,encode,back,List.reverse_reverse]

end AnyEndian

-- The bytes of a record: each number with its width, one after the other.
def AnyEndian.bytesOf (endian : AnyEndian) (fields : List (Nat × Nat)) : List UInt8 :=
  fields.flatMap fun field => endian.encode field.1 field.2

def Fit (fields : List (Nat × Nat)) : Prop := ∀ field ∈ fields, field.2 < 256^field.1

instance (fields : List (Nat × Nat)) : Decidable (Fit fields) := inferInstanceAs (Decidable (∀ field ∈ fields, field.2 < 256^field.1))

@[simp] theorem length_bytesOf (endian : AnyEndian) (fields : List (Nat × Nat)) :
    (endian.bytesOf fields).length = (fields.map Prod.fst).sum := by
  induction fields with
  | nil => rfl
  | cons field rest ih =>
    rw [AnyEndian.bytesOf,List.flatMap_cons,List.length_append,AnyEndian.length_encode,List.map_cons,List.sum_cons]
    exact congrArg (field.1 + ·) ih

theorem fit_nil : Fit [] := List.forall_mem_nil _
theorem fit_cons : Fit ((width,n) :: rest) ↔ n < 256^width ∧ Fit rest := List.forall_mem_cons

-- Where some bytes stand in a file.
def At (data : List UInt8) (off : Nat) (bytes : List UInt8) : Prop :=
  ∃ before after, before.length = off ∧ data = before ++ bytes ++ after

theorem at_iff : At data off bytes ↔ off + bytes.length ≤ data.length ∧ (data.drop off).take bytes.length = bytes := by
  constructor
  · rintro ⟨before,after,rfl,rfl⟩
    refine ⟨by simp,?_⟩
    rw [List.append_assoc,List.drop_left,List.take_left]
  · rintro ⟨within,found⟩
    refine ⟨data.take off,(data.drop off).drop bytes.length,by rw [List.length_take]; omega,?_⟩
    have rest : bytes ++ (data.drop off).drop bytes.length = data.drop off := by
      nth_rewrite 1 [← found]
      exact List.take_append_drop _ _
    rw [List.append_assoc,rest,List.take_append_drop]

theorem At.length_le (here : At data off bytes) : off + bytes.length ≤ data.length := (at_iff.mp here).1

theorem At.taken (here : At data off bytes) : (data.drop off).take bytes.length = bytes := (at_iff.mp here).2

theorem at_taken (within : off + size ≤ data.length) : At data off ((data.drop off).take size) := by
  have length : ((data.drop off).take size).length = size := by
    rw [List.length_take,List.length_drop]
    omega
  rw [at_iff,length]
  exact ⟨within,rfl⟩

theorem at_append : At data off (front ++ back) ↔ At data off front ∧ At data (off + front.length) back := by
  constructor
  · rintro ⟨before,after,rfl,rfl⟩
    exact ⟨⟨before,back ++ after,rfl,by simp⟩,⟨before ++ front,after,by simp,by simp⟩⟩
  · rintro ⟨first,second⟩
    rw [at_iff,List.length_append,List.take_add,List.drop_drop,first.taken,second.taken]
    exact ⟨by have := second.length_le; omega,rfl⟩

-- The same length at the same place is the same bytes.
theorem At.unique (first : At data off one) (second : At data off other) (same : one.length = other.length) : one = other := by
  rw [← first.taken,← second.taken,same]

theorem at_whole (same : buf.length = bytes.length) : At buf 0 bytes ↔ buf = bytes := by
  constructor
  · intro here
    have taken := here.taken
    rwa [List.drop_zero,← same,List.take_length] at taken
  · rintro rfl
    exact ⟨[],[],rfl,by simp⟩

theorem At.front (here : At data off bytes) (n : Nat) : At data off (bytes.take n) := by
  rw [← List.take_append_drop n bytes] at here
  exact (at_append.mp here).1

theorem at_bytesOf_cons {endian : AnyEndian} : At data off (endian.bytesOf ((width,n) :: rest)) ↔
    At data off (endian.encode width n) ∧ At data (off + width) (endian.bytesOf rest) := by
  rw [AnyEndian.bytesOf,List.flatMap_cons,at_append,AnyEndian.length_encode]
  rfl

end Rapido.Endian
