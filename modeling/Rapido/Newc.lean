import Rapido.Cpio

-- The newc format by itself: one entry is a header, a name field and a data
-- segment, each of the last two padded relative to its own start.
namespace Rapido.Newc
open Cpio Radix

def pad4 (n : Nat) : Nat := (4 - n % 4) % 4

theorem pad4_lt (n : Nat) : pad4 n < 4 := Nat.mod_lt _ (by decide)
theorem pad4_aligns (n : Nat) : (n + pad4 n) % 4 = 0 := by unfold pad4; omega
theorem pad4_shift (aligned : base % 4 = 0) : pad4 (base + n) = pad4 n := by unfold pad4; omega
theorem pad4_zero (aligned : n % 4 = 0) : pad4 n = 0 := by unfold pad4; omega

structure Entry where
  ino : UInt32
  md : ArchiveMd
  name : List UInt8
  data : List UInt8
  sized : data.length = md.len.toNat
  named : 1 ≤ name.length
  narrow : name.length < 2^32

def trailerEntry : Entry := ⟨0,trailerMd,trailerName ++ zeros 1,[],rfl,by decide,by decide⟩

def Entry.header (e : Entry) : List UInt8 := newcHdr e.ino e.md e.md.len e.name.length

def Entry.encode (e : Entry) : List UInt8 :=
  e.header ++ (e.name ++ zeros (pad4 (NEWC_HDR_LEN + e.name.length))) ++
    (e.data ++ zeros (pad4 e.data.length))

@[simp] theorem length_zeros (n : Nat) : (zeros n).length = n := List.length_replicate

theorem length_field32 (value : UInt32) : (fmtHex 8 value.toNat).length = 8 :=
  length_fmtHex (by simpa using value.toNat_lt)

theorem length_newcHdr (narrow : namesize < 2^32) : (newcHdr ino md filesize namesize).length = NEWC_HDR_LEN := by
  have name : (fmtHex 8 namesize).length = 8 := length_fmtHex (by simpa using narrow)
  have zero : (fmtHex 8 0).length = 8 := length_fmtHex (by decide)
  simp [newcHdr,length_field32,name,zero,NEWC_HDR_LEN]

theorem Entry.length_header (e : Entry) : e.header.length = NEWC_HDR_LEN := length_newcHdr e.narrow

theorem Entry.encode_aligned (e : Entry) : e.encode.length % 4 = 0 := by
  have name := pad4_aligns (NEWC_HDR_LEN + e.name.length)
  have data := pad4_aligns e.data.length
  simp only [encode,List.length_append,e.length_header,length_zeros]
  omega

end Rapido.Newc
