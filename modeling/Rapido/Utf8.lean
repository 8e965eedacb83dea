import Rapido.Radix
import Rapido.Text

namespace Rapido.Utf8
open Text

-- String::as_bytes
def encode (s : Str) : List UInt8 := s.flatMap String.utf8EncodeChar

def cont (b : UInt8) : Bool := 0x80 ≤ b && b ≤ 0xbf
def low (b : UInt8) : Nat := b.toNat % 64

-- The first two bytes of a three and of a four byte sequence, without overlong
-- forms and surrogates.
def three (b0 b1 : UInt8) : Bool :=
  (b0 == 0xe0 && 0xa0 ≤ b1 && b1 ≤ 0xbf) || (0xe1 ≤ b0 && b0 ≤ 0xec && cont b1) ||
    (b0 == 0xed && 0x80 ≤ b1 && b1 ≤ 0x9f) || (0xee ≤ b0 && b0 ≤ 0xef && cont b1)
def four (b0 b1 : UInt8) : Bool :=
  (b0 == 0xf0 && 0x90 ≤ b1 && b1 ≤ 0xbf) || (0xf1 ≤ b0 && b0 ≤ 0xf3 && cont b1) ||
    (b0 == 0xf4 && 0x80 ≤ b1 && b1 ≤ 0x8f)

-- str::from_utf8
def decode : List UInt8 → Option Str
  | [] => some []
  | b0 :: rest =>
    if b0 < 0x80 then (decode rest).map (Char.ofNat b0.toNat :: ·) else
    match rest with
    | [] => none
    | b1 :: rest =>
      if 0xc2 ≤ b0 ∧ b0 ≤ 0xdf ∧ cont b1 then
        (decode rest).map (Char.ofNat (b0.toNat % 32 * 64 + low b1) :: ·) else
      match rest with
      | [] => none
      | b2 :: rest =>
        if three b0 b1 ∧ cont b2 then
          (decode rest).map (Char.ofNat ((b0.toNat % 16 * 64 + low b1) * 64 + low b2) :: ·) else
        match rest with
        | [] => none
        | b3 :: rest =>
          if four b0 b1 ∧ cont b2 ∧ cont b3 then
            (decode rest).map (Char.ofNat (((b0.toNat % 8 * 64 + low b1) * 64 + low b2) * 64 + low b3) :: ·)
          else none

-- String::from_utf8_lossy: one U+FFFD for every maximal broken sequence.
def lossy : List UInt8 → Str
  | [] => []
  | b0 :: rest =>
    if b0 < 0x80 then Char.ofNat b0.toNat :: lossy rest else
    match rest with
    | [] => ['\uFFFD']
    | b1 :: rest =>
      if 0xc2 ≤ b0 ∧ b0 ≤ 0xdf ∧ cont b1 then Char.ofNat (b0.toNat % 32 * 64 + low b1) :: lossy rest
      else if three b0 b1 then
        match rest with
        | [] => ['\uFFFD']
        | b2 :: rest =>
          if cont b2 then Char.ofNat ((b0.toNat % 16 * 64 + low b1) * 64 + low b2) :: lossy rest
          else '\uFFFD' :: lossy (b2 :: rest)
      else if four b0 b1 then
        match rest with
        | [] => ['\uFFFD']
        | b2 :: rest =>
          if cont b2 then
            match rest with
            | [] => ['\uFFFD']
            | b3 :: rest =>
              if cont b3 then Char.ofNat (((b0.toNat % 8 * 64 + low b1) * 64 + low b2) * 64 + low b3) :: lossy rest
              else '\uFFFD' :: lossy (b3 :: rest)
          else '\uFFFD' :: lossy (b2 :: rest)
      else '\uFFFD' :: lossy (b1 :: rest)

-- OsString::into_string succeeds.
def valid (bytes : List UInt8) : Bool := (decode bytes).isSome

-- Display of a String that is kept as its bytes.
def display (bytes : List UInt8) : String := String.ofList ((decode bytes).getD [])

theorem encode_append (s t : Str) : encode (s ++ t) = encode s ++ encode t := List.flatMap_append

theorem toNat_byte (small : n < 256) : (UInt8.ofNat n).toNat = n := by
  rw [UInt8.toNat_ofNat']
  exact Nat.mod_eq_of_lt small

theorem cont_byte (small : n < 64) : cont (UInt8.ofNat (n + 0x80)) = true := by
  have byte : (UInt8.ofNat (n + 0x80)).toNat = n + 0x80 := toNat_byte (by omega)
  simp only [cont,Bool.and_eq_true,decide_eq_true_eq,UInt8.le_iff_toNat_le,byte,UInt8.reduceToNat]
  omega

theorem low_byte (small : n < 64) : low (UInt8.ofNat (n + 0x80)) = n := by
  rw [low,toNat_byte (by omega)]
  omega

theorem decode_one (small : b0 < 0x80) (rest : List UInt8) :
    decode (b0 :: rest) = (decode rest).map (Char.ofNat b0.toNat :: ·) := by
  rw [decode.eq_def]
  dsimp only
  rw [if_pos small]

theorem decode_two (lead : 0xc2 ≤ b0 ∧ b0 ≤ 0xdf) (one : cont b1 = true) (rest : List UInt8) :
    decode (b0 :: b1 :: rest) = (decode rest).map (Char.ofNat (b0.toNat % 32 * 64 + low b1) :: ·) := by
  have wide : ¬b0 < 0x80 := by
    simp only [UInt8.le_iff_toNat_le,UInt8.lt_iff_toNat_lt,UInt8.reduceToNat] at lead ⊢
    omega
  rw [decode.eq_def]
  dsimp only
  rw [if_neg wide]
  rw [if_pos ⟨lead.1,lead.2,one⟩]

theorem decode_three (lead : three b0 b1 = true) (two : cont b2 = true) (rest : List UInt8) :
    decode (b0 :: b1 :: b2 :: rest) =
      (decode rest).map (Char.ofNat ((b0.toNat % 16 * 64 + low b1) * 64 + low b2) :: ·) := by
  have wide : 0xe0 ≤ b0.toNat := by
    simp only [three,Bool.or_eq_true,Bool.and_eq_true,decide_eq_true_eq,beq_iff_eq,UInt8.le_iff_toNat_le,
      ← UInt8.toNat_inj,UInt8.reduceToNat] at lead
    omega
  rw [decode.eq_def]
  dsimp only
  rw [if_neg (by simp only [UInt8.lt_iff_toNat_lt,UInt8.reduceToNat]; omega)]
  rw [if_neg (by simp only [UInt8.le_iff_toNat_le,UInt8.reduceToNat]; omega)]
  rw [if_pos ⟨lead,two⟩]

theorem decode_four (lead : four b0 b1 = true) (two : cont b2 = true) (three' : cont b3 = true) (rest : List UInt8) :
    decode (b0 :: b1 :: b2 :: b3 :: rest) =
      (decode rest).map (Char.ofNat (((b0.toNat % 8 * 64 + low b1) * 64 + low b2) * 64 + low b3) :: ·) := by
  have wide : 0xf0 ≤ b0.toNat := by
    simp only [four,Bool.or_eq_true,Bool.and_eq_true,decide_eq_true_eq,beq_iff_eq,UInt8.le_iff_toNat_le,
      ← UInt8.toNat_inj,UInt8.reduceToNat] at lead
    omega
  have other : ¬(three b0 b1 = true ∧ cont b2 = true) := by
    rintro ⟨small,_⟩
    simp only [three,Bool.or_eq_true,Bool.and_eq_true,decide_eq_true_eq,beq_iff_eq,UInt8.le_iff_toNat_le,
      ← UInt8.toNat_inj,UInt8.reduceToNat] at small
    omega
  rw [decode.eq_def]
  dsimp only
  rw [if_neg (by simp only [UInt8.lt_iff_toNat_lt,UInt8.reduceToNat]; omega)]
  rw [if_neg (by simp only [UInt8.le_iff_toNat_le,UInt8.reduceToNat]; omega)]
  rw [if_neg other]
  rw [if_pos ⟨lead,two,three'⟩]

theorem decode_char (c : Char) (rest : List UInt8) :
    decode (String.utf8EncodeChar c ++ rest) = (decode rest).map (c :: ·) := by
  have same : Char.ofNat c.val.toNat = c := Char.ofNat_toNat c
  have scalar : c.val.toNat < 0xd800 ∨ 0xdfff < c.val.toNat ∧ c.val.toNat < 0x110000 := c.valid
  unfold String.utf8EncodeChar
  simp only
  generalize c.val.toNat = v at same scalar ⊢
  subst same
  have third : ∀ k, v / k % 64 < 64 := fun k => Nat.mod_lt _ (by decide)
  have last : v % 64 < 64 := Nat.mod_lt _ (by decide)
  split
  · have byte : (UInt8.ofNat v).toNat = v := toNat_byte (by omega)
    rw [List.singleton_append,decode_one (by simp only [UInt8.lt_iff_toNat_lt,byte,UInt8.reduceToNat]; omega),byte]
  · split
    · have byte : (UInt8.ofNat (v / 64 % 32 + 0xc0)).toNat = v / 64 % 32 + 0xc0 := toNat_byte (by omega)
      simp only [List.cons_append,List.nil_append]
      rw [decode_two _ (cont_byte last),byte,low_byte last]
      · rw [show (v / 64 % 32 + 0xc0) % 32 * 64 + v % 64 = v by omega]
      · simp only [UInt8.le_iff_toNat_le,byte,UInt8.reduceToNat]
        omega
    · split
      · have byte : (UInt8.ofNat (v / 4096 % 16 + 0xe0)).toNat = v / 4096 % 16 + 0xe0 := toNat_byte (by omega)
        have next : (UInt8.ofNat (v / 64 % 64 + 0x80)).toNat = v / 64 % 64 + 0x80 := toNat_byte (by omega)
        simp only [List.cons_append,List.nil_append]
        rw [decode_three _ (cont_byte last),byte,low_byte last,low_byte (third 64)]
        · rw [show ((v / 4096 % 16 + 0xe0) % 16 * 64 + v / 64 % 64) * 64 + v % 64 = v by omega]
        · simp only [three,cont,Bool.or_eq_true,Bool.and_eq_true,decide_eq_true_eq,beq_iff_eq,UInt8.le_iff_toNat_le,
            ← UInt8.toNat_inj,byte,next,UInt8.reduceToNat]
          omega
      · have byte : (UInt8.ofNat (v / 262144 % 8 + 0xf0)).toNat = v / 262144 % 8 + 0xf0 := toNat_byte (by omega)
        have next : (UInt8.ofNat (v / 4096 % 64 + 0x80)).toNat = v / 4096 % 64 + 0x80 := toNat_byte (by omega)
        simp only [List.cons_append,List.nil_append]
        rw [decode_four _ (cont_byte (third 64)) (cont_byte last),byte,low_byte last,low_byte (third 64),low_byte (third 4096)]
        · rw [show (((v / 262144 % 8 + 0xf0) % 8 * 64 + v / 4096 % 64) * 64 + v / 64 % 64) * 64 + v % 64 = v by omega]
        · simp only [four,cont,Bool.or_eq_true,Bool.and_eq_true,decide_eq_true_eq,beq_iff_eq,UInt8.le_iff_toNat_le,
            ← UInt8.toNat_inj,byte,next,UInt8.reduceToNat]
          omega

theorem decode_encode (s : Str) : decode (encode s) = some s := by
  induction s with
  | nil => rfl
  | cons c rest ih =>
    change decode (String.utf8EncodeChar c ++ encode rest) = _
    rw [decode_char,ih]
    rfl

-- One byte for a character below 0x80, and no such byte for any other.
theorem encode_ascii (c : Char) (small : c.toNat < 0x80) : String.utf8EncodeChar c = [UInt8.ofNat c.toNat] := by
  have low : c.val.toNat ≤ 0x7f := Nat.le_of_lt_succ small
  unfold String.utf8EncodeChar
  exact if_pos low

theorem encode_char_ascii (member : b ∈ String.utf8EncodeChar c) (small : b < 0x80) : c = Char.ofNat b.toNat := by
  simp only [UInt8.lt_iff_toNat_lt,UInt8.reduceToNat] at small
  unfold String.utf8EncodeChar at member
  simp only at member
  have same : Char.ofNat c.val.toNat = c := Char.ofNat_toNat c
  have high : ∀ n k, 0x80 ≤ k → n + k < 256 → b ≠ UInt8.ofNat (n + k) := by
    rintro n k wide fits rfl
    rw [toNat_byte fits] at small
    omega
  split at member
  · rw [List.mem_singleton.mp member,toNat_byte (by omega),same]
  · split at member
    · simp only [List.mem_cons,List.not_mem_nil,or_false] at member
      rcases member with found | found
      · exact absurd found (high _ _ (by omega) (by omega))
      · exact absurd found (high _ _ (by omega) (by omega))
    · split at member
      all_goals simp only [List.mem_cons,List.not_mem_nil,or_false] at member
      · rcases member with found | found | found
        all_goals exact absurd found (high _ _ (by omega) (by omega))
      · rcases member with found | found | found | found
        all_goals exact absurd found (high _ _ (by omega) (by omega))

theorem mem_encode_ascii (member : b ∈ encode s) (small : b < 0x80) : Char.ofNat b.toNat ∈ s := by
  obtain ⟨c,inside,found⟩ := List.mem_flatMap.mp member
  rw [← encode_char_ascii found small]
  exact inside

theorem encode_map_ascii (s : Str) (small : ∀ c ∈ s, c.toNat < 0x80) : encode s = s.map fun c => UInt8.ofNat c.toNat := by
  induction s with
  | nil => rfl
  | cons c rest ih =>
    change String.utf8EncodeChar c ++ encode rest = _
    rw [encode_ascii c (small c List.mem_cons_self),ih fun d inside => small d (List.mem_cons_of_mem _ inside)]
    rfl

theorem encode_toDigits (n : Nat) : encode (Nat.toDigits 10 n) = Radix.decBytes n :=
  encode_map_ascii _ fun _ member => Nat.lt_of_le_of_lt (Radix.toDigits_bounds member).2 (by decide)

end Rapido.Utf8
