import Mathlib.Data.List.Basic
import Mathlib.Tactic.IntervalCases

namespace Rapido.Radix

-- char::to_digit for radixes up to 36, on the bytes of a text.
def digitVal (radix : Nat) (b : UInt8) : Option Nat :=
  let value :=
    if 48 ≤ b ∧ b ≤ 57 then some (b.toNat - 48)
    else if 97 ≤ b ∧ b ≤ 122 then some (b.toNat - 87)
    else if 65 ≤ b ∧ b ≤ 90 then some (b.toNat - 55)
    else none
  value.filter (· < radix)

-- Checked multiplication and addition per digit; `limit` is one past the
-- largest value of the target type.
def parseDigits (radix limit : Nat) : Nat → List UInt8 → Option Nat
  | acc,[] => some acc
  | acc,b :: rest => do
    let digit ← digitVal radix b
    let next := acc * radix + digit
    if next < limit then parseDigits radix limit next rest else none

-- uN::from_str_radix: one leading '+' is accepted, a lone sign is not a number.
def fromStrRadix (radix limit : Nat) : List UInt8 → Option Nat
  | [] => none
  | [43] => none
  | [45] => none
  | 43 :: rest => parseDigits radix limit 0 rest
  | bytes => parseDigits radix limit 0 bytes

def hexDigit (digit : Nat) : UInt8 :=
  if digit < 10 then UInt8.ofNat (48 + digit) else UInt8.ofNat (55 + digit)

-- {:0wX}: upper case digits, zero padded to a minimum width. Wider values are
-- printed in full.
def fmtHex (width value : Nat) : List UInt8 :=
  (List.leftpad width '0' (Nat.toDigits 16 value)).map (fun c => c.toUpper.toUInt8)

-- The low `width` hex digits, most significant first.
def hexFixed : Nat → Nat → List UInt8
  | 0,_ => []
  | width+1,value => hexFixed width (value / 16) ++ [hexDigit (value % 16)]

theorem length_hexFixed (width value : Nat) : (hexFixed width value).length = width := by
  induction width generalizing value with
  | zero => rfl
  | succ width ih => simp [hexFixed,ih]

theorem hexFixed_zero (width : Nat) : hexFixed width 0 = List.replicate width 48 := by
  induction width with
  | zero => rfl
  | succ width ih => simp [hexFixed,ih,hexDigit,List.replicate_succ']

theorem digitChar_upper (small : digit < 16) : (Nat.digitChar digit).toUpper.toUInt8 = hexDigit digit := by
  interval_cases digit <;> rfl

theorem leftpad_concat (width : Nat) (c d : α) (rest : List α) :
    List.leftpad (width+1) c (rest ++ [d]) = List.leftpad width c rest ++ [d] := by
  simp [List.leftpad]

theorem fmtHex_fixed (fits : value < 16^(width+1)) : fmtHex (width+1) value = hexFixed (width+1) value := by
  induction width generalizing value with
  | zero =>
    have small : value < 16 := by simpa using fits
    simp [fmtHex,Nat.toDigits_of_lt_base small,List.leftpad,hexFixed,Nat.mod_eq_of_lt small,
      digitChar_upper small]
  | succ width ih =>
    have low : value % 16 < 16 := Nat.mod_lt _ (by decide)
    by_cases small : value < 16
    · have high : value / 16 = 0 := Nat.div_eq_of_lt small
      rw [hexFixed,high,hexFixed_zero,Nat.mod_eq_of_lt small]
      simp [fmtHex,Nat.toDigits_of_lt_base small,List.leftpad,digitChar_upper small]
      rfl
    · have split := Nat.toDigits_of_base_le (b:=16) (by decide) (Nat.le_of_not_lt small)
      have shifted : value / 16 < 16^(width+1) := by
        rw [Nat.div_lt_iff_lt_mul (by decide)]
        calc value < 16^(width+1+1) := fits
          _ = 16^(width+1) * 16 := Nat.pow_succ _ _
      have rest := ih shifted
      unfold fmtHex at rest ⊢
      rw [split,leftpad_concat,List.map_append,rest]
      simp only [List.map_cons,List.map_nil,digitChar_upper low]
      rfl

theorem length_fmtHex (fits : value < 16^(width+1)) : (fmtHex (width+1) value).length = width+1 := by
  rw [fmtHex_fixed fits,length_hexFixed]

theorem digitVal_hexDigit (small : digit < 16) : digitVal 16 (hexDigit digit) = some digit := by
  interval_cases digit <;> rfl

theorem hexDigit_not_sign (small : digit < 16) : hexDigit digit ≠ 43 ∧ hexDigit digit ≠ 45 := by
  interval_cases digit <;> decide

theorem parseDigits_append (radix limit acc : Nat) (front back : List UInt8) :
    parseDigits radix limit acc (front ++ back) =
      (parseDigits radix limit acc front).bind (parseDigits radix limit · back) := by
  induction front generalizing acc with
  | nil => rfl
  | cons b rest ih =>
    simp only [List.cons_append,parseDigits]
    cases digitVal radix b with
    | none => rfl
    | some digit =>
      simp only [Option.bind_eq_bind,Option.bind_some]
      split
      · exact ih _
      · rfl

theorem parseDigits_hexFixed (fits : value < 16^width) (room : acc * 16^width + value < limit) :
    parseDigits 16 limit acc (hexFixed width value) = some (acc * 16^width + value) := by
  induction width generalizing value with
  | zero =>
    have zero : value = 0 := by simpa using fits
    simp [hexFixed,parseDigits,zero]
  | succ width ih =>
    have pow : 16^(width+1) = 16^width * 16 := Nat.pow_succ _ _
    have parts := Nat.div_add_mod value 16
    have scaled : acc * 16^(width+1) = acc * 16^width * 16 := by rw [pow,Nat.mul_assoc]
    have shifted : value / 16 < 16^width := by
      rw [Nat.div_lt_iff_lt_mul (by decide)]
      omega
    have front : parseDigits 16 limit acc (hexFixed width (value / 16)) = some (acc * 16^width + value / 16) :=
      ih shifted (by omega)
    rw [hexFixed,parseDigits_append,front]
    simp only [Option.bind_some,parseDigits,digitVal_hexDigit (Nat.mod_lt value (by decide : 0 < 16)),
      Option.bind_eq_bind]
    have total : (acc * 16^width + value / 16) * 16 + value % 16 = acc * 16^(width+1) + value := by omega
    rw [total,if_pos room]

theorem fromStrRadix_unsigned (plus : b ≠ 43) (minus : b ≠ 45) :
    fromStrRadix radix limit (b :: rest) = parseDigits radix limit 0 (b :: rest) := by
  unfold fromStrRadix
  split
  · contradiction
  · rename_i only; exact absurd (List.cons.inj only).1 plus
  · rename_i only; exact absurd (List.cons.inj only).1 minus
  · rename_i only; exact absurd (List.cons.inj only).1 plus
  · rfl

theorem fromStrRadix_fmtHex (fits : value < 16^(width+1)) (room : value < limit) :
    fromStrRadix 16 limit (fmtHex (width+1) value) = some value := by
  rw [fmtHex_fixed fits]
  have parsed : parseDigits 16 limit 0 (hexFixed (width+1) value) = some (0 * 16^(width+1) + value) :=
    parseDigits_hexFixed fits (by simpa using room)
  rw [Nat.zero_mul,Nat.zero_add] at parsed
  -- the first digit is not a sign, so the sign cases of the parser are passed over
  have unsigned : ∃ b rest, hexFixed (width+1) value = b :: rest ∧ b ≠ 43 ∧ b ≠ 45 := by
    clear parsed room fits
    induction width generalizing value with
    | zero =>
      have sign := hexDigit_not_sign (Nat.mod_lt value (by decide : 0 < 16))
      exact ⟨_,[],rfl,sign.1,sign.2⟩
    | succ width ih =>
      obtain ⟨b,rest,equal,plus,minus⟩ := @ih (value / 16)
      exact ⟨b,rest ++ [hexDigit (value % 16)],by rw [hexFixed,equal]; rfl,plus,minus⟩
  obtain ⟨b,rest,equal,plus,minus⟩ := unsigned
  rw [equal] at parsed ⊢
  rw [fromStrRadix_unsigned plus minus,parsed]

theorem toDigits_bounds (member : c ∈ Nat.toDigits 10 n) : 48 ≤ c.toNat ∧ c.toNat ≤ 57 :=
  Char.isDigit_iff_toNat.mp (Nat.isDigit_of_mem_toDigits (by decide) (by decide) member)

-- The bytes of a decimal number.
def decBytes (n : Nat) : List UInt8 := (Nat.toDigits 10 n).map fun c => UInt8.ofNat c.toNat

theorem digitVal_digitChar (small : digit < 10) : digitVal 10 (UInt8.ofNat (Nat.digitChar digit).toNat) = some digit := by
  interval_cases digit <;> rfl

theorem decBytes_step (large : 10 ≤ n) : decBytes n = decBytes (n / 10) ++ [UInt8.ofNat (Nat.digitChar (n % 10)).toNat] := by
  unfold decBytes
  rw [Nat.toDigits_of_base_le (by decide) large,List.map_append]
  rfl

theorem parseDigits_decBytes (room : n < limit) : parseDigits 10 limit 0 (decBytes n) = some n := by
  induction n using Nat.strongRecOn with
  | _ n ih =>
    by_cases small : n < 10
    · unfold decBytes
      rw [Nat.toDigits_of_lt_base small]
      simp [parseDigits,digitVal_digitChar small,room]
    · have less : n / 10 < n := Nat.div_lt_self (by omega) (by decide)
      have digit : n % 10 < 10 := Nat.mod_lt _ (by decide)
      have whole : n / 10 * 10 + n % 10 = n := by omega
      rw [decBytes_step (by omega),parseDigits_append,ih (n / 10) less (by omega)]
      simp [parseDigits,digitVal_digitChar digit,whole,room]

theorem fromStrRadix_decBytes (room : n < limit) : fromStrRadix 10 limit (decBytes n) = some n := by
  have digits : ∀ b ∈ decBytes n, b ≠ 43 ∧ b ≠ 45 := by
    intro b member
    obtain ⟨c,inside,rfl⟩ := List.mem_map.mp member
    have bounds := toDigits_bounds inside
    have byte : (UInt8.ofNat c.toNat).toNat = c.toNat := by
      rw [UInt8.toNat_ofNat']
      exact Nat.mod_eq_of_lt (by omega)
    constructor
    · intro same
      have value := congrArg UInt8.toNat same
      rw [byte] at value
      simp at value
      omega
    · intro same
      have value := congrArg UInt8.toNat same
      rw [byte] at value
      simp at value
      omega
  have parsed := parseDigits_decBytes room
  cases bytes : decBytes n with
  | nil => exact absurd (List.map_eq_nil_iff.mp bytes) Nat.toDigits_ne_nil
  | cons b rest =>
    obtain ⟨plus,minus⟩ := digits b (by rw [bytes]; exact List.mem_cons_self)
    rw [fromStrRadix_unsigned plus minus,← bytes,parsed]

theorem parseDigits_bad (member : b ∈ bytes) (bad : digitVal radix b = none) (acc : Nat) :
    parseDigits radix limit acc bytes = none := by
  induction bytes generalizing acc with
  | nil => cases member
  | cons first rest ih =>
    unfold parseDigits
    rcases List.mem_cons.mp member with rfl | later
    · rw [bad]
      rfl
    · cases digitVal radix first with
      | none => rfl
      | some digit =>
        simp only [Option.bind_eq_bind,Option.bind_some]
        split
        · exact ih later _
        · rfl

theorem fromStrRadix_bad (member : b ∈ bytes) (bad : digitVal radix b = none) (unsigned : b ≠ 43) :
    fromStrRadix radix limit bytes = none := by
  unfold fromStrRadix
  split
  · rfl
  · rfl
  · rfl
  · rename_i rest _
    have later : b ∈ rest := (List.mem_cons.mp member).resolve_left unsigned
    exact parseDigits_bad later bad 0
  · exact parseDigits_bad member bad 0

end Rapido.Radix
