import Mathlib.Algebra.Group.Nat.Defs
import Mathlib.Data.List.Basic

set_option autoImplicit false

namespace Text

-- `char::to_digit`.
def toDigitIn (radix : Nat) (c : Char) : Option Nat :=
  let value :=
    if '0' ≤ c ∧ c ≤ '9' then c.toNat - '0'.toNat
    else if 'a' ≤ c ∧ c ≤ 'z' then c.toNat - 'a'.toNat + 10
    else if 'A' ≤ c ∧ c ≤ 'Z' then c.toNat - 'A'.toNat + 10
    else radix
  if value < radix then some value else none

def hexValue (code : Nat) (digits : List Char) : Nat :=
  digits.foldl (fun code c => code * 16 + (toDigitIn 16 c).getD 0) code

def hexPadded (width n : Nat) : List Char := (Nat.toDigits 16 n).leftpad width '0'

theorem toDigitIn_digitChar {digit : Nat} (small : digit < 16) :
    toDigitIn 16 (Nat.digitChar digit) = some digit := by
  revert digit
  decide

theorem hexValue_toDigits (n : Nat) : hexValue 0 (Nat.toDigits 16 n) = n := by
  induction n using Nat.strongRecOn with
  | ind n ih =>
    rw [Nat.toDigits_eq_if (by decide)]
    split
    next small => simp [hexValue, toDigitIn_digitChar small]
    next large =>
      have last : n % 16 < 16 := Nat.mod_lt _ (by decide)
      have front := ih (n / 16) (Nat.div_lt_self (by omega) (by decide))
      unfold hexValue at front ⊢
      rw [List.foldl_append, front, List.foldl_cons, List.foldl_nil,
        toDigitIn_digitChar last, Option.getD_some]
      omega

theorem mem_toDigits {n : Nat} {c : Char} (member : c ∈ Nat.toDigits 16 n) :
    ∃ digit < 16, c = Nat.digitChar digit := by
  induction n using Nat.strongRecOn with
  | ind n ih =>
    rw [Nat.toDigits_eq_if (by decide)] at member
    split at member
    next small => exact ⟨n, small, List.mem_singleton.mp member⟩
    next large =>
      rcases List.mem_append.mp member with early | last
      · exact ih (n / 16) (Nat.div_lt_self (by omega) (by decide)) early
      · exact ⟨n % 16, Nat.mod_lt _ (by decide), List.mem_singleton.mp last⟩

theorem toDigits_injective {left right : Nat} (same : Nat.toDigits 16 left = Nat.toDigits 16 right) :
    left = right := by
  rw [← hexValue_toDigits left, same, hexValue_toDigits]

theorem hexValue_padded (width n : Nat) : hexValue 0 (hexPadded width n) = n := by
  have zeros (count : Nat) : hexValue 0 (List.replicate count '0') = 0 := by
    induction count with
    | zero => rfl
    | succ count ih => exact ih
  have written := hexValue_toDigits n
  unfold hexValue at written zeros ⊢
  rw [hexPadded, List.leftpad, List.foldl_append, zeros, written]

theorem mem_hexPadded {width n : Nat} {c : Char} (member : c ∈ hexPadded width n) :
    ∃ digit < 16, c = Nat.digitChar digit := by
  rw [hexPadded, List.leftpad, List.mem_append] at member
  rcases member with zero | digit
  · exact ⟨0, by decide, List.eq_of_mem_replicate zero⟩
  · exact mem_toDigits digit

theorem length_hexPadded {width n : Nat} (some : 0 < width) (small : n < 16 ^ width) :
    (hexPadded width n).length = width := by
  have short := (Nat.length_toDigits_le_iff (by decide) some).mpr small
  rw [hexPadded, List.leftpad, List.length_append, List.length_replicate]
  omega

end Text
