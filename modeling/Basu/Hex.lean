import Basu.Type

/-! Hexadecimal digits (`hexdecoct.c`), and that a byte comes back from the two digits written for
it. -/

namespace Basu
open Lib

def unhexchar (c : UInt8) : Option UInt8 :=
  if 48 ≤ c ∧ c ≤ 57 then some (c - 48)
  else if 97 ≤ c ∧ c ≤ 102 then some (c - 97 + 10)
  else if 65 ≤ c ∧ c ≤ 70 then some (c - 65 + 10)
  else none

def hexchar (x : UInt8) : UInt8 := if x < 10 then x + 48 else x - 10 + 97

def hexPair (b : UInt8) : Bytes := [hexchar (b >>> 4), hexchar (b &&& 15)]

theorem unhexchar_hexchar {x : UInt8} (h : x < 16) : unhexchar (hexchar x) = some x := by
  unfold unhexchar hexchar
  grind

theorem shiftRight_four_lt (b : UInt8) : b >>> 4 < 16 := by
  rw [UInt8.lt_iff_toNat_lt, UInt8.toNat_shiftRight]
  have hb := b.toNat_lt
  change b.toNat >>> 4 < 16
  rw [Nat.shiftRight_eq_div_pow]
  omega

theorem and_fifteen_lt (b : UInt8) : b &&& 15 < 16 := by
  rw [UInt8.lt_iff_toNat_lt, UInt8.toNat_and]
  exact Nat.lt_of_le_of_lt Nat.and_le_right (by decide)

theorem nibbles (b : UInt8) : (b >>> 4) <<< 4 ||| (b &&& 15) = b := by
  have hb := b.toNat_lt
  have hdigit : b.toNat % 16 < 2 ^ 4 := Nat.mod_lt _ (by decide)
  have hand : b.toNat &&& 15 = b.toNat % 16 := Nat.and_two_pow_sub_one_eq_mod b.toNat 4
  rw [← UInt8.toNat_inj, UInt8.toNat_or, UInt8.toNat_shiftLeft, UInt8.toNat_shiftRight,
    UInt8.toNat_and]
  change (b.toNat >>> 4) <<< 4 % 256 ||| (b.toNat &&& 15) = b.toNat
  rw [hand, Nat.shiftRight_eq_div_pow, Nat.shiftLeft_eq, Nat.mod_eq_of_lt (by omega),
    ← Nat.shiftLeft_eq, ← Nat.shiftLeft_add_eq_or_of_lt hdigit, Nat.shiftLeft_eq]
  omega

end Basu
