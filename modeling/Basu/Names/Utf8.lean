import Basu.Names
import Basu.Signature

/-! `utf8_is_valid` accepts the texts of `utf8.c` and nothing else, and reads nothing behind the NUL
of its string. -/

namespace Basu
open Lib

def Noncharacter (c : Char) : Prop :=
  0xfdd0 ≤ c.toNat ∧ c.toNat ≤ 0xfdef ∨ 0xfffe ≤ c.toNat % 0x10000

def Utf8Text (s : Str) : Prop :=
  ∃ cs : List Char, (∀ c ∈ cs, ¬Noncharacter c) ∧ s = cs.flatMap String.utf8EncodeChar

/-- `str[i]`; there is nothing to read behind the NUL. -/
def readChar (s : Str) (i : Nat) : Option UInt8 := if i ≤ s.length then some (charAt s i) else none

def readHighBits (s : Str) (p : Nat) : List Nat → Option Bool
  | [] => some true
  | i :: is =>
    match readChar s (p + i) with
    | none => none
    | some c => if c &&& 0x80 = 0x80 then readHighBits s p is else some false

def readContinue (s : Str) (p : Nat) : Nat → List Nat → Option (Option Nat)
  | unichar, [] => some (some unichar)
  | unichar, i :: is =>
    match readChar s (p + i) with
    | none => none
    | some c =>
      if c &&& 0xc0 = 0x80 then readContinue s p (unichar * 64 + (c &&& 0x3f).toNat) is
      else some none

def readUnichar (s : Str) (p len : Nat) : Option (Option Nat) :=
  match readChar s p with
  | none => none
  | some c => readContinue s p (utf8FirstBits len c) ((List.range len).drop 1)

def readValidUnichar (s : Str) (p : Nat) : Option (Option Nat) :=
  match readChar s p with
  | none => none
  | some c =>
    let len := utf8EncodedExpectedLen c
    if len = 0 then some none
    else if len = 1 then some (some 1)
    else
      match readHighBits s p (List.range len) with
      | none => none
      | some false => some none
      | some true =>
        match readUnichar s p len with
        | none => none
        | some none => some none
        | some (some unichar) =>
          some (if utf8UnicharToEncodedLen unichar = len && unicharIsValid unichar then some len
            else none)

/-- `utf8_is_valid` with its reads: nothing if one of them is behind the NUL. -/
def readValid (s : Str) : Nat → Nat → Option Bool
  | 0, _ => some false
  | fuel + 1, p =>
    match readChar s p with
    | none => none
    | some c =>
      if c = 0 then some true
      else
        match readValidUnichar s p with
        | none => none
        | some none => some false
        | some (some len) => readValid s fuel (p + len)

def tailBytes : Nat → Nat → Str
  | 0, _ => []
  | n + 1, v => (0x80 + v / 64 ^ n % 64).toUInt8 :: tailBytes n v

theorem and_mask (x n k : Nat) : x &&& ((2 ^ n - 1) <<< k) = x / 2 ^ k % 2 ^ n * 2 ^ k := by
  have hshift : x &&& ((2 ^ n - 1) <<< k) = ((x >>> k) &&& (2 ^ n - 1)) <<< k := by
    refine Nat.eq_of_testBit_eq fun i => ?_
    rw [Nat.testBit_and, Nat.testBit_shiftLeft, Nat.testBit_shiftLeft, Nat.testBit_and,
      Nat.testBit_shiftRight]
    by_cases hi : k ≤ i
    · rw [Nat.add_sub_cancel' hi, decide_eq_true hi, Bool.true_and, Bool.true_and]
    · rw [decide_eq_false hi, Bool.false_and, Bool.and_false, Bool.false_and]
  rw [hshift, Nat.and_two_pow_sub_one_eq_mod, Nat.shiftLeft_eq, Nat.shiftRight_eq_div_pow]

theorem mask_iff {c m b : UInt8} (n k : Nat) (hm : m.toNat = (2 ^ n - 1) <<< k) :
    c &&& m = b ↔ c.toNat / 2 ^ k % 2 ^ n * 2 ^ k = b.toNat := by
  rw [← UInt8.toNat_inj, UInt8.toNat_and, hm, and_mask]

theorem low_mask {c m : UInt8} (n : Nat) (hm : m.toNat = 2 ^ n - 1) :
    (c &&& m).toNat = c.toNat % 2 ^ n := by
  rw [UInt8.toNat_and, hm, Nat.and_two_pow_sub_one_eq_mod]

theorem continuation_iff (c : UInt8) : c &&& 0xc0 = 0x80 ↔ c.toNat / 64 = 2 := by
  have hc := c.toNat_lt
  rw [mask_iff 2 6 rfl]
  change c.toNat / 64 % 4 * 64 = 128 ↔ _
  omega

theorem low_bits (c : UInt8) : (c &&& 0x3f).toNat = c.toNat % 64 := low_mask 6 rfl

theorem high_bit_iff (c : UInt8) : c &&& 0x80 = 0x80 ↔ 128 ≤ c.toNat := by
  have hc := c.toNat_lt
  rw [mask_iff 1 7 rfl]
  change c.toNat / 128 % 2 * 128 = 128 ↔ _
  omega

theorem tail_byte_toNat (v : Nat) : ((0x80 + v % 64).toUInt8).toNat = 0x80 + v % 64 := by
  rw [Nat.toUInt8, UInt8.toNat_ofNat']
  omega

theorem utf8Continue_iff {cs : Str} {u v : Nat} :
    utf8Continue u cs = some v ↔ v / 64 ^ cs.length = u ∧ cs = tailBytes cs.length v := by
  induction cs generalizing u with
  | nil =>
    rw [utf8Continue, Option.some_inj, List.length_nil, Nat.pow_zero, Nat.div_one, eq_comm]
    exact (and_iff_left rfl).symm
  | cons c cs ih =>
    have hpow : v / 64 ^ (cs.length + 1) = v / 64 ^ cs.length / 64 := by
      rw [Nat.pow_succ, Nat.div_div_eq_div_mul]
    have hlt := c.toNat_lt
    rw [utf8Continue, low_bits, List.length_cons, tailBytes, List.cons.injEq, hpow]
    constructor
    · intro h
      split at h
      · next hc =>
        rw [continuation_iff] at hc
        obtain ⟨hv, hcs⟩ := ih.mp h
        refine ⟨by omega, ?_, hcs⟩
        rw [← UInt8.toNat_inj, tail_byte_toNat]
        omega
      · cases h
    · rintro ⟨hv, hc, hcs⟩
      have hcNat := congrArg UInt8.toNat hc
      rw [tail_byte_toNat] at hcNat
      rw [if_pos ((continuation_iff c).mpr (by omega))]
      exact ih.mpr ⟨by omega, hcs⟩

theorem high_of_mem_tailBytes : ∀ {n v : Nat} {c : UInt8}, c ∈ tailBytes n v → c &&& 0x80 = 0x80
  | n + 1, v, c, h => by
    obtain rfl | h := List.mem_cons.mp h
    · rw [high_bit_iff, tail_byte_toNat]
      omega
    · exact high_of_mem_tailBytes h

theorem length_tailBytes : ∀ n v : Nat, (tailBytes n v).length = n
  | 0, _ => rfl
  | n + 1, v => congrArg (· + 1) (length_tailBytes n v)

def leadMark : Nat → Nat
  | 2 => 0xc0
  | 3 => 0xe0
  | _ => 0xf0

def encoded (len v : Nat) : Str :=
  (leadMark len + v / 64 ^ (len - 1)).toUInt8 :: tailBytes (len - 1) v

theorem utf8EncodedExpectedLen_eq (c : UInt8) : utf8EncodedExpectedLen c =
    if c.toNat < 128 then 1
    else if c.toNat / 32 = 6 then 2
    else if c.toNat / 16 = 14 then 3
    else if c.toNat / 8 = 30 then 4
    else if c.toNat / 4 = 62 then 5
    else if c.toNat / 2 = 126 then 6
    else 0 := by
  have hc := c.toNat_lt
  have h1 : c < 0x80 ↔ c.toNat < 128 := UInt8.lt_iff_toNat_lt
  have h2 : c &&& 0xe0 = 0xc0 ↔ c.toNat / 32 = 6 := by
    rw [mask_iff 3 5 rfl]
    change c.toNat / 32 % 8 * 32 = 192 ↔ _
    omega
  have h3 : c &&& 0xf0 = 0xe0 ↔ c.toNat / 16 = 14 := by
    rw [mask_iff 4 4 rfl]
    change c.toNat / 16 % 16 * 16 = 224 ↔ _
    omega
  have h4 : c &&& 0xf8 = 0xf0 ↔ c.toNat / 8 = 30 := by
    rw [mask_iff 5 3 rfl]
    change c.toNat / 8 % 32 * 8 = 240 ↔ _
    omega
  have h5 : c &&& 0xfc = 0xf8 ↔ c.toNat / 4 = 62 := by
    rw [mask_iff 6 2 rfl]
    change c.toNat / 4 % 64 * 4 = 248 ↔ _
    omega
  have h6 : c &&& 0xfe = 0xfc ↔ c.toNat / 2 = 126 := by
    rw [mask_iff 7 1 rfl]
    change c.toNat / 2 % 128 * 2 = 252 ↔ _
    omega
  simp only [utf8EncodedExpectedLen, h1, h2, h3, h4, h5, h6]

theorem utf8FirstBits_eq (c : UInt8) : utf8FirstBits 2 c = c.toNat % 32 ∧
    utf8FirstBits 3 c = c.toNat % 16 ∧ utf8FirstBits 4 c = c.toNat % 8 :=
  ⟨low_mask 5 rfl, low_mask 4 rfl, low_mask 3 rfl⟩

theorem high_bits_of_expected {c : UInt8} {len : Nat} (h : utf8EncodedExpectedLen c = len) :
    (len = 2 → c.toNat / 32 = 6) ∧ (len = 3 → c.toNat / 16 = 14) ∧
      (len = 4 → c.toNat / 8 = 30) := by
  rw [utf8EncodedExpectedLen_eq] at h
  subst h
  split_ifs <;> simp [*]

theorem lead_toNat {c : UInt8} {len : Nat} (hlen : 2 ≤ len ∧ len ≤ 4)
    (h : utf8EncodedExpectedLen c = len) : c.toNat = leadMark len + utf8FirstBits len c := by
  obtain ⟨h2, h3, h4⟩ := utf8FirstBits_eq c
  obtain ⟨hc2, hc3, hc4⟩ := high_bits_of_expected h
  obtain rfl | rfl | rfl : len = 2 ∨ len = 3 ∨ len = 4 := by omega
  · rw [h2]
    have hc := hc2 rfl
    change c.toNat = 192 + c.toNat % 32
    omega
  · rw [h3]
    have hc := hc3 rfl
    change c.toNat = 224 + c.toNat % 16
    omega
  · rw [h4]
    have hc := hc4 rfl
    change c.toNat = 240 + c.toNat % 8
    omega

def capacity : Nat → Nat
  | 2 => 0x800
  | 3 => 0x10000
  | _ => 0x200000

theorem lead_byte {len v : Nat} (hlen : 2 ≤ len ∧ len ≤ 4) (hv : v < capacity len) :
    utf8EncodedExpectedLen (leadMark len + v / 64 ^ (len - 1)).toUInt8 = len ∧
      utf8FirstBits len (leadMark len + v / 64 ^ (len - 1)).toUInt8 = v / 64 ^ (len - 1) := by
  have hlead : ∀ x < 256, x.toUInt8.toNat = x := fun x hx => by
    rw [Nat.toUInt8, UInt8.toNat_ofNat', Nat.mod_eq_of_lt hx]
  obtain rfl | rfl | rfl : len = 2 ∨ len = 3 ∨ len = 4 := by omega
  · have hx : v / 64 ^ 1 < 32 := by rw [capacity] at hv; omega
    have hc : (leadMark 2 + v / 64 ^ 1).toUInt8.toNat = 192 + v / 64 ^ 1 :=
      hlead (192 + v / 64 ^ 1) (by omega)
    refine ⟨?_, (utf8FirstBits_eq _).1.trans ?_⟩
    · rw [utf8EncodedExpectedLen_eq, hc, if_neg (by omega), if_pos (by omega)]
    · rw [hc]
      omega
  · have hx : v / 64 ^ 2 < 16 := by rw [capacity] at hv; omega
    have hc : (leadMark 3 + v / 64 ^ 2).toUInt8.toNat = 224 + v / 64 ^ 2 :=
      hlead (224 + v / 64 ^ 2) (by omega)
    refine ⟨?_, (utf8FirstBits_eq _).2.1.trans ?_⟩
    · rw [utf8EncodedExpectedLen_eq, hc, if_neg (by omega), if_neg (by omega), if_pos (by omega)]
    · rw [hc]
      omega
  · have hx : v / 64 ^ 3 < 8 := by change v < 0x200000 at hv; omega
    have hc : (leadMark 4 + v / 64 ^ 3).toUInt8.toNat = 240 + v / 64 ^ 3 :=
      hlead (240 + v / 64 ^ 3) (by omega)
    refine ⟨?_, (utf8FirstBits_eq _).2.2.trans ?_⟩
    · rw [utf8EncodedExpectedLen_eq, hc, if_neg (by omega), if_neg (by omega), if_neg (by omega),
        if_pos (by omega)]
    · rw [hc]
      omega

theorem unicharIsValid_iff {v : Nat} : unicharIsValid v = true ↔
    v < 0x110000 ∧ ¬(0xd800 ≤ v ∧ v < 0xe000) ∧ ¬(0xfdd0 ≤ v ∧ v ≤ 0xfdef) ∧
      v % 0x10000 < 0xfffe := by
  have hsurrogate : v &&& 0xfffff800 = v / 2 ^ 11 % 2 ^ 21 * 2 ^ 11 := and_mask v 21 11
  have hlast : v &&& 0xfffe = v / 2 ^ 1 % 2 ^ 15 * 2 ^ 1 := and_mask v 15 1
  rw [unicharIsValid, hsurrogate, hlast]
  simp only [Bool.and_eq_true, Bool.not_eq_true', decide_eq_false_iff_not, Bool.and_eq_false_iff]
  omega

def shortest (v : Nat) : Str :=
  if v < 0x80 then [v.toUInt8] else encoded (utf8UnicharToEncodedLen v) v

theorem utf8EncodeChar_eq (c : Char) : String.utf8EncodeChar c = shortest c.toNat := by
  have hvalid : c.toNat < 0x110000 := by
    obtain h | h := c.valid
    · exact lt_trans h (by decide)
    · exact h.2
  have hsize : c.val.toNat = c.toNat := rfl
  rw [String.utf8EncodeChar, shortest, utf8UnicharToEncodedLen]
  simp only [hsize]
  generalize c.toNat = v at hvalid
  by_cases h1 : v < 0x80
  · rw [if_pos (show v ≤ 0x7f by omega), if_pos h1]
  rw [if_neg (show ¬v ≤ 0x7f by omega), if_neg h1, if_neg h1]
  by_cases h2 : v < 0x800
  · rw [if_pos (show v ≤ 0x7ff by omega), if_pos h2]
    change [_, _] = [(0xc0 + v / 64 ^ 1).toUInt8, (0x80 + v / 64 ^ 0 % 64).toUInt8]
    rw [show 0xc0 + v / 64 ^ 1 = v / 64 % 0x20 + 0xc0 by omega,
      show 0x80 + v / 64 ^ 0 % 64 = v % 0x40 + 0x80 by omega]
  rw [if_neg (show ¬v ≤ 0x7ff by omega), if_neg h2]
  by_cases h3 : v < 0x10000
  · rw [if_pos (show v ≤ 0xffff by omega), if_pos h3]
    change [_, _, _] = [(0xe0 + v / 64 ^ 2).toUInt8, (0x80 + v / 64 ^ 1 % 64).toUInt8,
      (0x80 + v / 64 ^ 0 % 64).toUInt8]
    rw [show 0xe0 + v / 64 ^ 2 = v / 4096 % 0x10 + 0xe0 by omega,
      show 0x80 + v / 64 ^ 1 % 64 = v / 64 % 0x40 + 0x80 by omega,
      show 0x80 + v / 64 ^ 0 % 64 = v % 0x40 + 0x80 by omega]
  · rw [if_neg (show ¬v ≤ 0xffff by omega), if_neg h3, if_pos (show v < 0x200000 by omega)]
    change [_, _, _, _] = [(0xf0 + v / 64 ^ 3).toUInt8, (0x80 + v / 64 ^ 2 % 64).toUInt8,
      (0x80 + v / 64 ^ 1 % 64).toUInt8, (0x80 + v / 64 ^ 0 % 64).toUInt8]
    rw [show 0xf0 + v / 64 ^ 3 = v / 262144 % 0x08 + 0xf0 by omega,
      show 0x80 + v / 64 ^ 2 % 64 = v / 4096 % 0x40 + 0x80 by omega,
      show 0x80 + v / 64 ^ 1 % 64 = v / 64 % 0x40 + 0x80 by omega,
      show 0x80 + v / 64 ^ 0 % 64 = v % 0x40 + 0x80 by omega]

theorem valid_toNat_iff (c : Char) : unicharIsValid c.toNat = true ↔ ¬Noncharacter c := by
  have hchar : c.toNat < 0xd800 ∨ 0xdfff < c.toNat ∧ c.toNat < 0x110000 := c.valid
  rw [unicharIsValid_iff, Noncharacter]
  omega

theorem toNat_ofNat {v : Nat} (h : unicharIsValid v = true) : (Char.ofNat v).toNat = v := by
  rw [unicharIsValid_iff] at h
  have hvalid : v.isValidChar := by
    rw [Nat.isValidChar]
    omega
  rw [Char.ofNat, dif_pos hvalid]
  rfl

theorem map_range_charAt (bytes rest : Str) :
    (List.range bytes.length).map (charAt (bytes ++ rest)) = bytes := by
  refine List.ext_getElem (by rw [List.length_map, List.length_range]) fun i h₁ h₂ => ?_
  rw [List.getElem_map, List.getElem_range, charAt, List.getD_eq_getElem?_getD,
    List.getElem?_append_left h₂, List.getElem?_eq_getElem h₂, Option.getD_some]

theorem encodedLen_spec {v : Nat} (hv : v < 0x110000) (h : ¬v < 0x80) :
    (2 ≤ utf8UnicharToEncodedLen v ∧ utf8UnicharToEncodedLen v ≤ 4) ∧
      v < capacity (utf8UnicharToEncodedLen v) := by
  rw [utf8UnicharToEncodedLen, if_neg h]
  split
  · next h2 => exact ⟨by omega, h2⟩
  · split
    · next h3 => exact ⟨by omega, h3⟩
    · rw [if_pos (show v < 0x200000 by omega)]
      exact ⟨by omega, show v < 0x200000 by omega⟩

theorem length_shortest {v : Nat} (hv : v < 0x110000) :
    (shortest v).length = utf8UnicharToEncodedLen v := by
  rw [shortest]
  split
  · next h => rw [utf8UnicharToEncodedLen, if_pos h, List.length_singleton]
  · next h =>
    have hlen := (encodedLen_spec hv h).1
    rw [encoded, List.length_cons, length_tailBytes]
    omega

theorem high_of_expected {c : UInt8} {len : Nat} (h : utf8EncodedExpectedLen c = len)
    (hlen : 2 ≤ len) : c &&& 0x80 = 0x80 := by
  rw [utf8EncodedExpectedLen_eq] at h
  rw [high_bit_iff]
  split_ifs at h <;> omega

theorem ascii_of_expected {c : UInt8} (h : utf8EncodedExpectedLen c = 1) : c.toNat < 0x80 := by
  rw [utf8EncodedExpectedLen_eq] at h
  split_ifs at h <;> omega

theorem valid_of_ascii {v : Nat} (h : v < 0x80) : unicharIsValid v = true := by
  rw [unicharIsValid_iff]
  omega

theorem utf8EncodedValidUnichar_of_shortest {v : Nat} (hv : unicharIsValid v = true) (rest : Str) :
    utf8EncodedValidUnichar (shortest v ++ rest) = some (shortest v).length := by
  have hlt : v < 0x110000 := (unicharIsValid_iff.mp hv).1
  by_cases h : v < 0x80
  · have hone : utf8EncodedExpectedLen v.toUInt8 = 1 := by
      rw [utf8EncodedExpectedLen_eq, Nat.toUInt8, UInt8.toNat_ofNat', if_pos (by omega)]
    rw [shortest, if_pos h, utf8EncodedValidUnichar, List.singleton_append, charAt_cons_zero,
      hone]
    rfl
  · obtain ⟨hlen, hcap⟩ := encodedLen_spec hlt h
    have hshort : shortest v = encoded (utf8UnicharToEncodedLen v) v := if_neg h
    obtain ⟨hexpected, hbits⟩ := lead_byte hlen hcap
    have hmap := map_range_charAt (shortest v) rest
    rw [length_shortest hlt] at hmap ⊢
    have hhead : charAt (shortest v ++ rest) 0 =
        (leadMark (utf8UnicharToEncodedLen v) +
          v / 64 ^ (utf8UnicharToEncodedLen v - 1)).toUInt8 := by
      rw [hshort]
      rfl
    generalize hL : utf8UnicharToEncodedLen v = len at *
    have hhigh : ((shortest v).all fun c => c &&& 0x80 = 0x80) = true := by
      rw [hshort, encoded, List.all_eq_true]
      intro c hc
      refine decide_eq_true ?_
      obtain rfl | hc := List.mem_cons.mp hc
      · exact high_of_expected hexpected hlen.1
      · exact high_of_mem_tailBytes hc
    have hcontinue : utf8Continue (v / 64 ^ (len - 1)) ((shortest v).drop 1) = some v := by
      rw [hshort, encoded, List.drop_one, List.tail_cons, utf8Continue_iff, length_tailBytes]
      exact ⟨rfl, rfl⟩
    rw [utf8EncodedValidUnichar, hhead]
    simp only
    rw [hexpected, hbits, hmap, if_neg (by omega), if_neg (by omega), if_pos hhigh, hcontinue]
    simp only
    rw [hL, hv]
    simp

theorem take_of_high {p : Str} {len : Nat}
    (h : (((List.range len).map (charAt p)).all fun c => c &&& 0x80 = 0x80) = true) :
    len ≤ p.length ∧ (List.range len).map (charAt p) = p.take len := by
  have hread : ∀ i < len, i < p.length := by
    intro i hi
    refine lt_length_of_charAt_ne fun h0 => ?_
    have hone := List.all_eq_true.mp h _ (List.mem_map_of_mem (List.mem_range.mpr hi))
    rw [h0] at hone
    exact absurd hone (by decide)
  have hle : len ≤ p.length := by
    by_contra hgt
    exact absurd (hread p.length (by omega)) (lt_irrefl _)
  have hmap := map_range_charAt (p.take len) (p.drop len)
  rw [List.take_append_drop, List.length_take, min_eq_left hle] at hmap
  exact ⟨hle, hmap⟩

theorem shortest_of_continue {c : UInt8} {p : Str} {v : Nat} (hvalid : unicharIsValid v = true)
    (hsize : utf8EncodedExpectedLen c = utf8UnicharToEncodedLen v)
    (h1 : utf8EncodedExpectedLen c ≠ 1) (hle : utf8EncodedExpectedLen c ≤ (c :: p).length)
    (h : utf8Continue (utf8FirstBits (utf8EncodedExpectedLen c) c)
      (((c :: p).take (utf8EncodedExpectedLen c)).drop 1) = some v) :
    shortest v = (c :: p).take (utf8EncodedExpectedLen c) := by
  have hlarge : ¬v < 0x80 := by
    intro hlt
    rw [utf8UnicharToEncodedLen, if_pos hlt] at hsize
    exact h1 hsize
  have hlen := (encodedLen_spec (unicharIsValid_iff.mp hvalid).1 hlarge).1
  have hlead := lead_toNat (hsize.symm ▸ hlen) rfl
  rw [shortest, if_neg hlarge, encoded, ← hsize]
  rw [← hsize] at hlen
  generalize utf8EncodedExpectedLen c = len at *
  obtain ⟨n, rfl⟩ : ∃ n, len = n + 1 := Nat.exists_eq_succ_of_ne_zero (by omega)
  rw [List.length_cons] at hle
  rw [List.take_succ_cons, List.drop_one, List.tail_cons, utf8Continue_iff, List.length_take,
    min_eq_left (by omega)] at h
  rw [Nat.add_sub_cancel, h.1, ← hlead, ← h.2, List.take_succ_cons]
  exact congrArg (· :: _) UInt8.ofNat_toNat

theorem shortest_of_utf8EncodedValidUnichar {p : Str} (hp : charAt p 0 ≠ 0) {len : Nat}
    (h : utf8EncodedValidUnichar p = some len) :
    ∃ v rest, unicharIsValid v = true ∧ p = shortest v ++ rest ∧ len = (shortest v).length := by
  obtain ⟨c, p, rfl⟩ := List.exists_cons_of_length_pos (lt_length_of_charAt_ne hp)
  rw [utf8EncodedValidUnichar, charAt_cons_zero] at h
  simp only at h
  split at h
  · cases h
  · split at h
    · next h1 =>
      obtain rfl := Option.some.inj h
      have hlt := ascii_of_expected h1
      have hshort : shortest c.toNat = [c] := by
        rw [shortest, if_pos hlt]
        exact congrArg (fun c => [c]) UInt8.ofNat_toNat
      exact ⟨c.toNat, p, valid_of_ascii hlt, by rw [hshort]; rfl, by rw [hshort]; rfl⟩
    · next h1 =>
      split at h
      · next hhigh =>
        split at h
        · cases h
        · next v hcontinue =>
          split at h
          · next hv =>
            obtain ⟨hsize, hvalid⟩ := Bool.and_eq_true_iff.mp hv
            have hsize := (of_decide_eq_true hsize).symm
            obtain rfl := Option.some.inj h
            obtain ⟨hle, htake⟩ := take_of_high hhigh
            rw [htake] at hcontinue
            have hshort := shortest_of_continue hvalid hsize h1 hle hcontinue
            refine ⟨v, (c :: p).drop (utf8EncodedExpectedLen c), hvalid, ?_, ?_⟩
            · rw [hshort, List.take_append_drop]
            · rw [length_shortest (unicharIsValid_iff.mp hvalid).1, hsize]
          · cases h
      · cases h

theorem shortest_ne_nil (v : Nat) : shortest v ≠ [] := by
  rw [shortest]
  split
  · exact List.cons_ne_nil _ _
  · exact List.cons_ne_nil _ _

def ValidText (s : Str) : Prop :=
  ∃ vs : List Nat, (∀ v ∈ vs, unicharIsValid v = true) ∧ s = vs.flatMap shortest

theorem utf8Text_iff {s : Str} : Utf8Text s ↔ ValidText s := by
  constructor
  · rintro ⟨cs, hcs, rfl⟩
    refine ⟨cs.map Char.toNat, fun v hv => ?_, ?_⟩
    · obtain ⟨c, hc, rfl⟩ := List.mem_map.mp hv
      exact (valid_toNat_iff c).mpr (hcs c hc)
    · rw [List.flatMap_map]
      exact congrArg (cs.flatMap ·) (funext utf8EncodeChar_eq)
  · rintro ⟨vs, hvs, rfl⟩
    refine ⟨vs.map Char.ofNat, fun c hc => ?_, ?_⟩
    · obtain ⟨v, hv, rfl⟩ := List.mem_map.mp hc
      rw [← valid_toNat_iff, toNat_ofNat (hvs v hv)]
      exact hvs v hv
    · rw [List.flatMap_map]
      refine List.flatMap_congr fun v hv => ?_
      rw [utf8EncodeChar_eq, toNat_ofNat (hvs v hv)]

theorem utf8IsValidLoop_iff {fuel : Nat} : ∀ {s : Str}, (0 : UInt8) ∉ s → s.length < fuel →
    (utf8IsValidLoop fuel s = true ↔ ValidText s) := by
  induction fuel with
  | zero => exact fun _ h => absurd h (Nat.not_lt_zero _)
  | succ fuel ih =>
    intro s h0 hfuel
    rw [utf8IsValidLoop]
    by_cases hend : charAt s 0 = 0
    · obtain rfl : s = [] :=
        List.length_eq_zero_iff.mp ((charAt_eq_zero_iff h0 (Nat.zero_le _)).mp hend).symm
      rw [if_pos hend]
      exact iff_of_true rfl ⟨[], nofun, rfl⟩
    · rw [if_neg hend]
      have hrest : ∀ {v : Nat} {rest : Str}, s = shortest v ++ rest →
          (utf8IsValidLoop fuel rest = true ↔ ValidText rest) := by
        rintro v rest rfl
        refine ih (fun h => h0 (List.mem_append_right _ h)) ?_
        have hpos := List.length_pos_of_ne_nil (shortest_ne_nil v)
        rw [List.length_append] at hfuel
        omega
      constructor
      · intro h
        split at h
        · exact absurd h nofun
        · next len hlen =>
          obtain ⟨v, rest, hv, hs, rfl⟩ := shortest_of_utf8EncodedValidUnichar hend hlen
          rw [hs, List.drop_left, hrest hs] at h
          obtain ⟨vs, hvs, rfl⟩ := h
          exact ⟨v :: vs, List.forall_mem_cons.mpr ⟨hv, hvs⟩, hs⟩
      · rintro ⟨vs, hvs, hs⟩
        cases vs with
        | nil => exact absurd (hs ▸ rfl) hend
        | cons v vs =>
          rw [List.flatMap_cons] at hs
          obtain ⟨hv, hvs⟩ := List.forall_mem_cons.mp hvs
          rw [hs, utf8EncodedValidUnichar_of_shortest hv]
          simp only
          rw [List.drop_left, hrest hs]
          exact ⟨vs, hvs, rfl⟩

section
variable {s : Str}

theorem readChar_of_le {i : Nat} (h : i ≤ s.length) : readChar s i = some (charAt s i) := if_pos h

theorem lt_length_of_high {i : Nat} (h : charAt s i &&& 0x80 = 0x80) : i < s.length :=
  lt_length_of_charAt_ne fun h0 => absurd (h0 ▸ h) (by decide)

theorem readHighBits_range {p : Nat} (n : Nat) : ∀ i, p + i ≤ s.length →
    readHighBits s p (List.range' i n) =
      some (((List.range' i n).map (charAt (s.drop p))).all fun c => c &&& 0x80 = 0x80) := by
  induction n with
  | zero => exact fun _ _ => rfl
  | succ n ih =>
    intro i hi
    rw [List.range'_succ, readHighBits, readChar_of_le hi, List.map_cons, List.all_cons,
      charAt_drop_add]
    simp only
    split
    · next hc =>
      rw [ih (i + 1) (lt_length_of_high hc), decide_eq_true hc, Bool.true_and]
    · next hc => rw [decide_eq_false hc, Bool.false_and]

theorem readContinue_eq {p : Nat} : ∀ {is : List Nat} {u : Nat}, (∀ i ∈ is, p + i ≤ s.length) →
    readContinue s p u is = some (utf8Continue u (is.map (charAt (s.drop p))))
  | [], _, _ => rfl
  | i :: is, u, h => by
    rw [readContinue, readChar_of_le (h i List.mem_cons_self), List.map_cons, utf8Continue,
      charAt_drop_add]
    simp only
    split
    · exact readContinue_eq fun i hi => h i (List.mem_cons_of_mem _ hi)
    · rfl

theorem readValidUnichar_eq {p : Nat} (h : p ≤ s.length) :
    readValidUnichar s p = some (utf8EncodedValidUnichar (s.drop p)) := by
  have hhead : charAt (s.drop p) 0 = charAt s p := charAt_drop_add s p 0
  rw [readValidUnichar, readChar_of_le h, utf8EncodedValidUnichar, hhead]
  simp only
  split
  · rfl
  · split
    · rfl
    · rw [List.range_eq_range', readHighBits_range _ 0 h, ← List.range_eq_range']
      cases hhigh : ((List.range (utf8EncodedExpectedLen (charAt s p))).map
          (charAt (s.drop p))).all fun c => c &&& 0x80 = 0x80 with
      | false => rfl
      | true =>
        have hle := (take_of_high hhigh).1
        have hread : ∀ i ∈ (List.range (utf8EncodedExpectedLen (charAt s p))).drop 1,
            p + i ≤ s.length := by
          intro i hi
          have hlt := List.mem_range.mp ((List.drop_sublist _ _).subset hi)
          rw [List.length_drop] at hle
          omega
        rw [if_pos rfl]
        simp only
        rw [readUnichar, readChar_of_le h]
        simp only
        rw [readContinue_eq hread, List.map_drop]
        cases utf8Continue (utf8FirstBits (utf8EncodedExpectedLen (charAt s p)) (charAt s p))
            (((List.range (utf8EncodedExpectedLen (charAt s p))).map
              (charAt (s.drop p))).drop 1) with
        | none => rfl
        | some unichar => rfl

theorem readValid_eq {fuel : Nat} : ∀ {p : Nat}, p ≤ s.length →
    readValid s fuel p = some (utf8IsValidLoop fuel (s.drop p)) := by
  induction fuel with
  | zero => exact fun _ => rfl
  | succ fuel ih =>
    intro p hp
    have hhead : charAt (s.drop p) 0 = charAt s p := charAt_drop_add s p 0
    rw [readValid, readChar_of_le hp, utf8IsValidLoop, hhead]
    simp only
    split
    · rfl
    · next hend =>
      rw [readValidUnichar_eq hp]
      cases hlen : utf8EncodedValidUnichar (s.drop p) with
      | none => rfl
      | some len =>
        obtain ⟨v, rest, -, hs, rfl⟩ :=
          shortest_of_utf8EncodedValidUnichar (hhead ▸ hend) hlen
        have hlength := congrArg List.length hs
        rw [List.length_drop, List.length_append] at hlength
        simp only
        rw [List.drop_drop]
        exact ih (by omega)

end

/-- The string is never left, and exactly the texts are accepted. -/
theorem utf8IsValid_exact {s : Str} (h0 : (0 : UInt8) ∉ s) :
    readValid s (s.length + 1) 0 = some (utf8IsValid s) ∧ (utf8IsValid s = true ↔ Utf8Text s) := by
  refine ⟨readValid_eq (Nat.zero_le _), ?_⟩
  rw [utf8Text_iff]
  exact utf8IsValidLoop_iff h0 (Nat.lt_succ_self _)

theorem utf8IsValid_exact_cut :
    readValid [0x61, 0xf0, 0x9f] 4 0 = some (utf8IsValid [0x61, 0xf0, 0x9f]) ∧
      (utf8IsValid [0x61, 0xf0, 0x9f] = true ↔ Utf8Text [0x61, 0xf0, 0x9f]) :=
  utf8IsValid_exact (by decide)

end Basu
