import Basu.Lib.SipHash
import Basu.Socket.Size

/-! `siphash24.c`: the bytes that do not fill a word yet wait in the state, so that it makes no
difference in which pieces a text is fed. -/

namespace Basu.Hash
open Lib Lib.SipHash

/-! ## `siphash24.c` -/

structure Siphash extends Words where
  padding : UInt64
  inlen : Nat
  deriving DecidableEq

def rotateLeft (x b : UInt64) : UInt64 := x <<< b ||| x >>> (64 - b)

def sipround (s : Words) : Words :=
  let v0 := s.v0 + s.v1
  let v1 := rotateLeft s.v1 13
  let v1 := v1 ^^^ v0
  let v0 := rotateLeft v0 32
  let v2 := s.v2 + s.v3
  let v3 := rotateLeft s.v3 16
  let v3 := v3 ^^^ v2
  let v0 := v0 + v3
  let v3 := rotateLeft v3 21
  let v3 := v3 ^^^ v0
  let v2 := v2 + v1
  let v1 := rotateLeft v1 17
  let v1 := v1 ^^^ v2
  let v2 := rotateLeft v2 32
  ⟨v0, v1, v2, v3⟩

def unalignedReadLe64 (p : Bytes) : UInt64 := UInt64.ofNat (getLE (p.take 8))

def siphash24Init (k : Bytes) : Siphash :=
  let k0 := unalignedReadLe64 k
  let k1 := unalignedReadLe64 (k.drop 8)
  { v0 := 0x736f6d6570736575 ^^^ k0
    v1 := 0x646f72616e646f6d ^^^ k1
    v2 := 0x6c7967656e657261 ^^^ k0
    v3 := 0x7465646279746573 ^^^ k1
    padding := 0
    inlen := 0 }

def compressWord (s : Words) (m : UInt64) : Words :=
  let s := { s with v3 := s.v3 ^^^ m }
  let s := sipround (sipround s)
  { s with v0 := s.v0 ^^^ m }

def orByte (padding : UInt64) (b : UInt8) (i : Nat) : UInt64 :=
  padding ||| b.toUInt64 <<< UInt64.ofNat (i * 8)

def fillPadding : Bytes → Nat → UInt64 → Bytes × Nat × UInt64
  | [], left, padding => ([], left, padding)
  | b :: input, left, padding =>
    if left < 8 then fillPadding input (left + 1) (orByte padding b left)
    else (b :: input, left, padding)

def compressWords : Nat → Nat → Bytes → Words → Bytes × Words
  | 0, _, input, s => (input, s)
  | fuel + 1, n, input, s =>
    if n = 0 then (input, s)
    else compressWords fuel (n - 8) (input.drop 8) (compressWord s (unalignedReadLe64 input))

def compressRest (input : Bytes) (s : Siphash) : Siphash :=
  let left := s.inlen % 8
  let (input, v) := compressWords (input.length + 1) (input.length - left) input s.toWords
  { toWords := v
    padding := (List.range left).foldr (fun i p => orByte p (input.getD i 0) i) s.padding
    inlen := s.inlen }

def siphash24Compress (z : SizeT) (s : Siphash) (input : Bytes) : Siphash :=
  let left := s.inlen % 8
  let s := { s with inlen := z.wrap (s.inlen + input.length) }
  if 0 < left then
    let (input, left, padding) := fillPadding input left s.padding
    if input = [] ∧ left < 8 then { s with padding }
    else compressRest input
      { s with
        toWords := compressWord s.toWords padding
        padding := 0 }
  else compressRest input s

def siphash24Finalize (s : Siphash) : UInt64 :=
  let b := s.padding ||| UInt64.ofNat s.inlen <<< 56
  let v := compressWord s.toWords b
  let v := { v with v2 := v.v2 ^^^ 0xff }
  let v := sipround (sipround (sipround (sipround v)))
  v.v0 ^^^ v.v1 ^^^ v.v2 ^^^ v.v3

theorem sipround_eq (v : Words) : sipround v = round v := rfl

theorem compressWord_eq (v : Words) (block : Bytes) :
    compressWord v (word block) = addBlock 2 v block := by
  rw [compressWord, sipround_eq, sipround_eq]
  rfl

theorem word_nil : word [] = 0 := rfl

theorem getLE_append (xs ys : Bytes) :
    getLE (xs ++ ys) = getLE xs + 256 ^ xs.length * getLE ys := by
  induction xs with
  | nil => rw [List.nil_append, List.length_nil, Nat.pow_zero, Nat.one_mul, getLE, Nat.zero_add]
  | cons b xs ih =>
    rw [List.cons_append, getLE, getLE, ih, List.length_cons, Nat.pow_succ, Nat.mul_add,
      Nat.add_assoc, Nat.mul_comm (256 ^ xs.length) 256, Nat.mul_assoc]

theorem orByte_eq (xs : Bytes) (b : UInt8) (h : xs.length < 8) :
    orByte (word xs) b xs.length = word (xs ++ [b]) := by
  have hxs : getLE xs < 2 ^ (xs.length * 8) := by
    have hlt := getLE_lt xs
    rwa [show 256 = 2 ^ 8 from rfl, ← Nat.pow_mul, Nat.mul_comm] at hlt
  have hb := b.toNat_lt
  have hpow : 2 ^ (xs.length * 8) ≤ 2 ^ 56 := Nat.pow_le_pow_right (by decide) (by omega)
  have hshift : b.toNat <<< (xs.length * 8) < 2 ^ 64 := by
    rw [Nat.shiftLeft_eq]
    calc b.toNat * 2 ^ (xs.length * 8) ≤ b.toNat * 2 ^ 56 := Nat.mul_le_mul_left _ hpow
      _ < 2 ^ 64 := by omega
  have hval : getLE (xs ++ [b]) = b.toNat <<< (xs.length * 8) + getLE xs := by
    rw [getLE_append, getLE, getLE, Nat.shiftLeft_eq, show 256 = 2 ^ 8 from rfl, ← Nat.pow_mul,
      Nat.mul_comm 8, Nat.mul_zero, Nat.add_zero, Nat.mul_comm b.toNat, Nat.add_comm]
  rw [← UInt64.toNat_inj, orByte, word, word, UInt64.toNat_or, UInt64.toNat_shiftLeft, hval]
  simp only [UInt64.toNat_ofNat', UInt8.toNat_toUInt64]
  rw [Nat.mod_eq_of_lt (a := xs.length * 8) (by omega), Nat.mod_eq_of_lt (a := xs.length * 8)
    (by omega), Nat.mod_eq_of_lt hshift, Nat.mod_eq_of_lt (a := getLE xs) (by omega), Nat.or_comm,
    ← Nat.shiftLeft_add_eq_or_of_lt hxs, Nat.mod_eq_of_lt]
  calc b.toNat <<< (xs.length * 8) + getLE xs
      < b.toNat * 2 ^ (xs.length * 8) + 2 ^ (xs.length * 8) := by
        rw [Nat.shiftLeft_eq]
        exact Nat.add_lt_add_left hxs _
    _ = (b.toNat + 1) * 2 ^ (xs.length * 8) := by rw [Nat.add_mul, Nat.one_mul]
    _ ≤ 256 * 2 ^ 56 := Nat.mul_le_mul (by omega) hpow

theorem fillPadding_eq (input : Bytes) : ∀ xs : Bytes, xs.length ≤ 8 →
    fillPadding input xs.length (word xs) =
      (input.drop (8 - xs.length), (xs ++ input.take (8 - xs.length)).length,
        word (xs ++ input.take (8 - xs.length))) := by
  induction input with
  | nil =>
    intro xs _
    rw [fillPadding, List.drop_nil, List.take_nil, List.append_nil]
  | cons b input ih =>
    intro xs h
    rw [fillPadding]
    split_ifs with hlt
    · have hnext := ih (xs ++ [b]) (by rw [List.length_append, List.length_singleton]; omega)
      rw [List.length_append, List.length_singleton, ← orByte_eq xs b hlt] at hnext
      rw [hnext, show 8 - xs.length = 8 - (xs.length + 1) + 1 by omega, List.drop_succ_cons,
        List.take_succ_cons, List.append_assoc]
      rfl
    · rw [show 8 - xs.length = 0 by omega, List.drop_zero, List.take_zero, List.append_nil]

theorem foldr_orByte (input : Bytes) (n : Nat) : ∀ p : UInt64, n ≤ input.length → n ≤ 8 →
    (List.range n).foldr (fun i p => orByte p (input.getD i 0) i) p = p ||| word (input.take n) := by
  induction n with
  | zero =>
    intro p _ _
    rw [List.range_zero, List.foldr_nil, List.take_zero, word_nil, UInt64.or_zero]
  | succ n ih =>
    intro p hlen h8
    have hget : input.getD n 0 = input[n] := by
      rw [List.getD_eq_getElem?_getD, List.getElem?_eq_getElem (by omega)]
      rfl
    have htake : (input.take n).length = n := List.length_take_of_le (by omega)
    have hbyte := orByte_eq (input.take n) input[n] (by omega)
    rw [List.range_succ, List.foldr_append, List.foldr_cons, List.foldr_nil,
      ih _ (by omega) (by omega), hget, List.take_succ_eq_append_getElem (by omega), ← hbyte, htake]
    rw [orByte, orByte, UInt64.or_assoc, UInt64.or_comm (word _)]

def stateOf (z : SizeT) (v : Words) (xs : Bytes) : Siphash where
  toWords := (absorb (addBlock 2) 8 v xs).1
  padding := word (absorb (addBlock 2) 8 v xs).2
  inlen := z.wrap xs.length

theorem compressWords_eq (n : Nat) : ∀ {fuel : Nat} {input : Bytes} {v : Words}, n < fuel →
    compressWords fuel (n * 8) input v =
      (input.drop (n * 8), takeBlocks (addBlock 2) 8 n v input) := by
  induction n with
  | zero =>
    intro fuel input v hfuel
    obtain ⟨fuel, rfl⟩ := Nat.exists_eq_succ_of_ne_zero (by omega : fuel ≠ 0)
    rw [Nat.zero_mul, compressWords, if_pos rfl, List.drop_zero, takeBlocks]
  | succ n ih =>
    intro fuel input v hfuel
    obtain ⟨fuel, rfl⟩ := Nat.exists_eq_succ_of_ne_zero (by omega : fuel ≠ 0)
    rw [compressWords, if_neg (by omega), Nat.succ_mul, Nat.add_sub_cancel, ih (by omega),
      List.drop_drop, Nat.add_comm 8, takeBlocks, ← compressWord_eq]
    rfl

theorem compressRest_eq {input : Bytes} {s : Siphash} (hp : s.padding = 0)
    (hlen : s.inlen % 8 = input.length % 8) :
    compressRest input s =
      { toWords := (absorb (addBlock 2) 8 s.toWords input).1
        padding := word (absorb (addBlock 2) 8 s.toWords input).2
        inlen := s.inlen } := by
  have hn : input.length - input.length % 8 = input.length / 8 * 8 := by omega
  have hrest : (absorb (addBlock 2) 8 s.toWords input).2.length = input.length % 8 :=
    length_absorb s.toWords input
  have hlt : input.length % 8 < 8 := Nat.mod_lt _ (by decide)
  rw [compressRest, hlen, hn, compressWords_eq _ (by omega)]
  dsimp only
  rw [hp, foldr_orByte _ _ _ (by rw [List.length_drop]; omega) hlt.le, UInt64.zero_or]
  rw [List.take_of_length_le (by rw [List.length_drop]; omega)]
  rfl

theorem wrap_mod_eight (z : SizeT) (n : Nat) : z.wrap n % 8 = n % 8 := by
  cases z <;> simp only [SizeT.wrap, SizeT.modulus] <;> omega

theorem siphash24Compress_eq (z : SizeT) (v : Words) (xs input : Bytes) :
    siphash24Compress z (stateOf z v xs) input = stateOf z v (xs ++ input) := by
  have hinlen : z.wrap (z.wrap xs.length + input.length) = z.wrap (xs ++ input).length := by
    rw [List.length_append]
    cases z <;> simp only [SizeT.wrap, SizeT.modulus] <;> omega
  have hlast : (absorb (addBlock 2) 8 v xs).2.length = xs.length % 8 := length_absorb v xs
  have hmod := Nat.mod_lt xs.length (by decide : 0 < 8)
  rw [siphash24Compress, stateOf, stateOf]
  dsimp only
  rw [hinlen, wrap_mod_eight, absorb_append (by decide), ← hlast]
  generalize absorb (addBlock 2) 8 v xs = w at hlast ⊢
  obtain ⟨w, l⟩ := w
  dsimp only at hlast ⊢
  by_cases hleft : 0 < l.length
  · rw [if_pos hleft, fillPadding_eq input l (by omega)]
    dsimp only
    by_cases hshort : l.length + input.length < 8
    · -- still no whole word
      have hall : input.length ≤ 8 - l.length := by omega
      have hlen : (l ++ input).length < 8 := by rwa [List.length_append]
      rw [List.drop_of_length_le hall, List.take_of_length_le hall, if_pos ⟨rfl, hlen⟩,
        absorb_of_lt hlen]
    · have htake : (l ++ input).take 8 = l ++ input.take (8 - l.length) := by
        rw [List.take_append, List.take_of_length_le (by omega)]
      have hdrop : (l ++ input).drop 8 = input.drop (8 - l.length) := by
        rw [List.drop_append, List.drop_of_length_le (by omega), List.nil_append]
      have hblock : (l ++ input.take (8 - l.length)).length = 8 := by
        rw [← htake, List.length_take_of_le (by rw [List.length_append]; omega)]
      have hrest : z.wrap (xs ++ input).length % 8 = (input.drop (8 - l.length)).length % 8 := by
        rw [wrap_mod_eight, List.length_append, List.length_drop]
        omega
      rw [hblock, if_neg (fun h => Nat.lt_irrefl 8 h.2), compressRest_eq rfl hrest,
        absorb_eq (by decide) w (n := 1) (by rw [List.length_append]; omega), Nat.one_mul, hdrop,
        takeBlocks, takeBlocks, htake, compressWord_eq]
  · obtain rfl : l = [] := List.length_eq_zero_iff.mp (by omega)
    have hrest : z.wrap (xs ++ input).length % 8 = input.length % 8 := by
      rw [wrap_mod_eight, List.length_append]
      rw [List.length_nil] at hlast
      omega
    rw [if_neg hleft, compressRest_eq word_nil hrest, List.nil_append]

theorem foldl_siphash24Compress (z : SizeT) (v : Words) (chunks : List Bytes) : ∀ xs : Bytes,
    chunks.foldl (siphash24Compress z) (stateOf z v xs) = stateOf z v (xs ++ chunks.flatten) := by
  induction chunks with
  | nil => exact fun xs => by rw [List.foldl_nil, List.flatten_nil, List.append_nil]
  | cons input chunks ih =>
    intro xs
    rw [List.foldl_cons, siphash24Compress_eq, ih, List.flatten_cons, List.append_assoc]

theorem getLE_zeros (n : Nat) : getLE (zeros n) = 0 := by
  induction n with
  | zero => rfl
  | succ n ih =>
    change (0 : UInt8).toNat + 256 * getLE (zeros n) = 0
    rw [ih]
    rfl

theorem lastWord_eq (z : SizeT) {xs l : Bytes} (h : l.length = xs.length % 8) :
    word l ||| UInt64.ofNat (z.wrap xs.length) <<< 56 =
      word (l ++ (zeros (7 - xs.length % 8) ++ [UInt8.ofNat xs.length])) := by
  have hfill : word (l ++ zeros (7 - xs.length % 8)) = word l := by
    rw [word, getLE_append, getLE_zeros, Nat.mul_zero, Nat.add_zero]
    rfl
  have hlen : (l ++ zeros (7 - xs.length % 8)).length = 7 := by
    rw [List.length_append, length_zeros]
    omega
  have hbyte : UInt64.ofNat (z.wrap xs.length) <<< 56 =
      (UInt8.ofNat xs.length).toUInt64 <<< UInt64.ofNat (7 * 8) := by
    rw [← UInt64.toNat_inj]
    cases z <;>
      simp [SizeT.wrap, SizeT.modulus, UInt64.toNat_shiftLeft, Nat.shiftLeft_eq] <;> omega
  rw [← List.append_assoc, ← orByte_eq _ _ (by omega), hlen, hfill, orByte, hbyte]

theorem finalize_stateOf (z : SizeT) (k0 k1 : UInt64) (xs : Bytes) :
    siphash24Finalize (stateOf z (start k0 k1) xs) = sipHash 2 4 k0 k1 xs := by
  rw [sipHash_eq, siphash24Finalize, stateOf]
  dsimp only
  rw [lastWord_eq z (length_absorb _ _), compressWord_eq]
  simp only [sipround_eq, finish, rounds]

theorem siphash24_chunks (z : SizeT) (key : Bytes) (chunks : List Bytes) :
    siphash24Finalize (chunks.foldl (siphash24Compress z) (siphash24Init key)) =
      sipHash 2 4 (word (slice key 0 8)) (word (slice key 8 8)) chunks.flatten := by
  have hinit : siphash24Init key =
      stateOf z (start (word (slice key 0 8)) (word (slice key 8 8))) [] := by
    have hk0 : unalignedReadLe64 key = word (slice key 0 8) := rfl
    have hk1 : unalignedReadLe64 (key.drop 8) = word (slice key 8 8) := rfl
    rw [stateOf, absorb_of_lt (by decide), siphash24Init, start, hk0, hk1]
    dsimp only
    rw [UInt64.xor_comm _ (word (slice key 0 8)), UInt64.xor_comm _ (word (slice key 8 8)),
      UInt64.xor_comm _ (word (slice key 0 8)), UInt64.xor_comm _ (word (slice key 8 8))]
    cases z <;> rfl
  rw [hinit, foldl_siphash24Compress, finalize_stateOf, List.nil_append]

/-- The value its authors give for the empty text. -/
example : sipHash 2 4 0x0706050403020100 0x0f0e0d0c0b0a0908 [] = 0x726fdb47dd0e0e31 := by
  decide +kernel

end Basu.Hash
