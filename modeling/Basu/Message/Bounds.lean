import Basu.Socket.Size
import Mathlib.Data.BitVec

/-! The bounds checks under every peek, in the arithmetic of `size_t`: the start is aligned and the
length added before the sum is compared, so the comparison is the exact one as long as the sum does
not wrap. -/

namespace Basu
open Lib

def SizeT.bits : SizeT → Nat
  | .w32 => 32
  | .w64 => 64

section Width

variable {n : Nat}

def alignTo (l ali : BitVec n) : BitVec n := (l + ali - 1) &&& ~~~(ali - 1)

theorem and_high_bits {x k : Nat} (hx : x < 2 ^ n) (hk : k < n) :
    x &&& (2 ^ n - 1 - (2 ^ k - 1)) = x / 2 ^ k * 2 ^ k := by
  have hlow : 2 ^ k - 1 < 2 ^ n :=
    lt_of_le_of_lt (Nat.sub_le _ _) (Nat.pow_lt_pow_right (by decide) hk)
  have hmask : 2 ^ n - 1 - (2 ^ k - 1) = 2 ^ n - (2 ^ k - 1 + 1) := by
    rw [Nat.sub_sub, Nat.add_comm]
  rw [hmask]
  apply Nat.eq_of_testBit_eq
  intro i
  rw [Nat.testBit_and, Nat.testBit_two_pow_sub_succ hlow, Nat.testBit_two_pow_sub_one,
    Nat.testBit_mul_two_pow, Nat.testBit_div_two_pow]
  by_cases hi : i < k
  · simp [hi, Nat.not_le.mpr hi]
  · have hik := Nat.not_lt.mp hi
    rw [Nat.sub_add_cancel hik]
    by_cases hin : i < n
    · simp [hi, hin, hik]
    · have hbit : x.testBit i = false :=
        Nat.testBit_lt_two_pow (hx.trans_le (Nat.pow_le_pow_right (by decide) (Nat.not_lt.mp hin)))
      simp [hbit]

theorem mod_div_mul {y a M : Nat} (hM : a ∣ M) : y % M / a * a = y / a * a % M := by
  obtain ⟨c, rfl⟩ := hM
  rw [Nat.mod_mul_right_div_self, Nat.mul_comm (y / a % c), Nat.mul_comm (y / a),
    Nat.mul_mod_mul_left]

theorem alignTo_toNat (l : BitVec n) (k : Fin n) :
    (alignTo l (BitVec.twoPow n k)).toNat = alignUp l.toNat (2 ^ k.val) % 2 ^ n := by
  have hk := Nat.pow_lt_pow_right (show 1 < 2 by decide) k.isLt
  have hpos : 0 < 2 ^ k.val := Nat.two_pow_pos _
  have hone : (1 : BitVec n).toNat = 1 := by
    change 1 % 2 ^ n = 1
    exact Nat.mod_eq_of_lt (Nat.lt_of_le_of_lt hpos hk)
  have htwo : (BitVec.twoPow n k).toNat = 2 ^ k.val := BitVec.toNat_twoPow_of_lt k.isLt
  have hmask : (~~~(BitVec.twoPow n k - 1)).toNat = 2 ^ n - 1 - (2 ^ k.val - 1) := by
    rw [BitVec.toNat_not, BitVec.toNat_sub_of_le, htwo, hone]
    rw [BitVec.le_def, htwo, hone]
    exact hpos
  have hsum : (l + BitVec.twoPow n k - 1).toNat = (l.toNat + 2 ^ k.val - 1) % 2 ^ n := by
    have hl := l.isLt
    rw [BitVec.toNat_sub, BitVec.toNat_add, htwo, hone, Nat.add_mod_mod]
    have hM : 2 ^ n - 1 + (l.toNat + 2 ^ k.val) = l.toNat + 2 ^ k.val - 1 + 2 ^ n := by omega
    rw [hM, Nat.add_mod_right]
  rw [alignTo, BitVec.toNat_and, hsum, hmask,
    and_high_bits (Nat.mod_lt _ (Nat.two_pow_pos n)) k.isLt,
    mod_div_mul (Nat.pow_dvd_pow 2 k.isLt.le), alignUp]

theorem alignUp_le_two_pow (l : BitVec n) (k : Fin n) : alignUp l.toNat (2 ^ k.val) ≤ 2 ^ n := by
  have hdvd : 2 ^ k.val ∣ 2 ^ n := Nat.pow_dvd_pow 2 k.isLt.le
  have hup := alignUp_of_dvd (Nat.two_pow_pos k.val) hdvd
  rw [← hup]
  refine Nat.mul_le_mul_right _ (Nat.div_le_div_right ?_)
  exact Nat.sub_le_sub_right (Nat.add_le_add_right l.isLt.le _) 1

namespace Bounds

/-! ## `buffer_peek` -/

/-- `buffer_peek`: the memory behind the pointer it returns, and the index afterwards. -/
def bufferPeek (p : Nat → UInt8) (sz : BitVec 32) (rindex align nbytes : BitVec n) :
    Except Errno (Nat → UInt8) × BitVec n :=
  let start := alignTo rindex align
  let stop := start + nbytes
  if sz.toNat < stop.toNat then (.error .ebadmsg, rindex)
  else if (List.range' rindex.toNat (start.toNat - rindex.toNat)).any fun k => p k ≠ 0 then
    (.error .ebadmsg, rindex)
  else (.ok fun i => p (start.toNat + i), stop)

/-! ## `find_part` -/

/-- `struct bus_body_part`; `mappable` says whether `bus_body_part_map` succeeds, `data` is the
memory at its data pointer then. -/
structure BodyPart (n : Nat) where
  size : BitVec n
  data : Nat → UInt8
  mappable : Bool := true
  null : Bool := false
  empty : null = true → size = 0 := by simp

def beginOf (parts : List (BodyPart n)) (j : Nat) : Nat :=
  ((parts.take j).map (·.size.toNat)).sum

/-- The parts of a body, with the number of the cached one; all of them are in memory. -/
structure PartedBody (n : Nat) where
  parts : List (BodyPart n)
  userBodySize : BitVec n
  cached : Option Nat := none
  small : beginOf parts parts.length < 2 ^ n

def findPartLoop (index sz : BitVec n) :
    Nat → BitVec n → List (BodyPart n) → Option (Nat × BodyPart n × BitVec n)
  | _, _, [] => none
  | j, start, part :: rest =>
    if index < start then none
    else if index + sz ≤ start + part.size then
      if part.mappable then some (j, part, index - start) else none
    else findPartLoop index sz (j + 1) (start + part.size) rest

def PartedBody.first (b : PartedBody n) (index : BitVec n) : Nat :=
  match b.cached with
  | some j => if beginOf b.parts j ≤ index.toNat then j else 0
  | none => 0

def findPart (b : PartedBody n) (index sz : BitVec n) : Option (Nat × BodyPart n × BitVec n) :=
  let j := b.first index
  findPartLoop index sz j (BitVec.ofNat n (beginOf b.parts j)) (b.parts.drop j)

/-! ## `message_peek_body` -/

def BodyPart.pointer (part : BodyPart n) (offset : BitVec n) : Option (Nat → UInt8) :=
  if part.null ∧ offset = 0 then none else some fun i => part.data (offset.toNat + i)

def messagePeekBody (b : PartedBody n) (rindex align nbytes : BitVec n) :
    Except Errno (Option (Nat → UInt8)) × BitVec n :=
  let start := alignTo rindex align
  let padding := start - rindex
  let stop := start + nbytes
  if b.userBodySize < stop then (.error .ebadmsg, rindex)
  else match findPart b rindex padding with
    | none => (.error .ebadmsg, rindex)
    | some (j, part, offset) =>
      if (part.pointer offset).any fun q => (List.range padding.toNat).any fun k => q k ≠ 0 then
        (.error .ebadmsg, rindex)
      else match findPart { b with cached := some j } start nbytes with
        | none => (.error .ebadmsg, rindex)
        | some (_, part, offset) =>
          if 0 < nbytes ∧ part.pointer offset = none then (.error .ebadmsg, rindex)
          else (.ok (part.pointer offset), stop)

/-! ## Where the search ends -/

variable {b : PartedBody n} {index sz : BitVec n}

theorem beginOf_succ {parts : List (BodyPart n)} {j : Nat} {part : BodyPart n}
    (h : parts[j]? = some part) : beginOf parts (j + 1) = beginOf parts j + part.size.toNat := by
  unfold beginOf
  rw [List.take_add_one, h, List.map_append, List.sum_append]
  simp

theorem beginOf_mono (parts : List (BodyPart n)) {i j : Nat} (h : i ≤ j) :
    beginOf parts i ≤ beginOf parts j := by
  unfold beginOf
  obtain ⟨d, rfl⟩ := Nat.exists_eq_add_of_le h
  rw [List.take_add, List.map_append, List.sum_append]
  exact Nat.le_add_right _ _

theorem PartedBody.beginOf_lt (b : PartedBody n) (j : Nat) : beginOf b.parts j < 2 ^ n := by
  refine lt_of_le_of_lt ?_ b.small
  rcases Nat.le_total j b.parts.length with h | h
  · exact beginOf_mono _ h
  · rw [beginOf, beginOf, List.take_of_length_le h, List.take_of_length_le le_rfl]

/-- The part `find_part` ends at when it looks from number `first₀` on for the first one that
reaches up to `t`, and the offset of the index in it. -/
structure Lands (b : PartedBody n) (first₀ : Nat) (index : BitVec n) (t j : Nat)
    (part : BodyPart n) (offset : BitVec n) : Prop where
  found : b.parts[j]? = some part
  after : first₀ ≤ j
  skipped : ∀ i, first₀ ≤ i → i < j → beginOf b.parts (i + 1) < t
  reaches : t ≤ beginOf b.parts (j + 1)
  offset : beginOf b.parts j + offset.toNat = index.toNat
  mappable : part.mappable = true

theorem Lands.eq_first {i t j : Nat} {part : BodyPart n} {offset : BitVec n}
    (h : Lands b i index t j part offset) (hreach : t ≤ beginOf b.parts (i + 1)) : j = i := by
  by_contra hne
  exact absurd (h.skipped i le_rfl (lt_of_le_of_ne h.after (Ne.symm hne))) (Nat.not_lt.mpr hreach)

theorem Lands.lt_length {i t j : Nat} {part : BodyPart n} {offset : BitVec n}
    (h : Lands b i index t j part offset) : i < b.parts.length := by
  refine lt_of_le_of_lt h.after ?_
  by_contra hle
  exact nomatch (List.getElem?_eq_none (Nat.not_lt.mp hle)).symm.trans h.found

theorem lands_succ {i t j : Nat} {part : BodyPart n} {offset : BitVec n}
    (hreach : beginOf b.parts (i + 1) < t) :
    Lands b (i + 1) index t j part offset ↔ Lands b i index t j part offset := by
  constructor
  · intro h
    refine ⟨h.found, Nat.le_of_succ_le h.after, fun k hk hkj => ?_, h.reaches, h.offset,
      h.mappable⟩
    rcases Nat.eq_or_lt_of_le hk with rfl | hk
    · exact hreach
    · exact h.skipped k hk hkj
  · intro h
    have hne : i ≠ j := by
      rintro rfl
      exact absurd h.reaches (Nat.not_le.mpr hreach)
    exact ⟨h.found, lt_of_le_of_ne h.after hne,
      fun k hk => h.skipped k (Nat.le_of_succ_le hk), h.reaches, h.offset, h.mappable⟩

theorem findPartLoop_eq_some {j : Nat} {part : BodyPart n} {offset : BitVec n} (d : Nat) :
    ∀ i, b.parts.length ≤ i + d →
      (findPartLoop index sz i (BitVec.ofNat n (beginOf b.parts i)) (b.parts.drop i) =
          some (j, part, offset) ↔
        Lands b i index (index + sz).toNat j part offset) := by
  have hend : ∀ i, b.parts.length ≤ i →
      (findPartLoop index sz i (BitVec.ofNat n (beginOf b.parts i)) (b.parts.drop i) =
          some (j, part, offset) ↔
        Lands b i index (index + sz).toNat j part offset) := by
    intro i hi
    rw [List.drop_of_length_le hi, findPartLoop]
    exact iff_of_false (fun h => nomatch h) fun h => absurd h.lt_length (Nat.not_lt.mpr hi)
  induction d with
  | zero => exact hend
  | succ d ih =>
    intro i hi
    by_cases hlt : i < b.parts.length
    · have hget : b.parts[i]? = some b.parts[i] := List.getElem?_eq_getElem hlt
      have hbegin : (BitVec.ofNat n (beginOf b.parts i)).toNat = beginOf b.parts i := by
        rw [BitVec.toNat_ofNat, Nat.mod_eq_of_lt (b.beginOf_lt i)]
      have hnext : (BitVec.ofNat n (beginOf b.parts i) + b.parts[i].size).toNat =
          beginOf b.parts (i + 1) := by
        rw [BitVec.toNat_add, hbegin, ← beginOf_succ hget, Nat.mod_eq_of_lt (b.beginOf_lt _)]
      rw [List.drop_eq_getElem_cons hlt, findPartLoop]
      by_cases hbefore : index < BitVec.ofNat n (beginOf b.parts i)
      · -- the index lies before every part that is left
        rw [if_pos hbefore]
        rw [BitVec.lt_def, hbegin] at hbefore
        refine iff_of_false (fun h => nomatch h) fun h => ?_
        have hmono := beginOf_mono b.parts h.after
        have hoff := h.offset
        omega
      · rw [if_neg hbefore]
        rw [BitVec.lt_def, hbegin, Nat.not_lt] at hbefore
        by_cases hreach : index + sz ≤ BitVec.ofNat n (beginOf b.parts i) + b.parts[i].size
        · rw [if_pos hreach]
          rw [BitVec.le_def, hnext] at hreach
          have hoffset : beginOf b.parts i + (index - BitVec.ofNat n (beginOf b.parts i)).toNat =
              index.toNat := by
            rw [BitVec.toNat_sub_of_le (by rw [BitVec.le_def, hbegin]; exact hbefore), hbegin,
              Nat.add_sub_cancel' hbefore]
          by_cases hmap : b.parts[i].mappable = true
          · rw [if_pos hmap]
            constructor
            · rintro ⟨⟩
              exact ⟨hget, le_rfl, fun k hk hki => absurd hki (Nat.not_lt.mpr hk), hreach,
                hoffset, hmap⟩
            · intro h
              obtain rfl := h.eq_first hreach
              obtain rfl := Option.some.inj (hget.symm.trans h.found)
              have hoff : offset = index - BitVec.ofNat n (beginOf b.parts j) := by
                apply BitVec.eq_of_toNat_eq
                have := h.offset
                omega
              rw [hoff]
          · rw [if_neg hmap]
            refine iff_of_false (fun h => nomatch h) fun h => ?_
            obtain rfl := h.eq_first hreach
            obtain rfl := Option.some.inj (hget.symm.trans h.found)
            exact hmap h.mappable
        · rw [if_neg hreach]
          have hadd : BitVec.ofNat n (beginOf b.parts i) + b.parts[i].size =
              BitVec.ofNat n (beginOf b.parts (i + 1)) := by
            apply BitVec.eq_of_toNat_eq
            rw [hnext, BitVec.toNat_ofNat, Nat.mod_eq_of_lt (b.beginOf_lt _)]
          rw [BitVec.le_def, hnext, Nat.not_le] at hreach
          rw [hadd, ih (i + 1) (by omega)]
          exact lands_succ hreach
    · exact hend i (Nat.not_lt.mp hlt)

theorem findPart_eq_some {j : Nat} {part : BodyPart n} {offset : BitVec n} :
    findPart b index sz = some (j, part, offset) ↔
      Lands b (b.first index) index (index + sz).toNat j part offset :=
  findPartLoop_eq_some b.parts.length _ (Nat.le_add_left _ _)

def byteAt : List (BodyPart n) → Nat → UInt8
  | [], _ => 0
  | part :: rest, i =>
    if i < part.size.toNat then part.data i else byteAt rest (i - part.size.toNat)

structure Granted (bytes : Nat → UInt8) (size start nbytes : Nat) (ret : Nat → UInt8) : Prop where
  bounded : start + nbytes ≤ size
  bytes : ∀ i < nbytes, ret i = bytes (start + i)

/-- A successful `buffer_peek` has granted the request and not moved the index back, one that has
failed leaves it alone. -/
def PeeksBuffer (p : Nat → UInt8) (sz : BitVec 32) (rindex : BitVec n) (k : Fin n)
    (nbytes : BitVec n) : Prop :=
  match bufferPeek p sz rindex (BitVec.twoPow n k) nbytes with
  | (.ok ret, rindex') =>
    Granted p sz.toNat (alignUp rindex.toNat (2 ^ k.val)) nbytes.toNat ret ∧ rindex ≤ rindex'
  | (.error _, rindex') => rindex' = rindex

/-- The same of `message_peek_body`; only an empty request may be answered with `NULL`. -/
def PeeksBody (b : PartedBody n) (rindex : BitVec n) (k : Fin n) (nbytes : BitVec n) : Prop :=
  match messagePeekBody b rindex (BitVec.twoPow n k) nbytes with
  | (.ok ret, rindex') =>
    Granted (byteAt b.parts) b.userBodySize.toNat (alignUp rindex.toNat (2 ^ k.val)) nbytes.toNat
      (ret.getD fun _ => 0) ∧ (ret = none → nbytes = 0) ∧ rindex ≤ rindex'
  | (.error _, rindex') => rindex' = rindex

def FindsPart (b : PartedBody n) (index sz : BitVec n) : Prop :=
  ∀ j part offset, findPart b index sz = some (j, part, offset) →
    Granted (fun i => byteAt b.parts (index.toNat - offset.toNat + i)) part.size.toNat
      offset.toNat sz.toNat fun i => part.data (offset.toNat + i)

/-! ## Where the sum has wrapped -/

/-- The end of a request does not fit in `size_t`, and what is left of it passes the checks. -/
structure WrapsBuffer (p : Nat → UInt8) (sz : BitVec 32) (rindex : BitVec n) (k : Fin n)
    (nbytes : BitVec n) : Prop where
  wraps : 2 ^ n ≤ alignUp rindex.toNat (2 ^ k.val) + nbytes.toNat
  size : (alignUp rindex.toNat (2 ^ k.val) + nbytes.toNat) % 2 ^ n ≤ sz.toNat
  padding : ∀ i, rindex.toNat ≤ i → i < alignUp rindex.toNat (2 ^ k.val) % 2 ^ n → p i = 0

structure WrapsPart (b : PartedBody n) (index sz : BitVec n) : Prop where
  wraps : 2 ^ n ≤ index.toNat + sz.toNat
  lands : ∃ j part offset,
    Lands b (b.first index) index ((index.toNat + sz.toNat) % 2 ^ n) j part offset

/-- The same of `message_peek_body`, which looks the padding up first and then what follows it. -/
structure WrapsBody (b : PartedBody n) (rindex : BitVec n) (k : Fin n) (nbytes : BitVec n) :
    Prop where
  wraps : 2 ^ n ≤ alignUp rindex.toNat (2 ^ k.val) + nbytes.toNat
  size : (alignUp rindex.toNat (2 ^ k.val) + nbytes.toNat) % 2 ^ n ≤ b.userBodySize.toNat
  lands : ∃ j part offset,
    Lands b (b.first rindex) rindex (alignUp rindex.toNat (2 ^ k.val) % 2 ^ n) j part offset ∧
    (∀ q, part.pointer offset = some q →
      ∀ i < alignUp rindex.toNat (2 ^ k.val) - rindex.toNat, q i = 0) ∧
    let b := { b with cached := some j }
    let start := BitVec.ofNat n (alignUp rindex.toNat (2 ^ k.val))
    ∃ j part offset, Lands b (b.first start) start
      ((alignUp rindex.toNat (2 ^ k.val) + nbytes.toNat) % 2 ^ n) j part offset ∧
      (nbytes ≠ 0 → part.pointer offset ≠ none)

theorem alignTo_eq (rindex : BitVec n) (k : Fin n) :
    alignTo rindex (BitVec.twoPow n k) = BitVec.ofNat n (alignUp rindex.toNat (2 ^ k.val)) := by
  apply BitVec.eq_of_toNat_eq
  rw [alignTo_toNat, BitVec.toNat_ofNat]

theorem alignTo_add_toNat (rindex nbytes : BitVec n) (k : Fin n) :
    (alignTo rindex (BitVec.twoPow n k) + nbytes).toNat =
      (alignUp rindex.toNat (2 ^ k.val) + nbytes.toNat) % 2 ^ n := by
  rw [BitVec.toNat_add, alignTo_toNat, Nat.mod_add_mod]

theorem peeksBuffer_iff (hn : 32 ≤ n) (p : Nat → UInt8) (sz : BitVec 32) (rindex : BitVec n)
    (k : Fin n) (nbytes : BitVec n) :
    PeeksBuffer p sz rindex k nbytes ↔ ¬ WrapsBuffer p sz rindex k nbytes := by
  have hle := le_alignUp rindex.toNat (Nat.two_pow_pos k.val)
  have hpad : (List.range' rindex.toNat ((alignTo rindex (BitVec.twoPow n k)).toNat -
      rindex.toNat)).any (fun i => p i ≠ 0) = false ↔
      ∀ i, rindex.toNat ≤ i → i < alignUp rindex.toNat (2 ^ k.val) % 2 ^ n → p i = 0 := by
    rw [alignTo_toNat, List.any_eq_false]
    simp only [List.mem_range'_1, decide_eq_true_eq, not_not]
    refine forall_congr' fun i => ⟨fun h hi hlt => h ⟨hi, by omega⟩, fun h hi => h hi.1 (by omega)⟩
  unfold PeeksBuffer bufferPeek
  simp only [alignTo_add_toNat]
  by_cases hsz : sz.toNat < (alignUp rindex.toNat (2 ^ k.val) + nbytes.toNat) % 2 ^ n
  · rw [if_pos hsz]
    exact iff_of_true rfl fun h => absurd h.size (Nat.not_le.mpr hsz)
  · rw [if_neg hsz]
    by_cases hzero : (List.range' rindex.toNat ((alignTo rindex (BitVec.twoPow n k)).toNat -
        rindex.toNat)).any (fun i => p i ≠ 0) = true
    · rw [if_pos hzero]
      refine iff_of_true rfl fun h => ?_
      rw [hpad.mpr h.padding] at hzero
      exact absurd hzero (by decide)
    · rw [if_neg hzero]
      rw [Bool.not_eq_true] at hzero
      constructor
      · -- an end beyond the range of `size_t` is beyond every size
        rintro ⟨hg, -⟩ h
        have hsize := sz.isLt.trans_le (Nat.pow_le_pow_right (by decide) hn)
        exact absurd (h.wraps.trans hg.bounded) (Nat.not_le.mpr hsize)
      · intro hno
        have hfits : alignUp rindex.toNat (2 ^ k.val) + nbytes.toNat < 2 ^ n := by
          by_contra hwraps
          exact hno ⟨Nat.not_lt.mp hwraps, Nat.not_lt.mp hsz, hpad.mp hzero⟩
        rw [Nat.mod_eq_of_lt hfits, Nat.not_lt] at hsz
        refine ⟨⟨hsz, fun i _ => ?_⟩, ?_⟩
        · rw [alignTo_toNat, Nat.mod_eq_of_lt (by omega)]
        · rw [BitVec.le_def, alignTo_add_toNat, Nat.mod_eq_of_lt hfits]
          omega

theorem byteAt_part {parts : List (BodyPart n)} {j : Nat} {part : BodyPart n}
    (h : parts[j]? = some part) {i : Nat} (hi : i < part.size.toNat) :
    byteAt parts (beginOf parts j + i) = part.data i := by
  induction parts generalizing j with
  | nil => exact nomatch h
  | cons p rest ih =>
    cases j with
    | zero =>
      obtain rfl := Option.some.inj h
      have hzero : beginOf (p :: rest) 0 = 0 := rfl
      rw [hzero, Nat.zero_add, byteAt, if_pos hi]
    | succ j =>
      have hstep : beginOf (p :: rest) (j + 1) = p.size.toNat + beginOf rest j := rfl
      rw [hstep, Nat.add_assoc, byteAt, if_neg (Nat.not_lt.mpr (Nat.le_add_right _ _)),
        Nat.add_sub_cancel_left]
      exact ih h

theorem Lands.granted {first₀ j : Nat} {part : BodyPart n} {offset : BitVec n}
    (h : Lands b first₀ index (index.toNat + sz.toNat) j part offset) :
    offset.toNat + sz.toNat ≤ part.size.toNat ∧
      ∀ i < sz.toNat, part.data (offset.toNat + i) = byteAt b.parts (index.toNat + i) := by
  have hreach := h.reaches
  rw [beginOf_succ h.found] at hreach
  have hoff := h.offset
  have hle : offset.toNat + sz.toNat ≤ part.size.toNat := by omega
  refine ⟨hle, fun i hi => ?_⟩
  rw [← hoff, Nat.add_assoc]
  exact (byteAt_part h.found (by omega)).symm

theorem findsPart_iff (b : PartedBody n) (index sz : BitVec n) :
    FindsPart b index sz ↔ ¬ WrapsPart b index sz := by
  unfold FindsPart
  simp only [findPart_eq_some, BitVec.toNat_add]
  constructor
  · rintro hg ⟨hwraps, j, part, offset, hland⟩
    have hbound := (hg j part offset hland).bounded
    have hend := b.beginOf_lt (j + 1)
    rw [beginOf_succ hland.found] at hend
    have hoff := hland.offset
    omega
  · intro hno j part offset hland
    have hfits : index.toNat + sz.toNat < 2 ^ n := by
      by_contra hwraps
      exact hno ⟨Nat.not_lt.mp hwraps, j, part, offset, hland⟩
    rw [Nat.mod_eq_of_lt hfits] at hland
    obtain ⟨hle, hbytes⟩ := hland.granted
    have hoff := hland.offset
    refine ⟨hle, fun i hi => ?_⟩
    rw [hbytes i hi]
    congr 1
    omega

theorem padding_toNat (rindex : BitVec n) (k : Fin n) :
    (alignTo rindex (BitVec.twoPow n k) - rindex).toNat =
      alignUp rindex.toNat (2 ^ k.val) - rindex.toNat := by
  have hle := le_alignUp rindex.toNat (Nat.two_pow_pos k.val)
  have hlt := alignUp_lt rindex.toNat (Nat.two_pow_pos k.val)
  have hk := Nat.pow_lt_pow_right (show 1 < 2 by decide) k.isLt
  have hM := alignUp_le_two_pow rindex k
  have hr := rindex.isLt
  rw [BitVec.toNat_sub, alignTo_toNat]
  rcases Nat.eq_or_lt_of_le hM with h | h
  · rw [h, Nat.mod_self, Nat.add_zero, Nat.mod_eq_of_lt (by omega)]
  · have hsum : 2 ^ n - rindex.toNat + alignUp rindex.toNat (2 ^ k.val) =
        alignUp rindex.toNat (2 ^ k.val) - rindex.toNat + 2 ^ n := by omega
    rw [Nat.mod_eq_of_lt h, hsum, Nat.add_mod_right, Nat.mod_eq_of_lt (by omega)]

structure PassesBody (b : PartedBody n) (rindex align nbytes : BitVec n)
    (ret : Option (Nat → UInt8)) : Prop where
  size : (alignTo rindex align + nbytes).toNat ≤ b.userBodySize.toNat
  parts : ∃ j part offset,
    findPart b rindex (alignTo rindex align - rindex) = some (j, part, offset) ∧
    (∀ q, part.pointer offset = some q →
      ∀ i < (alignTo rindex align - rindex).toNat, q i = 0) ∧
    ∃ j' part' offset', findPart { b with cached := some j } (alignTo rindex align) nbytes =
      some (j', part', offset') ∧ (nbytes ≠ 0 → part'.pointer offset' ≠ none) ∧
      ret = part'.pointer offset'

theorem messagePeekBody_spec (b : PartedBody n) (rindex align nbytes : BitVec n) :
    (∃ ret, messagePeekBody b rindex align nbytes = (.ok ret, alignTo rindex align + nbytes) ∧
      PassesBody b rindex align nbytes ret) ∨
    (∃ r, messagePeekBody b rindex align nbytes = (.error r, rindex)) ∧
      ∀ ret, ¬ PassesBody b rindex align nbytes ret := by
  have hpos : (0 < nbytes) ↔ nbytes ≠ 0 := by
    rw [BitVec.lt_def, ne_eq, ← BitVec.toNat_inj]
    exact Nat.pos_iff_ne_zero
  unfold messagePeekBody
  by_cases hsz : b.userBodySize < alignTo rindex align + nbytes
  · rw [if_pos hsz]
    exact .inr ⟨⟨_, rfl⟩, fun ret h => absurd h.size (Nat.not_le.mpr hsz)⟩
  rw [if_neg hsz]
  cases hfind : findPart b rindex (alignTo rindex align - rindex) with
  | none =>
    refine .inr ⟨⟨_, rfl⟩, fun ret h => ?_⟩
    obtain ⟨j, part, offset, hf, -⟩ := h.parts
    exact nomatch hfind.symm.trans hf
  | some found =>
    obtain ⟨j, part, offset⟩ := found
    dsimp only
    have hpad : ((part.pointer offset).any fun q =>
        (List.range (alignTo rindex align - rindex).toNat).any fun k => q k ≠ 0) = false ↔
        ∀ q, part.pointer offset = some q →
          ∀ i < (alignTo rindex align - rindex).toNat, q i = 0 := by
      cases part.pointer offset with
      | none => simp
      | some q => simp
    by_cases hzero : ((part.pointer offset).any fun q =>
        (List.range (alignTo rindex align - rindex).toNat).any fun k => q k ≠ 0) = true
    · rw [if_pos hzero]
      refine .inr ⟨⟨_, rfl⟩, fun ret h => ?_⟩
      obtain ⟨j', part', offset', hf, hp, -⟩ := h.parts
      obtain ⟨rfl, rfl, rfl⟩ := Option.some.inj (hfind.symm.trans hf)
      rw [hpad.mpr hp] at hzero
      exact absurd hzero (by decide)
    rw [if_neg hzero]
    cases hsecond : findPart { b with cached := some j } (alignTo rindex align) nbytes with
    | none =>
      refine .inr ⟨⟨_, rfl⟩, fun ret h => ?_⟩
      obtain ⟨j', part', offset', hf, -, j₂, part₂, offset₂, hf₂, -⟩ := h.parts
      obtain ⟨rfl, rfl, rfl⟩ := Option.some.inj (hfind.symm.trans hf)
      exact nomatch hsecond.symm.trans hf₂
    | some found =>
      obtain ⟨j₂, part₂, offset₂⟩ := found
      dsimp only
      by_cases hnull : 0 < nbytes ∧ part₂.pointer offset₂ = none
      · rw [if_pos hnull]
        refine .inr ⟨⟨_, rfl⟩, fun ret h => ?_⟩
        obtain ⟨j', part', offset', hf, -, j₃, part₃, offset₃, hf₃, hn, -⟩ := h.parts
        obtain ⟨rfl, rfl, rfl⟩ := Option.some.inj (hfind.symm.trans hf)
        obtain ⟨rfl, rfl, rfl⟩ := Option.some.inj (hsecond.symm.trans hf₃)
        exact hn (hpos.mp hnull.1) hnull.2
      · rw [if_neg hnull]
        refine .inl ⟨_, rfl, Nat.not_lt.mp hsz, j, part, offset, hfind,
          hpad.mp (Bool.not_eq_true _ ▸ hzero), j₂, part₂, offset₂, hsecond, fun hne hn => ?_, rfl⟩
        exact hnull ⟨hpos.mpr hne, hn⟩

theorem passesBody_wraps {rindex nbytes : BitVec n} {k : Fin n}
    (hwraps : 2 ^ n ≤ alignUp rindex.toNat (2 ^ k.val) + nbytes.toNat) :
    (∃ ret, PassesBody b rindex (BitVec.twoPow n k) nbytes ret) ↔ WrapsBody b rindex k nbytes := by
  have hadd : rindex + (alignTo rindex (BitVec.twoPow n k) - rindex) =
      alignTo rindex (BitVec.twoPow n k) := by
    rw [BitVec.add_comm, BitVec.sub_add_cancel]
  constructor
  · rintro ⟨ret, hsize, j, part, offset, hf, hp, j', part', offset', hf', hn, -⟩
    rw [alignTo_add_toNat] at hsize
    rw [findPart_eq_some, hadd, alignTo_toNat] at hf
    rw [padding_toNat] at hp
    rw [findPart_eq_some, alignTo_add_toNat, alignTo_eq] at hf'
    exact ⟨hwraps, hsize, j, part, offset, hf, hp, j', part', offset', hf', hn⟩
  · rintro ⟨-, hsize, j, part, offset, hf, hp, j', part', offset', hf', hn⟩
    refine ⟨_, ?_, j, part, offset, ?_, ?_, j', part', offset', ?_, hn, rfl⟩
    · rw [alignTo_add_toNat]
      exact hsize
    · rw [findPart_eq_some, hadd, alignTo_toNat]
      exact hf
    · rw [padding_toNat]
      exact hp
    · rw [findPart_eq_some, alignTo_add_toNat, alignTo_eq]
      exact hf'

theorem pointer_getD {part : BodyPart n} {offset nbytes : BitVec n}
    (hn : nbytes ≠ 0 → part.pointer offset ≠ none) {i : Nat} (hi : i < nbytes.toNat) :
    (part.pointer offset).getD (fun _ => 0) i = part.data (offset.toNat + i) := by
  have hne : nbytes ≠ 0 := by
    rintro rfl
    exact absurd hi (by simp)
  have hp := hn hne
  unfold BodyPart.pointer at hp ⊢
  by_cases h : part.null ∧ offset = 0
  · exact absurd (if_pos h) hp
  · rw [if_neg h]
    rfl

theorem peeksBody_iff (b : PartedBody n) (rindex : BitVec n) (k : Fin n) (nbytes : BitVec n) :
    PeeksBody b rindex k nbytes ↔ ¬ WrapsBody b rindex k nbytes := by
  have hle := le_alignUp rindex.toNat (Nat.two_pow_pos k.val)
  unfold PeeksBody
  rcases messagePeekBody_spec b rindex (BitVec.twoPow n k) nbytes with
    ⟨ret, heq, hpass⟩ | ⟨⟨r, heq⟩, hno⟩
  · rw [heq]
    constructor
    · rintro ⟨hg, -⟩ h
      exact absurd (h.wraps.trans hg.bounded) (Nat.not_le.mpr b.userBodySize.isLt)
    · intro hno
      have hfits : alignUp rindex.toNat (2 ^ k.val) + nbytes.toNat < 2 ^ n := by
        by_contra hwraps
        exact hno ((passesBody_wraps (Nat.not_lt.mp hwraps)).mp ⟨ret, hpass⟩)
      have hS : (alignTo rindex (BitVec.twoPow n k)).toNat = alignUp rindex.toNat (2 ^ k.val) := by
        rw [alignTo_toNat, Nat.mod_eq_of_lt (Nat.lt_of_le_of_lt (Nat.le_add_right _ _) hfits)]
      obtain ⟨hsize, j, part, offset, -, -, j', part', offset', hf', hn, rfl⟩ := hpass
      rw [alignTo_add_toNat, Nat.mod_eq_of_lt hfits] at hsize
      rw [findPart_eq_some, BitVec.toNat_add, hS, Nat.mod_eq_of_lt hfits, ← hS] at hf'
      obtain ⟨-, hbytes⟩ := hf'.granted
      refine ⟨⟨hsize, fun i hi => ?_⟩, fun hnone => ?_, ?_⟩
      · rw [pointer_getD hn hi, hbytes i hi, hS]
      · exact not_imp_comm.mp hn (not_not.mpr hnone)
      · rw [BitVec.le_def, alignTo_add_toNat, Nat.mod_eq_of_lt hfits]
        omega
  · rw [heq]
    refine iff_of_true rfl fun h => ?_
    obtain ⟨ret, hpass⟩ := (passesBody_wraps h.wraps).mpr h
    exact hno ret hpass

end Bounds

end Width

namespace Bounds

theorem SizeT.bits_ge (w : SizeT) : 32 ≤ w.bits := by
  cases w <;> decide

/-- Every peek keeps to its bounds, in either width, as long as the aligned start and the length
have a sum in the range of `size_t`, or what is left of the sum fails another check. -/
theorem peeks_exactly (w : SizeT) :
    (∀ p sz (rindex : BitVec w.bits) k nbytes,
      PeeksBuffer p sz rindex k nbytes ↔ ¬ WrapsBuffer p sz rindex k nbytes) ∧
    (∀ (b : PartedBody w.bits) rindex k nbytes,
      PeeksBody b rindex k nbytes ↔ ¬ WrapsBody b rindex k nbytes) ∧
    ∀ (b : PartedBody w.bits) index sz, FindsPart b index sz ↔ ¬ WrapsPart b index sz :=
  ⟨peeksBuffer_iff (SizeT.bits_ge w), peeksBody_iff, findsPart_iff⟩

/-! ## The arithmetic of the other modules -/

/-- A hundred bytes, and the longest string that a length word may announce at their beginning. -/
theorem not_peeks_exactly :
    let b : PartedBody SizeT.w32.bits := {
      parts := [{ size := 100, data := fun _ => 0 }], userBodySize := 100, small := by decide }
    ¬ PeeksBuffer (fun _ => 0) 100 (4 : BitVec SizeT.w32.bits) ⟨0, by decide⟩ (2 ^ 32 - 1) ∧
      ¬ PeeksBody b 4 ⟨0, by decide⟩ (2 ^ 32 - 1) ∧ ¬ FindsPart b 4 (2 ^ 32 - 1) := by
  intro b
  have hland : ∀ t ≤ 100, ∀ c : Option Nat, c = none ∨ c = some 0 →
      Lands { b with cached := c } (PartedBody.first { b with cached := c } 4) 4 t 0
        { size := 100, data := fun _ => 0 } 4 := by
    rintro t ht c (rfl | rfl) <;>
    exact ⟨rfl, Nat.zero_le _, fun i _ hi => absurd hi (Nat.not_lt_zero i), ht, by decide, rfl⟩
  refine ⟨fun h => ?_, fun h => ?_, fun h => ?_⟩
  · refine (peeksBuffer_iff (SizeT.bits_ge _) _ _ _ _ _).mp h ⟨by decide, by decide, ?_⟩
    exact fun i _ _ => rfl
  · refine (peeksBody_iff _ _ _ _).mp h ⟨by decide, by decide, 0, _, 4, hland 4 (by decide) none
      (.inl rfl), fun q hq i _ => ?_, 0, _, 4, hland 3 (by decide) (some 0) (.inr rfl), ?_⟩
    · obtain rfl := Option.some.inj hq
      rfl
    · exact fun _ hn => nomatch hn
  · exact (findsPart_iff _ _ _).mp h ⟨by decide, 0, _, 4, hland 3 (by decide) none (.inl rfl)⟩

end Bounds

end Basu
