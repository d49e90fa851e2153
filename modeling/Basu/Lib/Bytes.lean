import Mathlib.Data.List.Basic
import Mathlib.Algebra.Order.Group.Nat
import Mathlib.Tactic.Ring

/-! Machine words inside byte strings: alignment, fixed-width words in either byte order,
zero padding and patching a word in place. Nothing here knows what the bytes mean. -/

namespace Lib

abbrev Bytes := List UInt8

def alignUp (l a : Nat) : Nat := (l + a - 1) / a * a

theorem alignUp_one (l : Nat) : alignUp l 1 = l := by simp [alignUp]

theorem le_alignUp (l : Nat) {a : Nat} (ha : 0 < a) : l ≤ alignUp l a := by
  unfold alignUp
  have h := Nat.div_add_mod (l + a - 1) a
  have hm := Nat.mod_lt (l + a - 1) ha
  rw [Nat.mul_comm] at h
  omega

theorem alignUp_lt (l : Nat) {a : Nat} (ha : 0 < a) : alignUp l a < l + a := by
  have := Nat.div_mul_le_self (l + a - 1) a
  unfold alignUp
  omega

theorem dvd_alignUp (l a : Nat) : a ∣ alignUp l a := Dvd.intro_left _ rfl

theorem alignUp_of_dvd {l a : Nat} (ha : 0 < a) (h : a ∣ l) : alignUp l a = l := by
  obtain ⟨k, rfl⟩ := h
  unfold alignUp
  have hk : (a * k + a - 1) / a = k := by
    rw [Nat.div_eq_iff ha]
    rw [Nat.mul_comm k a]
    omega
  rw [hk, Nat.mul_comm]

theorem alignUp_add_of_dvd {l k a : Nat} (ha : 0 < a) (h : a ∣ k) :
    alignUp (k + l) a = k + alignUp l a := by
  obtain ⟨c, rfl⟩ := h
  unfold alignUp
  have e : a * c + l + a - 1 = (l + a - 1) + a * c := by omega
  rw [e, Nat.add_mul_div_left _ _ ha, Nat.add_mul, Nat.mul_comm c a, Nat.add_comm]

/-- How many bytes of padding bring `l` to a multiple of `a`. -/
def padTo (l a : Nat) : Nat := alignUp l a - l

theorem padTo_one (l : Nat) : padTo l 1 = 0 := by simp [padTo, alignUp_one]

theorem add_padTo (l : Nat) {a : Nat} (ha : 0 < a) : l + padTo l a = alignUp l a := by
  have := le_alignUp l ha
  unfold padTo
  omega

def zeros (n : Nat) : Bytes := List.replicate n 0

@[simp] theorem length_zeros (n : Nat) : (zeros n).length = n := List.length_replicate

@[simp] theorem zeros_zero : zeros 0 = [] := rfl

theorem zeros_eq_of_all {bs : Bytes} (h : ∀ b ∈ bs, b = 0) : bs = zeros bs.length :=
  List.eq_replicate_of_mem h

inductive Endian
  | little
  | big
  deriving DecidableEq, Repr

def putLE : Nat → Nat → Bytes
  | 0, _ => []
  | n + 1, x => UInt8.ofNat x :: putLE n (x / 256)

def getLE : Bytes → Nat
  | [] => 0
  | b :: bs => b.toNat + 256 * getLE bs

def putWord (e : Endian) (n x : Nat) : Bytes :=
  match e with
  | .little => putLE n x
  | .big => (putLE n x).reverse

def getWord (e : Endian) (bs : Bytes) : Nat :=
  match e with
  | .little => getLE bs
  | .big => getLE bs.reverse

@[simp] theorem length_putLE (n x : Nat) : (putLE n x).length = n := by
  induction n generalizing x with
  | zero => rfl
  | succ n ih => simp only [putLE, List.length_cons, ih]

@[simp] theorem length_putWord (e : Endian) (n x : Nat) : (putWord e n x).length = n := by
  cases e <;> simp [putWord]

theorem getLE_putLE (n x : Nat) : getLE (putLE n x) = x % 256 ^ n := by
  induction n generalizing x with
  | zero => simp [putLE, getLE, Nat.mod_one]
  | succ n ih =>
    simp only [putLE, getLE, ih, UInt8.toNat_ofNat']
    rw [show (2 : Nat) ^ 8 = 256 from rfl, Nat.pow_succ', Nat.mod_mul]

theorem getWord_putWord (e : Endian) (n x : Nat) : getWord e (putWord e n x) = x % 256 ^ n := by
  cases e <;> simp [putWord, getWord, getLE_putLE]

theorem getWord_putWord_of_lt (e : Endian) {n x : Nat} (h : x < 256 ^ n) :
    getWord e (putWord e n x) = x := by
  rw [getWord_putWord, Nat.mod_eq_of_lt h]

theorem getLE_lt (bs : Bytes) : getLE bs < 256 ^ bs.length := by
  induction bs with
  | nil => simp [getLE]
  | cons b bs ih =>
    have hb : b.toNat < 256 := b.toNat_lt
    rw [List.length_cons, Nat.pow_succ']
    unfold getLE
    omega

theorem getWord_lt (e : Endian) (bs : Bytes) : getWord e bs < 256 ^ bs.length := by
  cases e
  · exact getLE_lt bs
  · simpa [getWord] using getLE_lt bs.reverse

theorem putLE_getLE (bs : Bytes) : putLE bs.length (getLE bs) = bs := by
  induction bs with
  | nil => rfl
  | cons b bs ih =>
    have hb : b.toNat < 256 := b.toNat_lt
    have hd : (b.toNat + 256 * getLE bs) / 256 = getLE bs := by omega
    have hm : UInt8.ofNat (b.toNat + 256 * getLE bs) = b := by
      apply UInt8.toNat_inj.mp
      rw [UInt8.toNat_ofNat']
      omega
    simp only [List.length_cons, putLE, getLE, hd, hm, ih]

theorem putWord_getWord (e : Endian) {n : Nat} {bs : Bytes} (h : bs.length = n) :
    putWord e n (getWord e bs) = bs := by
  subst h
  cases e
  · exact putLE_getLE bs
  · have := putLE_getLE bs.reverse
    rw [List.length_reverse] at this
    simp only [putWord, getWord, this, List.reverse_reverse]

theorem putLE_mod (n x : Nat) : putLE n (x % 256 ^ n) = putLE n x := by
  have h := putLE_getLE (putLE n x)
  rwa [length_putLE, getLE_putLE] at h

theorem putWord_mod (e : Endian) (n x : Nat) : putWord e n (x % 256 ^ n) = putWord e n x := by
  cases e <;> simp [putWord, putLE_mod]

theorem putWord_mod_add (e : Endian) (n x k : Nat) :
    putWord e n (x % 256 ^ n + k) = putWord e n (x + k) := by
  rw [← putWord_mod e n (x % 256 ^ n + k), Nat.mod_add_mod, putWord_mod]

def slice (bs : Bytes) (i n : Nat) : Bytes := (bs.drop i).take n

theorem length_slice {bs : Bytes} {i n : Nat} (h : i + n ≤ bs.length) :
    (slice bs i n).length = n := by
  simp only [slice, List.length_take, List.length_drop]
  omega

theorem slice_append_right (pre bs : Bytes) (i n : Nat) :
    slice (pre ++ bs) (pre.length + i) n = slice bs i n := by
  simp only [slice, List.drop_append, List.drop_eq_nil_of_le (Nat.le_add_right _ _),
    Nat.add_sub_cancel_left, List.nil_append]

theorem slice_prefix {bs rest : Bytes} {n : Nat} (h : bs.length = n) :
    slice (bs ++ rest) 0 n = bs := by
  subst h
  simp [slice]

theorem slice_middle {pre bs rest : Bytes} {i n : Nat} (hi : pre.length = i)
    (hn : bs.length = n) : slice (pre ++ (bs ++ rest)) i n = bs := by
  subst hi
  have h := slice_append_right pre (bs ++ rest) 0 n
  rw [Nat.add_zero] at h
  rw [h, slice_prefix hn]

def addWord (e : Endian) (n k : Nat) (bs : Bytes) (i : Nat) : Bytes :=
  bs.take i ++ putWord e n (getWord e (slice bs i n) + k) ++ bs.drop (i + n)

theorem length_addWord (e : Endian) {n k i : Nat} {bs : Bytes} (h : i + n ≤ bs.length) :
    (addWord e n k bs i).length = bs.length := by
  simp only [addWord, List.length_append, List.length_take, length_putWord, List.length_drop]
  omega

theorem addWord_middle (e : Endian) {n k x i : Nat} {pre rest : Bytes} (hi : pre.length = i) :
    addWord e n k (pre ++ (putWord e n x ++ rest)) i = pre ++ (putWord e n (x + k) ++ rest) := by
  subst hi
  have hs : slice (pre ++ (putWord e n x ++ rest)) pre.length n = putWord e n x :=
    slice_middle rfl (length_putWord e n x)
  have hd : (pre ++ (putWord e n x ++ rest)).drop (pre.length + n) = rest := by
    rw [← List.drop_drop, List.drop_left]
    exact List.drop_left' (length_putWord e n x)
  unfold addWord
  rw [hs, hd, List.take_left, getWord_putWord, putWord_mod_add, List.append_assoc]

theorem addWord_append_left (e : Endian) {n k i : Nat} {bs rest : Bytes}
    (h : i + n ≤ bs.length) : addWord e n k (bs ++ rest) i = addWord e n k bs i ++ rest := by
  have hs : slice (bs ++ rest) i n = slice bs i n := by
    unfold slice
    rw [List.drop_append_of_le_length (by omega), List.take_append_of_le_length]
    rw [List.length_drop]; omega
  unfold addWord
  rw [hs, List.take_append_of_le_length (by omega), List.drop_append_of_le_length h,
    List.append_assoc, List.append_assoc, List.append_assoc]

theorem addWord_append_right (e : Endian) (n k i : Nat) (pre bs : Bytes) :
    addWord e n k (pre ++ bs) (pre.length + i) = pre ++ addWord e n k bs i := by
  unfold addWord
  rw [slice_append_right, Nat.add_assoc]
  simp only [List.take_append, List.drop_append, List.take_of_length_le (Nat.le_add_right _ _),
    List.drop_eq_nil_of_le (Nat.le_add_right _ _), Nat.add_sub_cancel_left, List.nil_append,
    List.append_assoc]

def At (bs : Bytes) (p : Nat) (x : Bytes) : Prop :=
  ∃ pre rest, bs = pre ++ (x ++ rest) ∧ pre.length = p

theorem At.le_length {bs x : Bytes} {p : Nat} (h : At bs p x) : p + x.length ≤ bs.length := by
  obtain ⟨pre, rest, rfl, rfl⟩ := h
  simp only [List.length_append]
  omega

theorem At.slice_eq {bs x : Bytes} {p : Nat} (h : At bs p x) : slice bs p x.length = x := by
  obtain ⟨pre, rest, rfl, rfl⟩ := h
  exact slice_middle rfl rfl

theorem at_slice {bs : Bytes} {p n : Nat} (h : p + n ≤ bs.length) : At bs p (slice bs p n) := by
  refine ⟨bs.take p, bs.drop (p + n), ?_, by rw [List.length_take]; omega⟩
  rw [← List.drop_drop, slice, List.take_append_drop, List.take_append_drop]

theorem At.unique {bs x y : Bytes} {p : Nat} (hx : At bs p x) (hy : At bs p y)
    (h : x.length = y.length) : x = y := by
  rw [← hx.slice_eq, ← hy.slice_eq, h]

theorem at_append {bs x y : Bytes} {p : Nat} :
    At bs p (x ++ y) ↔ At bs p x ∧ At bs (p + x.length) y := by
  constructor
  · rintro ⟨pre, rest, rfl, rfl⟩
    exact ⟨⟨pre, y ++ rest, by simp, rfl⟩, ⟨pre ++ x, rest, by simp, by simp⟩⟩
  · rintro ⟨⟨pre, rest, rfl, rfl⟩, ⟨pre', rest', he, hl⟩⟩
    rw [← List.append_assoc] at he
    obtain ⟨rfl, rfl⟩ := List.append_inj he (by simp [hl])
    exact ⟨pre, rest', by simp, rfl⟩

theorem at_self {bs x : Bytes} (h : bs = x) : At bs 0 x := ⟨[], [], by simpa using h, rfl⟩

theorem addWord_addWord (e : Endian) {n i : Nat} (j k : Nat) {bs : Bytes}
    (h : i + n ≤ bs.length) :
    addWord e n k (addWord e n j bs i) i = addWord e n (j + k) bs i := by
  obtain ⟨pre, rest, hbs, hpre⟩ := at_slice h
  rw [← putWord_getWord e (length_slice h)] at hbs
  generalize getWord e (slice bs i n) = x at hbs
  subst hbs
  rw [addWord_middle e hpre, addWord_middle e hpre, addWord_middle e hpre, Nat.add_assoc]

theorem addWord_comm (e : Endian) {n p q : Nat} (j k : Nat) {bs : Bytes} (hpq : p + n ≤ q)
    (hq : q + n ≤ bs.length) :
    addWord e n k (addWord e n j bs p) q = addWord e n j (addWord e n k bs q) p := by
  have hlen : (bs.take q).length = q := by rw [List.length_take]; omega
  have hp : p + n ≤ (bs.take q).length := by rw [hlen]; exact hpq
  have hadd : ∀ {front : Bytes}, front.length = q → ∀ back,
      addWord e n k (front ++ back) q = front ++ addWord e n k back 0 := by
    rintro front rfl back
    exact addWord_append_right e n k 0 front back
  rw [← List.take_append_drop q bs, addWord_append_left e hp,
    hadd ((length_addWord e hp).trans hlen), hadd hlen, addWord_append_left e hp]
def patch (bs : Bytes) (p : Nat) (x : Bytes) : Bytes := bs.take p ++ x ++ bs.drop (p + x.length)

theorem length_patch {bs x : Bytes} {p : Nat} (h : p + x.length ≤ bs.length) :
    (patch bs p x).length = bs.length := by
  simp only [patch, List.length_append, List.length_take, List.length_drop]
  omega

theorem patch_nil {bs : Bytes} (p : Nat) : patch bs p [] = bs := by simp [patch]

theorem At.patch {bs x : Bytes} {p : Nat} (h : At bs p x) (y : Bytes) :
    patch bs (p + x.length) y = patch bs p (x ++ y) := by
  obtain ⟨pre, rest, rfl, rfl⟩ := h
  have htake : (pre ++ (x ++ rest)).take (pre.length + x.length) = pre ++ x := by
    rw [← List.append_assoc, ← List.length_append, List.take_left]
  simp only [Lib.patch, htake, List.take_left, List.length_append, Nat.add_assoc,
    List.append_assoc]

theorem At.patch_self {bs x : Bytes} {p : Nat} (h : At bs p x) : Lib.patch bs p x = bs := by
  have := h.patch []
  rw [patch_nil, List.append_nil] at this
  exact this.symm

theorem patch_patch {bs x y : Bytes} {p : Nat} (h : p + x.length ≤ bs.length) :
    patch (patch bs p x) (p + x.length) y = patch bs p (x ++ y) := by
  have hpre : (bs.take p ++ x).length = p + x.length := by
    rw [List.length_append, List.length_take]
    omega
  have htake : (patch bs p x).take (p + x.length) = bs.take p ++ x := by
    rw [patch, ← hpre, List.take_left]
  have hdrop : (patch bs p x).drop (p + x.length + y.length) =
      bs.drop (p + (x ++ y).length) := by
    rw [patch, ← List.drop_drop, List.drop_left' hpre, List.drop_drop, List.length_append,
      Nat.add_assoc]
  rw [patch, htake, hdrop, patch]
  simp only [List.append_assoc]

theorem drop_patch {bs x : Bytes} {p q : Nat} (h : p + x.length ≤ bs.length)
    (hq : p + x.length ≤ q) : (patch bs p x).drop q = bs.drop q := by
  have hpre : (bs.take p ++ x).length = p + x.length := by
    rw [List.length_append, List.length_take]
    omega
  obtain ⟨k, rfl⟩ := Nat.exists_eq_add_of_le hq
  rw [patch, ← List.drop_drop, List.drop_left' hpre, List.drop_drop]

theorem At.congr {bs bs' x : Bytes} {p : Nat} (h : At bs p x) (hl : bs'.length = bs.length)
    (hd : bs'.drop p = bs.drop p) : At bs' p x := by
  obtain ⟨pre, rest, rfl, rfl⟩ := h
  refine ⟨bs'.take pre.length, rest, ?_, ?_⟩
  · rw [List.drop_left] at hd
    rw [← hd, List.take_append_drop]
  · rw [List.length_take, hl, List.length_append]
    omega

end Lib
