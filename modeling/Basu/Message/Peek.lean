import Basu.Names
import Basu.Value

/-! Reading from a buffer at an index: `buffer_peek` for header fields and `message_peek_body` for
the body make the same checks, and strings and signatures are read the same way from both. -/

namespace Basu
open Lib

/-- `buffer_peek` and `message_peek_body`: skip the padding, which has to be zero, and take
`nbytes`. The body of a received message is one part. -/
def bufferPeek (bs : Bytes) (rindex align nbytes : Nat) : Except Errno (Bytes × Nat) :=
  let start := alignUp rindex align
  let stop := start + nbytes
  if bs.length < stop then .error .ebadmsg
  else if (slice bs rindex (start - rindex)).any (· ≠ 0) then .error .ebadmsg
  else .ok (slice bs start nbytes, stop)

/-- No NUL among the first `l` bytes, and one behind them. -/
def validateNul (q : Bytes) (l : Nat) : Bool := !(q.take l).contains 0 && charAt q l = 0

def peekUint32 (e : Endian) (bs : Bytes) (ri : Nat) : Except Errno (Nat × Nat) :=
  match bufferPeek bs ri 4 4 with
  | .error r => .error r
  | .ok (q, ri) => .ok (getWord e q, ri)

def peekString (e : Endian) (validate : Str → Bool) (bs : Bytes) (ri : Nat) :
    Except Errno (Str × Nat) :=
  match peekUint32 e bs ri with
  | .error r => .error r
  | .ok (l, ri) =>
    if l = uint32Max then .error .ebadmsg
    else match bufferPeek bs ri 1 (l + 1) with
      | .error r => .error r
      | .ok (q, ri) =>
        if validateNul q l && validate (q.take l) then .ok (q.take l, ri) else .error .ebadmsg

def validSignature (s : Str) : Bool := signatureIsValid s true

def peekSignature (bs : Bytes) (ri : Nat) : Except Errno (Str × Nat) :=
  match bufferPeek bs ri 1 1 with
  | .error r => .error r
  | .ok (q, ri) =>
    let l := (charAt q 0).toNat
    if l = 255 then .error .ebadmsg
    else match bufferPeek bs ri 1 (l + 1) with
      | .error r => .error r
      | .ok (q, ri) =>
        if validateNul q l && validSignature (q.take l) then .ok (q.take l, ri)
        else .error .ebadmsg

theorem bufferPeek_sound {bs q : Bytes} {ri ri' align n : Nat} (ha : 0 < align)
    (h : bufferPeek bs ri align n = .ok (q, ri')) :
    At bs ri (zeros (padTo ri align) ++ q) ∧ q.length = n ∧ ri' = alignUp ri align + n := by
  simp only [bufferPeek] at h
  split_ifs at h with h1 h2
  simp only [Except.ok.injEq, Prod.mk.injEq] at h
  obtain ⟨rfl, rfl⟩ := h
  have hle := le_alignUp ri ha
  have hlen : (slice bs ri (padTo ri align)).length = padTo ri align :=
    length_slice (by have := add_padTo ri ha; omega)
  have hz : slice bs ri (padTo ri align) = zeros (padTo ri align) := by
    have hall : ∀ b ∈ slice bs ri (padTo ri align), b = 0 := by simpa [padTo] using h2
    have := zeros_eq_of_all hall
    rwa [hlen] at this
  refine ⟨at_append.mpr ⟨?_, ?_⟩, length_slice (by omega), rfl⟩
  · rw [← hz]
    exact at_slice (by have := add_padTo ri ha; omega)
  · rw [length_zeros, add_padTo ri ha]
    exact at_slice (by omega)

theorem bufferPeek_at {bs q : Bytes} {ri align n : Nat} (ha : 0 < align) (hn : q.length = n)
    (h : At bs ri (zeros (padTo ri align) ++ q)) :
    bufferPeek bs ri align n = .ok (q, alignUp ri align + n) := by
  obtain ⟨hz, hq⟩ := at_append.mp h
  rw [length_zeros, add_padTo ri ha] at hq
  have hle := hq.le_length
  have hsub : alignUp ri align - ri = padTo ri align := rfl
  have hslice := hz.slice_eq
  rw [length_zeros] at hslice
  have hany : ¬ (slice bs ri (padTo ri align)).any (· ≠ 0) = true := by
    rw [hslice]
    simp [zeros]
  subst hn
  simp only [bufferPeek, hsub]
  rw [if_neg (by omega), if_neg hany, hq.slice_eq]

theorem bufferPeek_at_one {bs q : Bytes} {ri n : Nat} (hn : q.length = n) (h : At bs ri q) :
    bufferPeek bs ri 1 n = .ok (q, ri + n) := by
  have hpadded : At bs ri (zeros (padTo ri 1) ++ q) := by simpa [padTo_one] using h
  have := bufferPeek_at (by decide) hn hpadded
  rwa [alignUp_one] at this

theorem bufferPeek_sound_one {bs q : Bytes} {ri ri' n : Nat}
    (h : bufferPeek bs ri 1 n = .ok (q, ri')) :
    At bs ri q ∧ q.length = n ∧ ri' = ri + n := by
  have := bufferPeek_sound (by decide) h
  rwa [padTo_one, zeros_zero, List.nil_append, alignUp_one] at this

theorem peekUint32_sound {e : Endian} {bs : Bytes} {ri ri' x : Nat}
    (h : peekUint32 e bs ri = .ok (x, ri')) :
    At bs ri (zeros (padTo ri 4) ++ putWord e 4 x) ∧ x < 256 ^ 4 ∧ ri' = alignUp ri 4 + 4 := by
  unfold peekUint32 at h
  split at h
  · exact absurd h (by simp)
  · rename_i q r hq
    simp only [Except.ok.injEq, Prod.mk.injEq] at h
    obtain ⟨rfl, rfl⟩ := h
    obtain ⟨hat, hlen, rfl⟩ := bufferPeek_sound (by decide) hq
    rw [putWord_getWord e hlen]
    refine ⟨hat, ?_, rfl⟩
    have := getWord_lt e q
    rwa [hlen] at this

theorem peekUint32_at {e : Endian} {bs : Bytes} {ri x : Nat} (hx : x < 256 ^ 4)
    (h : At bs ri (zeros (padTo ri 4) ++ putWord e 4 x)) :
    peekUint32 e bs ri = .ok (x, alignUp ri 4 + 4) := by
  simp only [peekUint32, bufferPeek_at (by decide) (length_putWord e 4 x) h,
    getWord_putWord_of_lt e hx]

theorem validateNul_iff {s : Str} {q : Bytes} (h : q.length = s.length + 1)
    (hs : q.take s.length = s) : validateNul q s.length = true ↔ q = s ++ [0] ∧ (0 : UInt8) ∉ s := by
  have hq : q = s ++ [charAt q s.length] := by
    conv_lhs => rw [← List.take_append_drop s.length q, hs]
    congr 1
    obtain ⟨x, hx⟩ := List.length_eq_one_iff.mp
      (by rw [List.length_drop]; omega : (q.drop s.length).length = 1)
    rw [hx, charAt_drop, hx]
    rfl
  simp only [validateNul, hs, Bool.and_eq_true, Bool.not_eq_true', List.contains_eq_mem,
    decide_eq_false_iff_not, decide_eq_true_eq]
  constructor
  · rintro ⟨h0, hz⟩
    rw [hz] at hq
    exact ⟨hq, h0⟩
  · rintro ⟨rfl, h0⟩
    exact ⟨h0, by rw [charAt_append_length]; rfl⟩

theorem validateNul_sound {q : Bytes} {l : Nat} (hl : q.length = l + 1)
    (h : validateNul q l = true) :
    q = q.take l ++ [0] ∧ (0 : UInt8) ∉ q.take l ∧ (q.take l).length = l := by
  have hlen : (q.take l).length = l := by rw [List.length_take]; omega
  have := (validateNul_iff (q := q) (s := q.take l) (by omega) (by rw [hlen])).mp
    (by rwa [hlen])
  exact ⟨this.1, this.2, hlen⟩

theorem validateNul_at {s : Str} (h0 : (0 : UInt8) ∉ s) :
    validateNul (s ++ [0]) s.length = true :=
  (validateNul_iff (by simp) (by simp)).mpr ⟨rfl, h0⟩

theorem peekString_sound {e : Endian} {validate : Str → Bool} {bs : Bytes} {ri ri' : Nat}
    {s : Str} (h : peekString e validate bs ri = .ok (s, ri')) :
    At bs ri (zeros (padTo ri 4) ++ strBytes e s) ∧ (0 : UInt8) ∉ s ∧ validate s = true ∧
      s.length < uint32Max ∧ ri' = alignUp ri 4 + (strBytes e s).length := by
  unfold peekString at h
  split at h
  · exact absurd h (by simp)
  · rename_i l r hl
    obtain ⟨hat, hlt, rfl⟩ := peekUint32_sound hl
    split_ifs at h with hmax
    split at h
    · exact absurd h (by simp)
    · rename_i q r hq
      obtain ⟨hqat, hqlen, rfl⟩ := bufferPeek_sound_one hq
      split_ifs at h with hv
      simp only [Except.ok.injEq, Prod.mk.injEq] at h
      obtain ⟨rfl, rfl⟩ := h
      rw [Bool.and_eq_true] at hv
      obtain ⟨hqs, h0, hlen⟩ := validateNul_sound hqlen hv.1
      have h256 : (256 : Nat) ^ 4 = uint32Max + 1 := by decide
      refine ⟨?_, h0, hv.2, by omega, ?_⟩
      · rw [strBytes, hlen, ← hqs, ← List.append_assoc]
        refine at_append.mpr ⟨hat, ?_⟩
        rw [List.length_append, length_zeros, length_putWord, ← Nat.add_assoc,
          add_padTo ri (by decide)]
        exact hqat
      · simp only [strBytes, List.length_append, length_putWord, List.length_singleton, hlen]
        omega

theorem peekString_at {e : Endian} (validate : Str → Bool) {bs : Bytes} {ri : Nat} {s : Str}
    (h : At bs ri (zeros (padTo ri 4) ++ strBytes e s)) (h0 : (0 : UInt8) ∉ s)
    (hlt : s.length < uint32Max) :
    peekString e validate bs ri =
      if validate s then .ok (s, alignUp ri 4 + (strBytes e s).length) else .error .ebadmsg := by
  rw [strBytes, ← List.append_assoc] at h
  obtain ⟨hw, hs⟩ := at_append.mp h
  rw [List.length_append, length_zeros, length_putWord, ← Nat.add_assoc,
    add_padTo ri (by decide)] at hs
  have h256 : (256 : Nat) ^ 4 = uint32Max + 1 := by decide
  have hq : (s ++ [0]).length = s.length + 1 := by simp
  simp only [peekString, peekUint32_at (by omega : s.length < 256 ^ 4) hw,
    bufferPeek_at_one hq hs, validateNul_at h0, Bool.true_and, List.take_left]
  rw [if_neg (by omega)]
  simp only [strBytes, List.length_append, length_putWord, List.length_singleton]
  congr 3
  omega

theorem peekSignature_sound {bs : Bytes} {ri ri' : Nat} {s : Str}
    (h : peekSignature bs ri = .ok (s, ri')) :
    At bs ri (sigBytes s) ∧ (0 : UInt8) ∉ s ∧ validSignature s = true ∧ s.length ≤ 254 ∧
      ri' = ri + (sigBytes s).length := by
  unfold peekSignature at h
  split at h
  · exact absurd h (by simp)
  · rename_i q r hq
    obtain ⟨hat, hqlen, rfl⟩ := bufferPeek_sound_one hq
    obtain ⟨b, rfl⟩ := List.length_eq_one_iff.mp hqlen
    have hb : (charAt [b] 0).toNat = b.toNat := rfl
    simp only [hb] at h
    split_ifs at h with hmax
    split at h
    · exact absurd h (by simp)
    · rename_i q r hq'
      obtain ⟨hqat, hqlen', rfl⟩ := bufferPeek_sound_one hq'
      split_ifs at h with hv
      simp only [Except.ok.injEq, Prod.mk.injEq] at h
      obtain ⟨rfl, rfl⟩ := h
      rw [Bool.and_eq_true] at hv
      obtain ⟨hqs, h0, hlen⟩ := validateNul_sound hqlen' hv.1
      have hb' : b.toNat < 256 := b.toNat_lt
      refine ⟨?_, h0, hv.2, by omega, ?_⟩
      · rw [sigBytes, hlen, ← hqs, ← List.singleton_append, UInt8.ofNat_toNat]
        exact at_append.mpr ⟨hat, hqat⟩
      · rw [length_sigBytes, hlen]
        omega

theorem peekSignature_at {bs : Bytes} {ri : Nat} {s : Str} (h : At bs ri (sigBytes s))
    (h0 : (0 : UInt8) ∉ s) (hlen : s.length ≤ 254) :
    peekSignature bs ri =
      if validSignature s then .ok (s, ri + (sigBytes s).length) else .error .ebadmsg := by
  rw [sigBytes, ← List.singleton_append] at h
  obtain ⟨hb, hs⟩ := at_append.mp h
  have hq : (s ++ [0]).length = s.length + 1 := by simp
  have hl : (charAt [UInt8.ofNat s.length] 0).toNat = s.length := by
    rw [charAt_cons_zero, UInt8.toNat_ofNat']
    omega
  rw [List.length_singleton] at hs
  have hb' := bufferPeek_at_one (n := 1) rfl hb
  simp only [peekSignature, hb', hl, bufferPeek_at_one hq hs, validateNul_at h0, Bool.true_and,
    List.take_left]
  rw [if_neg (by omega), length_sigBytes]
  congr 3
  omega

theorem peekSignature_long {bs : Bytes} {ri : Nat} {s : Str} (h : At bs ri (sigBytes s))
    (h0 : (0 : UInt8) ∉ s) (hlen : 255 ≤ s.length) (r : Str × Nat) :
    peekSignature bs ri ≠ .ok r := by
  intro hok
  obtain ⟨s', ri'⟩ := r
  obtain ⟨hat, -, -, hlen', -⟩ := peekSignature_sound hok
  -- the two readings agree on the byte where the shorter one has its NUL
  have hlb := hat.le_length
  rw [sigBytes] at hat h
  have hcut : s ++ [0] = s.take s'.length ++ (s.drop s'.length ++ [0]) := by
    rw [← List.append_assoc, List.take_append_drop]
  have hx : (UInt8.ofNat s'.length :: s').length =
      (UInt8.ofNat s.length :: s.take s'.length).length := by
    rw [List.length_cons, List.length_cons, List.length_take]
    omega
  rw [← List.cons_append] at hat
  rw [hcut, ← List.cons_append] at h
  obtain ⟨-, hz⟩ := at_append.mp hat
  obtain ⟨-, hd⟩ := at_append.mp h
  rw [← hx] at hd
  obtain ⟨c, t, hct⟩ : ∃ c t, s.drop s'.length = c :: t := by
    cases hc : s.drop s'.length with
    | nil =>
      have := congrArg List.length hc
      rw [List.length_drop, List.length_nil] at this
      omega
    | cons c t => exact ⟨c, t, rfl⟩
  rw [hct] at hd
  have hc0 := (at_append.mp (show At bs _ ([c] ++ (t ++ [0])) from hd)).1.unique hz rfl
  have hmem : c ∈ s := by
    have : c ∈ s.drop s'.length := by rw [hct]; simp
    exact List.mem_of_mem_drop this
  rw [List.cons.inj hc0 |>.1] at hmem
  exact h0 hmem

end Basu
