import Basu.Hex
import Basu.Names

/-! The capability sets of credentials (`bus-creds.c`): four masks in one array of words. -/

namespace Basu.Creds
open Lib

/-- `DIV_ROUND_UP` on 64 bits. -/
def divRoundUp (x y : Nat) : Nat := (x + y - 1) % 2 ^ 64 / y

inductive CapSet
  | inheritable | permitted | effective | bounding
  deriving DecidableEq

def CapSet.offset : CapSet → Nat
  | .inheritable => 0
  | .permitted => 1
  | .effective => 2
  | .bounding => 3

abbrev Words := List (BitVec 32)

inductive CapError
  | einval | outside
  deriving DecidableEq

def isWhitespace (c : UInt8) : Bool := c = 32 || c = 9 || c = 10 || c = 13

def hexWord : Nat → BitVec 32 → Str → Option (BitVec 32 × Str)
  | 0, v, p => some (v, p)
  | j + 1, v, p =>
    match unhexchar (charAt p 0) with
    | none => none
    | some t => hexWord j (v <<< 4 ||| BitVec.ofNat 32 t.toNat) (p.drop 1)

def storeWords (base : Nat) : Nat → Words → Str → Except CapError Words
  | 0, ws, _ => .ok ws
  | k + 1, ws, p =>
    match hexWord 8 0 p with
    | none => .error .einval
    | some (v, p) =>
      if base + k < ws.length then storeWords base k (ws.set (base + k) v) p else .error .outside

def parseCaps (lastCap : Nat) (capability : Option Words) (set : CapSet) (p : Str) :
    Except CapError Words :=
  let max := divRoundUp lastCap 32
  let p := p.dropWhile isWhitespace
  if p.length % 8 ≠ 0 then .error .einval
  else if max < p.length / 8 then .error .einval
  else
    storeWords (set.offset * max) (p.length / 8) (capability.getD (List.replicate (max * 4) 0)) p

def hasCap (lastCap : Nat) (ws : Words) (set : CapSet) (capability : Nat) : Except CapError Bool :=
  if lastCap < capability then .ok false
  else
    match ws[set.offset * divRoundUp lastCap 32 + capability / 32]? with
    | none => .error .outside
    | some w => .ok (w &&& 1#32 <<< (capability % 32) ≠ 0)

def parseAll (lastCap : Nat) (text : CapSet → Str) : Except CapError Words :=
  match parseCaps lastCap none .inheritable (text .inheritable) with
  | .error e => .error e
  | .ok ws =>
    match parseCaps lastCap (some ws) .permitted (text .permitted) with
    | .error e => .error e
    | .ok ws =>
      match parseCaps lastCap (some ws) .effective (text .effective) with
      | .error e => .error e
      | .ok ws => parseCaps lastCap (some ws) .bounding (text .bounding)

/-! ## The masks of `/proc` -/

def hexDigits : Nat → Nat → Str
  | 0, _ => []
  | k + 1, m => hexchar (m / 16 ^ k % 16).toUInt8 :: hexDigits k m

def procMask (words mask : Nat) : Str := 9 :: hexDigits (8 * words) mask

def Tells (lastCap words : Nat) (mask : CapSet → Nat) : Prop :=
  ∃ ws, parseAll lastCap (fun set => procMask words (mask set)) = .ok ws ∧
    ∀ set n, n ≤ lastCap → n < 2 ^ 31 → hasCap lastCap ws set n = .ok ((mask set).testBit n)

theorem ofNat_shift_or (v : Nat) {t : Nat} (ht : t < 16) :
    BitVec.ofNat 32 v <<< 4 ||| BitVec.ofNat 32 t = BitVec.ofNat 32 (v * 16 + t) := by
  refine BitVec.eq_of_toNat_eq ?_
  have hshift : v % 2 ^ 32 * 2 ^ 4 % 2 ^ 32 = (v % 2 ^ 28) <<< 4 := by
    rw [Nat.shiftLeft_eq]
    omega
  rw [BitVec.toNat_or, BitVec.toNat_shiftLeft, BitVec.toNat_ofNat, BitVec.toNat_ofNat,
    BitVec.toNat_ofNat, Nat.shiftLeft_eq, hshift, Nat.mod_eq_of_lt (show t < 2 ^ 32 by omega),
    ← Nat.shiftLeft_add_eq_or_of_lt (show t < 2 ^ 4 by omega), Nat.shiftLeft_eq]
  omega

theorem unhexchar_digit : ∀ d < 16, unhexchar (hexchar d.toUInt8) = some d.toUInt8 := by decide

theorem toNat_digit : ∀ d < 16, d.toUInt8.toNat = d := by decide

theorem hexWord_digits (r : Str) (m K : Nat) : ∀ j v : Nat,
    hexWord j (BitVec.ofNat 32 v) (hexDigits (K + j) m ++ r) =
      some (BitVec.ofNat 32 (v * 16 ^ j + m / 16 ^ K % 16 ^ j), hexDigits K m ++ r)
  | 0, v => by
    rw [hexWord, Nat.pow_zero, Nat.mod_one, Nat.mul_one]
    rfl
  | j + 1, v => by
    have hd : m / 16 ^ (K + j) % 16 < 16 := Nat.mod_lt _ (by decide)
    rw [← Nat.add_assoc, hexDigits, List.cons_append, hexWord, charAt_cons_zero,
      unhexchar_digit _ hd]
    simp only
    rw [toNat_digit _ hd, ofNat_shift_or v hd, List.drop_one, List.tail_cons,
      hexWord_digits r m K j]
    have hvalue : (v * 16 + m / 16 ^ (K + j) % 16) * 16 ^ j + m / 16 ^ K % 16 ^ j =
        v * 16 ^ (j + 1) + m / 16 ^ K % 16 ^ (j + 1) := by
      rw [Nat.mod_pow_succ, Nat.div_div_eq_div_mul, ← Nat.pow_add, Nat.pow_succ]
      ring
    rw [hvalue]

def maskWord (m k : Nat) : BitVec 32 := BitVec.ofNat 32 (m / 2 ^ (32 * k))

theorem hexWord_mask (m k : Nat) :
    hexWord 8 0 (hexDigits (8 * (k + 1)) m) = some (maskWord m k, hexDigits (8 * k) m) := by
  have h := hexWord_digits [] m (8 * k) 8 0
  have hword : BitVec.ofNat 32 (0 * 16 ^ 8 + m / 16 ^ (8 * k) % 16 ^ 8) = maskWord m k := by
    rw [maskWord, show (16 : Nat) = 2 ^ 4 from rfl, ← Nat.pow_mul, ← Nat.pow_mul,
      show 4 * (8 * k) = 32 * k by omega, Nat.zero_mul, Nat.zero_add]
    exact BitVec.eq_of_toNat_eq (Nat.mod_mod _ _)
  rwa [hword, List.append_nil, List.append_nil] at h

theorem length_hexDigits (m : Nat) : ∀ k, (hexDigits k m).length = k
  | 0 => rfl
  | k + 1 => congrArg (· + 1) (length_hexDigits m k)

theorem maskWord_bit (m n : Nat) :
    decide (maskWord m (n / 32) &&& 1#32 <<< (n % 32) ≠ 0) = m.testBit n := by
  have hlt : n % 32 < 32 := Nat.mod_lt _ (by decide)
  have hbit : (maskWord m (n / 32)).getLsbD (n % 32) = m.testBit n := by
    rw [maskWord, BitVec.getLsbD_ofNat, decide_eq_true hlt, Bool.true_and, Nat.testBit_div_two_pow,
      Nat.mod_add_div]
  have hand : maskWord m (n / 32) &&& 1#32 <<< (n % 32) =
      if (maskWord m (n / 32)).getLsbD (n % 32) then BitVec.twoPow 32 (n % 32) else 0#32 :=
    BitVec.and_twoPow _ _
  rw [hand, hbit]
  cases m.testBit n with
  | true =>
    refine decide_eq_true fun h0 => ?_
    have hone := congrArg (fun w => BitVec.getLsbD w (n % 32)) h0
    simp [hlt] at hone
  | false => rfl

theorem storeWords_mask (m base : Nat) : ∀ (k : Nat) (ws : Words), base + k ≤ ws.length →
    ∃ ws', storeWords base k ws (hexDigits (8 * k) m) = .ok ws' ∧ ws'.length = ws.length ∧
      ∀ i, ws'[i]? = if base ≤ i ∧ i < base + k then some (maskWord m (i - base)) else ws[i]?
  | 0, ws, _ => ⟨ws, rfl, rfl, fun i => (if_neg (by omega)).symm⟩
  | k + 1, ws, hlen => by
    have hlt : base + k < ws.length := by omega
    obtain ⟨ws', hstore, hlength, hget⟩ :=
      storeWords_mask m base k (ws.set (base + k) (maskWord m k)) (by rw [List.length_set]; omega)
    refine ⟨ws', ?_, hlength.trans List.length_set, fun i => ?_⟩
    · rw [storeWords, hexWord_mask]
      simp only
      rw [if_pos hlt, hstore]
    · rw [hget, List.getElem?_set]
      by_cases hin : base ≤ i ∧ i < base + k
      · rw [if_pos hin, if_pos (by omega)]
      · rw [if_neg hin]
        by_cases hi : base + k = i
        · rw [if_pos hi, if_pos hlt, if_pos (by omega), ← hi, Nat.add_sub_cancel_left]
        · rw [if_neg hi, if_neg (by omega)]

theorem isWhitespace_digit : ∀ d < 16, isWhitespace (hexchar d.toUInt8) = false := by decide

theorem dropWhile_procMask (words m : Nat) :
    (procMask words m).dropWhile isWhitespace = hexDigits (8 * words) m := by
  rw [procMask, List.dropWhile_cons_of_pos (by decide)]
  cases 8 * words with
  | zero => rfl
  | succ k =>
    rw [hexDigits, List.dropWhile_cons_of_neg]
    rw [isWhitespace_digit _ (Nat.mod_lt _ (by decide))]
    exact Bool.false_ne_true

section
variable {lastCap words : Nat}

theorem parseCaps_long (h : divRoundUp lastCap 32 < words) (capability : Option Words)
    (set : CapSet) (m : Nat) :
    parseCaps lastCap capability set (procMask words m) = .error .einval := by
  rw [parseCaps, dropWhile_procMask, length_hexDigits, if_neg (by omega), if_pos (by omega)]

theorem parseCaps_mask (h : divRoundUp lastCap 32 = words) {capability : Option Words}
    (hlen : ∀ ws, capability = some ws → ws.length = words * 4) (set : CapSet) (m : Nat)
    {base : Nat}     (hbase : set.offset * words = base) :
    ∃ ws', parseCaps lastCap capability set (procMask words m) = .ok ws' ∧
      ws'.length = words * 4 ∧
      ∀ i, ws'[i]? =
        if base ≤ i ∧ i < base + words then some (maskWord m (i - base))
        else (capability.getD (List.replicate (words * 4) 0))[i]? := by
  subst hbase
  have hlength : (capability.getD (List.replicate (words * 4) 0)).length = words * 4 := by
    cases capability with
    | none => exact List.length_replicate
    | some ws => exact hlen ws rfl
  have hfits : set.offset * words + words ≤ words * 4 := by
    cases set <;> simp only [CapSet.offset] <;> omega
  obtain ⟨ws', hstore, hws', hget⟩ := storeWords_mask m (set.offset * words) words
    (capability.getD (List.replicate (words * 4) 0)) (by rw [hlength]; exact hfits)
  refine ⟨ws', ?_, hws'.trans hlength, hget⟩
  rw [parseCaps, dropWhile_procMask, length_hexDigits, h, if_neg (by omega), if_neg (by omega),
    Nat.mul_div_cancel_left _ (by decide), hstore]

theorem parseAll_masks (h : divRoundUp lastCap 32 = words) (mask : CapSet → Nat) :
    ∃ ws, parseAll lastCap (fun set => procMask words (mask set)) = .ok ws ∧
      ∀ set k, k < words → ws[set.offset * words + k]? = some (maskWord (mask set) k) := by
  have hnone : ∀ ws : Words, (none : Option Words) = some ws → ws.length = words * 4 := nofun
  have hsome : ∀ {ws : Words}, ws.length = words * 4 →
      ∀ ws', some ws = some ws' → ws'.length = words * 4 :=
    fun hlen _ h => Option.some.inj h ▸ hlen
  obtain ⟨w₁, h₁, hl₁, hg₁⟩ :=
    parseCaps_mask h hnone .inheritable (mask .inheritable) (Nat.zero_mul _)
  obtain ⟨w₂, h₂, hl₂, hg₂⟩ :=
    parseCaps_mask h (hsome hl₁) .permitted (mask .permitted) (Nat.one_mul _)
  obtain ⟨w₃, h₃, hl₃, hg₃⟩ := parseCaps_mask h (hsome hl₂) .effective (mask .effective)
    (show CapSet.effective.offset * words = 2 * words from rfl)
  obtain ⟨w₄, h₄, -, hg₄⟩ := parseCaps_mask h (hsome hl₃) .bounding (mask .bounding)
    (show CapSet.bounding.offset * words = 3 * words from rfl)
  simp only [Option.getD_some] at hg₂ hg₃ hg₄
  refine ⟨w₄, ?_, fun set k hk => ?_⟩
  · rw [parseAll, h₁]
    simp only
    rw [h₂]
    simp only
    rw [h₃]
    exact h₄
  · cases set with
    | inheritable =>
      rw [show CapSet.inheritable.offset * words + k = k by rw [CapSet.offset]; omega, hg₄,
        if_neg (by omega), hg₃, if_neg (by omega), hg₂, if_neg (by omega), hg₁, if_pos (by omega)]
      rfl
    | permitted =>
      rw [show CapSet.permitted.offset * words + k = words + k by rw [CapSet.offset]; omega, hg₄,
        if_neg (by omega), hg₃, if_neg (by omega), hg₂, if_pos (by omega), Nat.add_sub_cancel_left]
    | effective =>
      rw [show CapSet.effective.offset * words + k = 2 * words + k from rfl, hg₄,
        if_neg (by omega), hg₃, if_pos (by omega), Nat.add_sub_cancel_left]
    | bounding =>
      rw [show CapSet.bounding.offset * words + k = 3 * words + k from rfl, hg₄,
        if_pos (by omega), Nat.add_sub_cancel_left]

end

/-- The sets are told exactly if the words that are allocated are those of the masks. -/
theorem tells_iff {lastCap words : Nat} (hcap : lastCap < 2 ^ 64) (hwords : lastCap < 32 * words)
    (mask : CapSet → Nat) :
    Tells lastCap words mask ↔
      lastCap % 32 ≠ 0 ∧ words = lastCap / 32 + 1 ∧ lastCap + 31 < 2 ^ 64 := by
  have hmax : divRoundUp lastCap 32 = (lastCap + 31) % 2 ^ 64 / 32 := rfl
  constructor
  · rintro ⟨ws, hparse, -⟩
    have hle : ¬divRoundUp lastCap 32 < words := by
      intro hlt
      rw [parseAll, parseCaps_long hlt] at hparse
      exact absurd hparse nofun
    omega
  · rintro ⟨hmod, hw, hlt⟩
    have hdiv : divRoundUp lastCap 32 = words := by omega
    obtain ⟨ws, hparse, hget⟩ := parseAll_masks hdiv mask
    refine ⟨ws, hparse, fun set n hn _ => ?_⟩
    rw [hasCap, if_neg (not_lt.mpr hn), hdiv, hget set (n / 32) (by omega)]
    simp only
    rw [maskWord_bit]

theorem tells_iff_two :
    Tells 40 2 (fun _ => 0x1ffffffffff) ↔ 40 % 32 ≠ 0 ∧ 2 = 40 / 32 + 1 ∧ 40 + 31 < 2 ^ 64 :=
  tells_iff (by decide) (by decide) _

/-- The last capability 32 needs a second word that is not allocated. -/
theorem not_tells : ¬Tells 32 2 fun _ => 0x1ffffffff := by
  rintro ⟨ws, hparse, -⟩
  rw [parseAll, parseCaps_long (by decide)] at hparse
  exact absurd hparse nofun

end Basu.Creds
