import Basu.Signature

/-! The type grammar of the specification, as a relation on strings, and the checks of
`bus-signature.c` measured against it. -/

namespace Basu

mutual

/-- A string that is one complete type, with at most `a` arrays and at most `d` structures and
dictionary entries inside each other. A dictionary entry stands in an array, or where `dict` allows
it. -/
inductive CompleteType : Bool → Nat → Nat → Str → Prop
  | basic {dict : Bool} {a d : Nat} (b : Basic) : CompleteType dict a d [b.code]
  | variant {dict : Bool} {a d : Nat} : CompleteType dict a d [sdBusTypeVariant]
  | array {dict : Bool} {a d : Nat} {s : Str} :
    CompleteType true a d s → CompleteType dict (a + 1) d (sdBusTypeArray :: s)
  | struct {dict : Bool} {a d : Nat} {s : Str} : s ≠ [] → CompleteTypes false a d s →
      CompleteType dict a (d + 1) (sdBusTypeStructBegin :: (s ++ [sdBusTypeStructEnd]))
  | dictEntry {a d : Nat} {s : Str} (k : Basic) : CompleteType false a d s → CompleteType true a (d + 1)
      (sdBusTypeDictEntryBegin :: k.code :: (s ++ [sdBusTypeDictEntryEnd]))

inductive CompleteTypes : Bool → Nat → Nat → Str → Prop
  | nil {dict : Bool} {a d : Nat} : CompleteTypes dict a d []
  | cons {dict : Bool} {a d : Nat} {s r : Str} :
    CompleteType dict a d s → CompleteTypes dict a d r → CompleteTypes dict a d (s ++ r)

end

variable {dict dict' : Bool} {s : Str}

mutual

theorem CompleteType.tree : ∀ {dict : Bool} {a d : Nat} {s : Str}, CompleteType dict a d s →
    ∀ a' d', a + a' = maxDepth → d + d' = maxDepth →
    ∃ t : Ty, t.sig = s ∧ t.Fits dict a' d'
  | _, _, _, _, .basic b, _, _, _, _ => ⟨.basic b, by rw [Ty.sig], by rw [Ty.Fits]; trivial⟩
  | _, _, _, _, .variant, _, _, _, _ => ⟨.variant, by rw [Ty.sig], by rw [Ty.Fits]; trivial⟩
  | _, _, _, _, .array h, a', d', ha, hd => by
    obtain ⟨t, rfl, hfit⟩ := h.tree (a' + 1) d' (by omega) hd
    refine ⟨.array t, by rw [Ty.sig], ?_⟩
    rw [Ty.Fits]
    exact ⟨by omega, hfit⟩
  | _, _, _, _, .struct hne h, a', d', ha, hd => by
    obtain ⟨ts, rfl, hfit⟩ := h.trees a' (d' + 1) ha (by omega)
    refine ⟨.struct ts, by rw [Ty.sig], ?_⟩
    rw [Ty.Fits, Ty.allFit_iff]
    refine ⟨by omega, ?_, hfit⟩
    rintro rfl
    exact hne rfl
  | _, _, _, _, .dictEntry k h, a', d', ha, hd => by
    obtain ⟨t, rfl, hfit⟩ := h.tree a' (d' + 1) ha (by omega)
    refine ⟨.dictEntry k t, by rw [Ty.sig], ?_⟩
    rw [Ty.Fits]
    exact ⟨rfl, by omega, hfit⟩

theorem CompleteTypes.trees : ∀ {dict : Bool} {a d : Nat} {s : Str}, CompleteTypes dict a d s →
    ∀ a' d', a + a' = maxDepth → d + d' = maxDepth →
    ∃ ts, Ty.sigs ts = s ∧ ∀ t ∈ ts, Ty.Fits t dict a' d'
  | _, _, _, _, .nil, _, _, _, _ => ⟨[], by rw [Ty.sigs], by simp⟩
  | _, _, _, _, .cons h hs, a', d', ha, hd => by
    obtain ⟨t, rfl, hfit⟩ := h.tree a' d' ha hd
    obtain ⟨ts, rfl, hfits⟩ := hs.trees a' d' ha hd
    refine ⟨t :: ts, by rw [Ty.sigs], ?_⟩
    intro u hu
    rcases List.mem_cons.mp hu with rfl | hu
    · exact hfit
    · exact hfits u hu

end

mutual

theorem Ty.Fits.completeType : ∀ {t : Ty} {dict : Bool} {a d a' d' : Nat}, t.Fits dict a' d' →
    a + a' = maxDepth → d + d' = maxDepth → CompleteType dict a d t.sig
  | .basic b, _, _, _, _, _, _, _, _ => by
    rw [Ty.sig]
    exact .basic b
  | .variant, _, _, _, _, _, _, _, _ => by
    rw [Ty.sig]
    exact .variant
  | .array t, _, a, _, a', _, h, ha, hd => by
    rw [Ty.Fits] at h
    obtain ⟨a, rfl⟩ : ∃ n, a = n + 1 := ⟨a - 1, by omega⟩
    rw [Ty.sig]
    exact .array (h.2.completeType (by omega) hd)
  | .struct ts, _, _, d, _, d', h, ha, hd => by
    rw [Ty.Fits] at h
    obtain ⟨hlt, hne, hall⟩ := h
    obtain ⟨d, rfl⟩ : ∃ n, d = n + 1 := ⟨d - 1, by omega⟩
    have hpos := Ty.sigs_pos hne
    rw [Ty.sig]
    refine .struct ?_ (Ty.AllFit.completeTypes hall ha (by omega))
    intro h0
    rw [h0] at hpos
    exact absurd hpos (by simp)
  | .dictEntry k v, _, _, d, _, d', h, ha, hd => by
    rw [Ty.Fits] at h
    obtain ⟨rfl, hlt, hfit⟩ := h
    obtain ⟨d, rfl⟩ : ∃ n, d = n + 1 := ⟨d - 1, by omega⟩
    rw [Ty.sig]
    exact .dictEntry k (hfit.completeType ha (by omega))

theorem Ty.AllFit.completeTypes : ∀ {ts : List Ty} {a d a' d' : Nat}, Ty.AllFit ts a' d' →
    a + a' = maxDepth → d + d' = maxDepth → CompleteTypes false a d (Ty.sigs ts)
  | [], _, _, _, _, _, _, _ => by
    rw [Ty.sigs]
    exact .nil
  | t :: ts, _, _, _, _, h, ha, hd => by
    rw [Ty.AllFit] at h
    rw [Ty.sigs]
    exact .cons (h.1.completeType ha hd) (Ty.AllFit.completeTypes h.2 ha hd)

end

theorem completeType_iff : CompleteType dict maxDepth maxDepth s ↔
    ∃ t : Ty, s = t.sig ∧ t.Fits dict 0 0 := by
  constructor
  · intro h
    obtain ⟨t, ht, hfit⟩ := h.tree 0 0 rfl rfl
    exact ⟨t, ht.symm, hfit⟩
  · rintro ⟨t, rfl, hfit⟩
    exact hfit.completeType rfl rfl

theorem completeTypes_iff : CompleteTypes dict maxDepth maxDepth s ↔
    ∃ ts, s = Ty.sigs ts ∧ ∀ t ∈ ts, Ty.Fits t dict 0 0 := by
  constructor
  · intro h
    obtain ⟨ts, hts, hfit⟩ := h.trees 0 0 rfl rfl
    exact ⟨ts, hts.symm, hfit⟩
  · rintro ⟨ts, rfl, hfit⟩
    induction ts with
    | nil =>
      rw [Ty.sigs]
      exact .nil
    | cons t ts ih =>
      rw [Ty.sigs]
      have ht := hfit t List.mem_cons_self
      exact .cons (ht.completeType rfl rfl) (ih fun u hu => hfit u (List.mem_cons_of_mem _ hu))

theorem CompleteType.prefix_unique {p q : Str} (hp : CompleteType dict maxDepth maxDepth p)
    (hq : CompleteType dict' maxDepth maxDepth q) (hps : p <+: s) (hqs : q <+: s) : p = q := by
  obtain ⟨t, rfl, -⟩ := completeType_iff.mp hp
  obtain ⟨u, rfl, -⟩ := completeType_iff.mp hq
  obtain ⟨r, rfl⟩ := hps
  obtain ⟨r', h⟩ := hqs
  rw [(Ty.sig_append_inj u t r' r h).1]

theorem signatureElementLength_iff {n : Nat} : signatureElementLength s = some n ↔
    ∃ p, p <+: s ∧ CompleteType true maxDepth maxDepth p ∧ n = p.length := by
  constructor
  · intro h
    obtain ⟨t, hs, hn, hfit⟩ := signatureElementLength_sound h
    refine ⟨t.sig, ⟨s.drop n, hs.symm⟩, completeType_iff.mpr ⟨t, rfl, hfit⟩, hn⟩
  · rintro ⟨p, ⟨r, rfl⟩, hp, rfl⟩
    obtain ⟨t, rfl, hfit⟩ := completeType_iff.mp hp
    exact signatureElementLength_sig r hfit

structure ChecksGrammar (s : Str) : Prop where
  single : ∀ dict, signatureIsSingle s dict = true ↔ CompleteType dict maxDepth maxDepth s
  pair : signatureIsPair s = true ↔
    ∃ (k : Basic) (v : Str), s = k.code :: v ∧ CompleteType false maxDepth maxDepth v
  valid : ∀ dict, signatureIsValid s dict = true ↔
    CompleteTypes dict maxDepth maxDepth s ∧ s.length ≤ 255
  elementLength : ∀ n, signatureElementLength s = some n ↔
    ∃ p, p <+: s ∧ CompleteType true maxDepth maxDepth p ∧ n = p.length
  unique : ∀ p q, p <+: s → q <+: s → CompleteType true maxDepth maxDepth p →
    CompleteType true maxDepth maxDepth q → p = q

/-- The checks accept the strings of the grammar and no others. A C string has no NUL inside. -/
theorem checksGrammar (h0 : (0 : UInt8) ∉ s) : ChecksGrammar s where
  single dict := by
    rw [signatureIsSingle_iff h0, completeType_iff]
  pair := by
    rw [signatureIsPair_iff h0]
    constructor
    · rintro ⟨k, v, rfl, hfit⟩
      exact ⟨k, v.sig, rfl, completeType_iff.mpr ⟨v, rfl, hfit⟩⟩
    · rintro ⟨k, v, rfl, hv⟩
      obtain ⟨t, rfl, hfit⟩ := completeType_iff.mp hv
      exact ⟨k, t, rfl, hfit⟩
  valid dict := by
    rw [signatureIsValid_iff h0, completeTypes_iff]
    constructor
    · rintro ⟨ts, hs, hfit, hlen⟩
      exact ⟨⟨ts, hs, hfit⟩, hlen⟩
    · rintro ⟨⟨ts, hs, hfit⟩, hlen⟩
      exact ⟨ts, hs, hfit, hlen⟩
  elementLength _ := signatureElementLength_iff
  unique _ _ hp hq hcp hcq := hcp.prefix_unique hcq hp hq

theorem checksGrammar_vardict : ChecksGrammar [97, 123, 115, 118, 125] :=
  checksGrammar (by decide)

end Basu
