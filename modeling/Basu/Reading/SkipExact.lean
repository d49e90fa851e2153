import Basu.Reading.Skipped

/-! When `sd_bus_message_skip` does what reading the same types value by value does. -/

namespace Basu.Reading
open Lib GVariant

section Complete
variable {m m₁ m₂ : SdBusMessage} {types : Str}
variable {skip : SdBusMessage → Str → Except Stop Bool × SdBusMessage}
variable {elements : SdBusMessage → Str → Except Stop Unit × SdBusMessage}

theorem ReturnsZero.head (h : ReturnsZero m types) : charAt types 0 ≠ 0 := by
  cases h with
  | basic ht =>
    rintro h0
    rw [charAt_cons_zero] at h0
    rw [h0] at ht
    exact absurd ht (by decide)
  | array ht =>
    rw [charAt_cons_zero, ht]
    decide
  | variant ht =>
    rw [charAt_cons_zero, ht]
    decide
  | members ht =>
    rintro h0
    rw [charAt_cons_zero] at h0
    rw [h0] at ht
    exact absurd ht (by decide)

theorem ReturnsZero.skipFirst (h : ReturnsZero m types) :
    skipFirst skip elements m types = (.ok none, m) := by
  cases h with
  | basic ht h => rw [skipFirst_basic ht, h, andThen_ok, Option.map_none]
  | array ht hk h =>
    subst ht
    rw [skipFirst_array, hk]
    simp only [skipContainer, h, andThen_ok, if_true]
  | variant ht h =>
    subst ht
    rw [skipFirst_variant, h]
  | members ht hk h =>
    rw [skipFirst_members ht, hk]
    simp only [skipContainer, h, andThen_ok, if_true]

theorem ReturnsZero.skipTypes (h : ReturnsZero m types) (fuel : Nat) :
    skipTypes (fuel + 1) m types = (.ok false, m) := by
  unfold Reading.skipTypes skipBody
  rw [if_neg h.head, h.skipFirst, andThen_ok]

theorem skipTypes_nil (fuel : Nat) (m : SdBusMessage) :
    skipTypes (fuel + 1) m [] = (.ok false, m) := by
  unfold skipTypes skipBody
  exact if_pos rfl

theorem skipBody_some {rest : Str} {r : Except Stop Bool} (h0 : charAt types 0 ≠ 0)
    (h : skipFirst skip elements m types = (.ok (some rest), m₁)) (hr : skip m₁ rest = (r, m₂)) :
    skipBody skip elements m types = (r.map fun _ => true, m₂) := by
  cases r with
  | error e => simp only [skipBody, if_neg h0, h, hr, andThen_ok, andThen_error, Except.map]
  | ok c => simp only [skipBody, if_neg h0, h, hr, andThen_ok, Except.map]

end Complete

structure Skipping (m : SdBusMessage) (types : Str) (r : Except Stop Bool) (m' : SdBusMessage) :
    Prop where
  returns : r ≠ .error .running
  result : ∃ n, ∀ fuel, n ≤ fuel → skipTypes fuel m types = (r, m')

section Skipping
variable {m m₁ m₂ : SdBusMessage} {types : Str} {r r₁ r₂ : Except Stop Bool}

theorem Skipping.of_result {fuel : Nat} (h : skipTypes fuel m types = (r, m₁))
    (hr : r ≠ .error .running) : Skipping m types r m₁ :=
  ⟨hr, fuel, fun _ hle => skipTypes_mono hle h hr⟩

theorem Skipping.unique (h₁ : Skipping m types r₁ m₁) (h₂ : Skipping m types r₂ m₂) :
    r₁ = r₂ ∧ m₁ = m₂ := by
  obtain ⟨n₁, h₁⟩ := h₁.result
  obtain ⟨n₂, h₂⟩ := h₂.result
  have heq := (h₁ _ (le_max_left n₁ n₂)).symm.trans (h₂ _ (le_max_right n₁ n₂))
  exact ⟨congrArg Prod.fst heq, congrArg Prod.snd heq⟩

theorem Skipping.cons {t : UInt8} {rest : Str} {f : Bool → Bool} (ht : t ≠ 0)
    (hf : ∃ n, ∀ fuel, n ≤ fuel →
      skipFirst (skipTypes fuel) (skipElements fuel) m (t :: types) = (.ok (some rest), m₁))
    (hr : Skipping m₁ rest (r.map f) m₂) : Skipping m (t :: types) (r.map fun _ => true) m₂ := by
  obtain ⟨n₁, hf⟩ := hf
  obtain ⟨n₂, hr'⟩ := hr.result
  have hbody := skipBody_some (show charAt (t :: types) 0 ≠ 0 from ht) (hf _ (le_max_left n₁ n₂))
    (hr' _ (le_max_right n₁ n₂))
  have hmap : (r.map f).map (fun _ => true) = r.map fun _ => true := by cases r <;> rfl
  rw [hmap] at hbody
  refine @Skipping.of_result _ _ _ _ (max n₁ n₂ + 1) hbody ?_
  intro hc
  cases r with
  | error e =>
    cases hc
    exact hr.returns rfl
  | ok c => cases hc

end Skipping

/-- What the calls that read have done, skipping does, and it goes on with the types behind. -/
structure SkipsOver (b : Bool) (m : SdBusMessage) (types : Str) (m' : SdBusMessage) : Prop where
  onward : b = false → ∀ t₂ r m'', Skipping m' t₂ r m'' →
    Skipping m (types ++ t₂) (r.map fun c => !types.isEmpty || c) m''
  loop : b = true → types ≠ [] → ∃ fuel, skipElements fuel m types = (.ok (), m')

theorem SkipsOver.whole {m m' : SdBusMessage} {types : Str} (h : SkipsOver false m types m') :
    Skipping m types (.ok !types.isEmpty) m' := by
  have hw := h.onward rfl [] (.ok false) m' (.of_result (skipTypes_nil 0 m') (by simp))
  rw [List.append_nil, Except.map, Bool.or_false] at hw
  exact hw

theorem opensMembers_ne_zero {t : UInt8} (ht : opensMembers t = true) : t ≠ 0 := by
  rintro rfl
  exact absurd ht (by decide)

theorem take_ne_nil {s : Str} {k : Nat} (h : signatureElementLength s = some k) : s.take k ≠ [] := by
  obtain ⟨u, hu, rfl, -⟩ := signatureElementLength_sound h
  rw [hu, List.take_left]
  exact List.ne_nil_of_length_pos u.sig_pos

theorem Reads.skipsOver {b : Bool} {m m' : SdBusMessage} {types : Str} {items : List Item}
    (h : Reads b m types items m') : SkipsOver b m types m' := by
  induction h with
  | nil m =>
    refine ⟨fun _ t₂ r m'' hc => ?_, fun hb => by cases hb⟩
    cases r <;> exact hc
  | @basic _ _ _ t _ _ _ ht h hr ih =>
    refine ⟨fun _ t₂ r m'' hc => ?_, fun hb => by cases hb⟩
    have hne : t ≠ 0 := by
      rintro rfl
      exact absurd ht (by decide)
    refine .cons hne ⟨0, fun n _ => ?_⟩ (ih.onward rfl t₂ r m'' hc)
    rw [skipFirst_basic ht, h, andThen_ok]
    rfl
  | @array _ _ _ _ _ _ types k _ _ ht hk he hi hx hr ihi ihr =>
    refine ⟨fun _ t₂ r m'' hc => ?_, fun hb => by cases hb⟩
    subst ht
    obtain ⟨hle, hk'⟩ := signatureElementLength_append hk t₂
    obtain ⟨f, hf⟩ := ihi.loop rfl (take_ne_nil hk)
    rw [List.cons_append]
    refine .cons (by decide) ⟨f, fun n hn => ?_⟩ (ihr.onward rfl t₂ r m'' hc)
    have hf' := skipElements_mono hn hf (by simp)
    rw [skipFirst_array, hk']
    dsimp only
    rw [List.take_append_of_le_length hle, List.drop_append_of_le_length hle]
    exact skipContainer_ok he hf' hx _
  | @variant _ _ _ _ _ _ types s _ _ ht hp he hi hx hr ihi ihr =>
    refine ⟨fun _ t₂ r m'' hc => ?_, fun hb => by cases hb⟩
    subst ht
    obtain ⟨u, rfl⟩ := enters_variant_sig (sdBusMessagePeekType_some hp).2.text he
    have hne := List.ne_nil_of_length_pos u.sig_pos
    obtain ⟨f, hf⟩ := ihi.whole.result
    rw [List.cons_append]
    refine .cons (by decide) ⟨f, fun n hn => ?_⟩ (ihr.onward rfl t₂ r m'' hc)
    have hf' := hf n hn
    rw [List.isEmpty_eq_false_iff.mpr hne] at hf'
    rw [skipFirst_variant, hp]
    dsimp only
    rw [if_neg (fun h => h rfl)]
    refine skipContainer_ok he ?_ hx _
    rw [Option.getD_some, hf', andThen_ok]
    rfl
  | @members _ _ _ _ _ t types k _ _ ht hk he hi hx hr ihi ihr =>
    refine ⟨fun _ t₂ r m'' hc => ?_, fun hb => by cases hb⟩
    obtain ⟨hle, hk'⟩ := signatureElementLength_append hk t₂
    obtain ⟨f, hf⟩ := ihi.whole.result
    rw [List.cons_append]
    refine .cons (opensMembers_ne_zero ht) ⟨f, fun n hn => ?_⟩ (ihr.onward rfl t₂ r m'' hc)
    have hf' := hf n hn
    rw [skipFirst_members ht, ← List.cons_append, hk']
    dsimp only
    rw [membersOf_append hle, List.drop_append_of_le_length hle]
    refine skipContainer_ok he ?_ hx _
    rw [hf', andThen_ok]
  | @stop m s h =>
    refine ⟨fun hb => (by cases hb), fun _ _ => ⟨2, ?_⟩⟩
    have hs := h.skipTypes 0
    unfold skipElements elementsBody
    rw [hs, andThen_ok]
    exact if_pos rfl
  | @more m m₁ m₂ s items rest h hr ih ihr =>
    refine ⟨fun hb => (by cases hb), fun _ hne => ?_⟩
    obtain ⟨f₁, hf₁⟩ := ih.whole.result
    obtain ⟨f₂, hf₂⟩ := ihr.loop rfl hne
    have hf₁' := hf₁ _ (le_max_left f₁ f₂)
    have hf₂' := skipElements_mono (le_max_right f₁ f₂) hf₂ (by simp)
    refine ⟨max f₁ f₂ + 1, ?_⟩
    rw [List.isEmpty_eq_false_iff.mpr hne] at hf₁'
    unfold skipElements elementsBody
    rw [hf₁', andThen_ok]
    exact hf₂'

/-- What `sd_bus_message_skip` returns, with enough room. -/
structure Returns (m : SdBusMessage) (types : Option CStr) (r : Except Stop Bool)
    (m' : SdBusMessage) : Prop where
  returns : r ≠ .error .running
  result : ∃ n, ∀ fuel, n ≤ fuel → sdBusMessageSkip fuel m (types.map (·.1)) = (r, m')

def ReadsNext (m : SdBusMessage) : Option CStr → List Item → SdBusMessage → Prop
  | some types, items, m' => types.1 ≠ [] ∧ Reads false m types.1 items m'
  | none, items, m' => ∃ (u : Ty) (r : Str), m.last.rest = u.sig ++ r ∧ u.Fits true 0 0 ∧
    Reads false m u.sig items m'

def NothingNext (m : SdBusMessage) : Option CStr → Prop
  | some types => types.1 = [] ∨ ReturnsZero m types.1
  | none => Ends m

/-- The call returns, the assertion in it holds, it returns 1 where the types are read value by
value, with the message where that leaves it, and 0 where there is nothing to read. -/
structure SkipsAsRead (m : SdBusMessage) (types : Option CStr) : Prop where
  terminates : ∃ r m', Returns m types r m'
  asserts : ∀ m', ¬Returns m types (.error .crash) m'
  reads : ∀ m', Returns m types (.ok true) m' ↔ ∃ items, ReadsNext m types items m'
  nothing : ∀ m', Returns m types (.ok false) m' ↔ m' = m ∧ NothingNext m types

def EndsBetween (m : SdBusMessage) : Option CStr → Prop
  | some types => ∃ t₁ t₂ items m', types.1 = t₁ ++ t₂ ∧ t₁ ≠ [] ∧ Reads false m t₁ items m' ∧
    ReturnsZero m' t₂
  | none => False

theorem returns_some {m m' : SdBusMessage} {types : CStr} {r : Except Stop Bool} :
    Returns m (some types) r m' ↔ Skipping m types.1 r m' :=
  ⟨fun h => ⟨h.returns, h.result⟩, fun h => ⟨h.returns, h.result⟩⟩

theorem ReturnsZero.append {m : SdBusMessage} {types : Str} (h : ReturnsZero m types) (r : Str) :
    ReturnsZero m (types ++ r) := by
  cases h with
  | basic ht h => exact .basic ht h
  | array ht hk h =>
    obtain ⟨hle, hk'⟩ := signatureElementLength_append hk r
    rw [← List.take_append_of_le_length hle] at h
    exact .array ht hk' h
  | variant ht h => exact .variant ht h
  | members ht hk h =>
    obtain ⟨hle, hk'⟩ := signatureElementLength_append hk r
    rw [← membersOf_append hle r] at h
    exact .members ht hk' h

theorem skipping_invalid (m : SdBusMessage) : Skipping m [1] (.error (.errno .einval)) m :=
  @Skipping.of_result _ _ _ _ 1 rfl (by simp)

theorem not_reads_of_returnsZero {m m' m'' : SdBusMessage} {t₁ t₂ : Str} {items items' : List Item}
    (h : Reads false m t₁ items m') (hz : ReturnsZero m' t₂) :
    ¬Reads false m (t₁ ++ t₂) items' m'' := by
  intro hr
  -- with something invalid behind the types, reading them all leads to an error
  have herror := hr.skipsOver.onward rfl [1] _ m'' (skipping_invalid m'')
  have hok := h.skipsOver.onward rfl (t₂ ++ [1]) _ m'
    (.of_result ((hz.append [1]).skipTypes 0) (by simp))
  rw [← List.append_assoc] at hok
  cases (herror.unique hok).1

theorem EndsBetween.not_skipsAsRead {m : SdBusMessage} {types : Option CStr}
    (h : EndsBetween m types) : ¬SkipsAsRead m types := by
  intro hs
  cases types with
  | none => exact h
  | some types =>
    obtain ⟨t₁, t₂, items, m', hsplit, hne, hr, hz⟩ := h
    have hskip := hr.skipsOver.onward rfl t₂ _ m' (.of_result (hz.skipTypes 0) (by simp))
    rw [List.isEmpty_eq_false_iff.mpr hne] at hskip
    rw [← hsplit] at hskip
    obtain ⟨items', -, hr'⟩ := (hs.reads m').mp (returns_some.mpr hskip)
    exact not_reads_of_returnsZero hr hz (hsplit ▸ hr')

theorem skipsAsRead_some {m : SdBusMessage} (hv : m.gvariant = false) {types : CStr}
    (h : ¬EndsBetween m (some types)) : SkipsAsRead m (some types) := by
  have hs := (skip_sound (skipSize m types.1)).1 m types.1 hv types.2 le_rfl
  rcases hx : skipTypes (skipSize m types.1) m types.1 with ⟨r, m₁⟩
  rw [hx] at hs
  have hrun : r ≠ .error .running := by
    rintro rfl
    obtain ⟨e, he⟩ := hs.errno _ rfl
    cases he
  have hskip : Skipping m types.1 r m₁ := .of_result hx hrun
  constructor
  · exact ⟨r, m₁, returns_some.mpr hskip⟩
  · intro m' hr
    obtain ⟨rfl, rfl⟩ := hskip.unique (returns_some.mp hr)
    obtain ⟨e, he⟩ := hs.errno _ rfl
    cases he
  · intro m'
    constructor
    · intro hr
      obtain ⟨rfl, rfl⟩ := hskip.unique (returns_some.mp hr)
      obtain ⟨t₁, t₂, items, hsplit, hne, hread, hz⟩ := hs.some rfl
      obtain rfl : t₂ = [] := by
        by_contra hnil
        exact h ⟨t₁, t₂, items, m₁, hsplit, hne, hread, hz.resolve_left hnil⟩
      rw [List.append_nil] at hsplit
      exact ⟨items, hsplit ▸ hne, hsplit ▸ hread⟩
    · rintro ⟨items, hne, hread⟩
      have hw := hread.skipsOver.whole
      rw [List.isEmpty_eq_false_iff.mpr hne] at hw
      exact returns_some.mpr hw
  · intro m'
    constructor
    · intro hr
      obtain ⟨rfl, rfl⟩ := hskip.unique (returns_some.mp hr)
      exact hs.none rfl
    · rintro ⟨rfl, hnil | hz⟩
      · exact returns_some.mpr (.of_result (hnil ▸ skipTypes_nil 0 _) (by simp))
      · exact returns_some.mpr (.of_result (hz.skipTypes 0) (by simp))

theorem Returns.unique {m m₁ m₂ : SdBusMessage} {types : Option CStr} {r₁ r₂ : Except Stop Bool}
    (h₁ : Returns m types r₁ m₁) (h₂ : Returns m types r₂ m₂) : r₁ = r₂ ∧ m₁ = m₂ := by
  obtain ⟨n₁, h₁⟩ := h₁.result
  obtain ⟨n₂, h₂⟩ := h₂.result
  have heq := (h₁ _ (le_max_left n₁ n₂)).symm.trans (h₂ _ (le_max_right n₁ n₂))
  exact ⟨congrArg Prod.fst heq, congrArg Prod.snd heq⟩

theorem Reads.more_next {m m' : SdBusMessage} {types : Str} {items : List Item}
    (h : Reads false m types items m') (hne : types ≠ []) : More m := by
  cases h with
  | nil => exact absurd rfl hne
  | @basic _ _ _ t _ _ _ ht h hr =>
    obtain ⟨r, he⟩ | ⟨he, -⟩ | ⟨v, m₁, -, he⟩ := sdBusMessageReadBasic_cases m t
    · cases he.symm.trans h
    · cases he.symm.trans h
    · exact he.more
  | array ht hk he hi hx hr => exact (enters_of_some he).more
  | variant ht hp he hi hx hr => exact (enters_of_some he).more
  | members ht hk he hi hx hr => exact (enters_of_some he).more

theorem not_endsBetween_sig (m : SdBusMessage) (u : Ty) :
    ¬EndsBetween m (some ⟨u.sig, u.zero_notMem_sig⟩) := by
  rintro ⟨t₁, t₂, items, m', hsplit, hne, hr, hz⟩
  obtain rfl := hr.single hne hsplit
  exact hz.head rfl

theorem skipsAsRead_of_error {m : SdBusMessage} {types : Option CStr} {e : Errno}
    (h : ∀ fuel, sdBusMessageSkip fuel m (types.map (·.1)) = (.error (.errno e), m))
    (hr : ∀ items m', ¬ReadsNext m types items m') (hn : ¬NothingNext m types) :
    SkipsAsRead m types := by
  have hret : Returns m types (.error (.errno e)) m := ⟨by simp, 0, fun fuel _ => h fuel⟩
  refine ⟨⟨_, _, hret⟩, fun m' hc => ?_, fun m' => ⟨fun hc => ?_, ?_⟩, fun m' => ⟨fun hc => ?_, ?_⟩⟩
  · cases (hret.unique hc).1
  · cases (hret.unique hc).1
  · rintro ⟨items, hread⟩
    exact absurd hread (hr items m')
  · cases (hret.unique hc).1
  · rintro ⟨-, hend⟩
    exact absurd hend hn

theorem sdBusMessageSkip_none {m : SdBusMessage} {u : Ty} {r : Str} (hm : More m)
    (hrest : m.last.rest = u.sig ++ r) (hfits : u.Fits true 0 0) (fuel : Nat) :
    sdBusMessageSkip fuel m none = skipTypes fuel m u.sig := by
  unfold sdBusMessageSkip
  rw [hm.signature, hm.array, hrest, signatureElementLength_sig r hfits]
  dsimp only
  rw [if_neg Bool.false_ne_true, if_neg Bool.false_ne_true, List.take_left]

theorem returns_none {m m' : SdBusMessage} {u : Ty} {rest : Str} (hm : More m)
    (hrest : m.last.rest = u.sig ++ rest) (hfits : u.Fits true 0 0) {r : Except Stop Bool} :
    Returns m none r m' ↔ Skipping m u.sig r m' := by
  have heq := sdBusMessageSkip_none hm hrest hfits
  constructor
  · rintro ⟨hr, n, h⟩
    exact ⟨hr, n, fun fuel hle => (heq fuel).symm.trans (h fuel hle)⟩
  · rintro ⟨hr, n, h⟩
    exact ⟨hr, n, fun fuel hle => (heq fuel).trans (h fuel hle)⟩

theorem skipsAsRead_none {m : SdBusMessage} (hv : m.gvariant = false) : SkipsAsRead m none := by
  by_cases hs : messageEndOfSignature m = true
  · refine skipsAsRead_of_error (e := .enxio) (fun fuel => ?_) ?_ fun hend => ?_
    · unfold sdBusMessageSkip
      exact if_pos hs
    · rintro items m' ⟨u, r, -, -, hread⟩
      have hmore := (hread.more_next (List.ne_nil_of_length_pos u.sig_pos)).signature
      cases hmore.symm.trans hs
    · cases hend.signature.symm.trans hs
  by_cases ha : messageEndOfArray m m.rindex = true
  · have hret : Returns m none (.ok false) m := by
      refine ⟨by simp, 0, fun fuel _ => ?_⟩
      unfold sdBusMessageSkip
      dsimp only [Option.map_none]
      rw [if_neg hs, if_pos ha]
    refine ⟨⟨_, _, hret⟩, fun m' hr => ?_, fun m' => ⟨fun hr => ?_, ?_⟩, fun m' => ⟨fun hr => ?_, ?_⟩⟩
    · cases (hret.unique hr).1
    · cases (hret.unique hr).1
    · rintro ⟨items, u, r, -, -, hread⟩
      have hmore := (hread.more_next (List.ne_nil_of_length_pos u.sig_pos)).array
      cases hmore.symm.trans ha
    · exact ⟨(hret.unique hr).2.symm, Bool.eq_false_of_not_eq_true hs, ha⟩
    · rintro ⟨rfl, -⟩
      exact hret
  cases hl : signatureElementLength m.last.rest with
  | none =>
    refine skipsAsRead_of_error (e := .einval) (fun fuel => ?_) ?_ fun hend => absurd hend.array ha
    · unfold sdBusMessageSkip
      dsimp only [Option.map_none]
      rw [if_neg hs, if_neg ha, hl]
    · rintro items m' ⟨u, r, hrest, hfits, -⟩
      rw [hrest, signatureElementLength_sig r hfits] at hl
      cases hl
  | some l =>
    obtain ⟨u, hu, rfl, hfits⟩ := signatureElementLength_sound hl
    have hsome := skipsAsRead_some hv (not_endsBetween_sig m u)
    have hm : More m := ⟨Bool.eq_false_of_not_eq_true hs, Bool.eq_false_of_not_eq_true ha⟩
    have hret : ∀ r m', Returns m none r m' ↔ Returns m (some ⟨u.sig, u.zero_notMem_sig⟩) r m' :=
      fun r m' => (returns_none hm hu hfits).trans
        (@returns_some _ _ ⟨u.sig, u.zero_notMem_sig⟩ _).symm
    obtain ⟨hterm, hassert, hreads, hnothing⟩ := hsome
    simp only [← hret] at hterm hassert hreads hnothing
    refine ⟨hterm, hassert, fun m' => (hreads m').trans ⟨?_, ?_⟩, fun m' => (hnothing m').trans ?_⟩
    · rintro ⟨items, -, hread⟩
      exact ⟨items, u, _, hu, hfits, hread⟩
    · rintro ⟨items, w, r, hw, -, hread⟩
      obtain ⟨rfl, -⟩ := Ty.sig_append_inj w u _ _ (hw.symm.trans hu)
      exact ⟨items, List.ne_nil_of_length_pos w.sig_pos, hread⟩
    · -- something is there
      refine and_congr_right fun _ => ⟨?_, fun hend => absurd hend.array ha⟩
      rintro (hnil | hz)
      · exact absurd hnil (List.ne_nil_of_length_pos u.sig_pos)
      · have := hz.nothing
        rw [Bool.or_eq_true] at this
        exact absurd this (not_or.mpr ⟨hs, ha⟩)

/-- In a message of version 1, wherever the cursor is and whatever the body holds, skipping is reading
value by value, unless the types go on where nothing comes next. -/
theorem skips_as_read {m : SdBusMessage} (hv : m.gvariant = false) (types : Option CStr) :
    SkipsAsRead m types ↔ ¬EndsBetween m types := by
  constructor
  · exact fun hs h => h.not_skipsAsRead hs
  · intro h
    cases types with
    | none => exact skipsAsRead_none hv
    | some types => exact skipsAsRead_some hv h

theorem skips_as_read_numbers : SkipsAsRead (inNumbers false) none :=
  (skips_as_read (m := inNumbers false) (by decide +kernel) none).mpr id

def threeNumbers : CStr := ⟨[sdBusTypeUint32, sdBusTypeUint32, sdBusTypeUint32], by decide⟩

theorem endsBetween_threeNumbers : EndsBetween (inNumbers false) (some threeNumbers) := by
  have h₁ : (sdBusMessageReadBasic (inNumbers false) sdBusTypeUint32).1 =
      .ok (some (.num .uint32 1)) := by decide +kernel
  have h₂ : (sdBusMessageReadBasic (sdBusMessageReadBasic (inNumbers false) sdBusTypeUint32).2
      sdBusTypeUint32).1 = .ok (some (.num .uint32 2)) := by decide +kernel
  have hr := Reads.basic rfl (Prod.ext h₁ rfl) (.basic rfl (Prod.ext h₂ rfl) (.nil _))
  exact ⟨[sdBusTypeUint32, sdBusTypeUint32], [sdBusTypeUint32], _, _, rfl, by decide, hr,
    .basic rfl (by decide +kernel)⟩

/-- The call returns 1 there, as if all three had been skipped. -/
theorem not_skips_as_read :
    ¬∀ (m : SdBusMessage) (types : Option CStr), m.gvariant = false → SkipsAsRead m types :=
  fun h => endsBetween_threeNumbers.not_skipsAsRead (h _ _ (by decide +kernel))

end Basu.Reading
