import Basu.Reading.Value

/-! In a message of version 1, skipping types is reading them value by value. -/

namespace Basu.Reading
open Lib GVariant

section Calls
variable {m m₁ m₂ m₃ : SdBusMessage}

theorem sdBusMessageExitContainer_error {r : Stop} (h : sdBusMessageExitContainer m = (.error r, m₁)) :
    ∃ e, r = .errno e := by
  obtain ⟨e, he⟩ | ⟨c, cs, -, -, he⟩ := sdBusMessageExitContainer_cases m
  · rw [he] at h
    cases h
    exact ⟨e, rfl⟩
  · rw [he] at h
    unfold resume at h
    split at h
    · cases h
      exact ⟨_, rfl⟩
    · cases h

theorem skipContainer_cases (m : SdBusMessage) (type : UInt8) (s : Str)
    (inner : SdBusMessage → Except Stop Unit × SdBusMessage) (rest : Str) :
    (∃ e m', skipContainer m type (some s) inner rest = (.error (.errno e), m')) ∨
    (∃ m₁ r m₂, sdBusMessageEnterContainer m type (some s) = (.ok true, m₁) ∧
      inner m₁ = (.error r, m₂) ∧ skipContainer m type (some s) inner rest = (.error r, m₂)) ∨
    (skipContainer m type (some s) inner rest = (.ok none, m) ∧
      sdBusMessageEnterContainer m type (some s) = (.ok false, m)) ∨
    ∃ m₁ m₂ m₃, sdBusMessageEnterContainer m type (some s) = (.ok true, m₁) ∧
      inner m₁ = (.ok (), m₂) ∧ sdBusMessageExitContainer m₂ = (.ok (), m₃) ∧
      skipContainer m type (some s) inner rest = (.ok (some rest), m₃) := by
  unfold skipContainer
  rw [sdBusMessageEnterContainer_some]
  split_ifs with h0
  · exact .inl ⟨_, _, rfl⟩
  obtain ⟨e, he⟩ | ⟨he, -⟩ | ⟨e, ri, he, -⟩ | ⟨m₁, he, -⟩ := enterContainer_cases m type s
  · exact .inl ⟨e, m, by rw [he]; rfl⟩
  · exact .inr (.inr (.inl ⟨by rw [he]; rfl, he⟩))
  · exact .inl ⟨e, _, by rw [he]; rfl⟩
  rw [he, andThen_ok, if_neg (by decide)]
  rcases hi : inner m₁ with ⟨r | u, m₂⟩
  · exact .inr (.inl ⟨m₁, r, m₂, rfl, hi, rfl⟩)
  rw [andThen_ok]
  rcases hx : sdBusMessageExitContainer m₂ with ⟨r | u, m₃⟩
  · obtain ⟨e, rfl⟩ := sdBusMessageExitContainer_error hx
    exact .inl ⟨e, m₃, rfl⟩
  · exact .inr (.inr (.inr ⟨m₁, m₂, m₃, rfl, hi, hx, rfl⟩))

theorem skipContainer_ok {type : UInt8} {s : Str}
    {inner : SdBusMessage → Except Stop Unit × SdBusMessage}
    (he : sdBusMessageEnterContainer m type (some s) = (.ok true, m₁)) (hi : inner m₁ = (.ok (), m₂))
    (hx : sdBusMessageExitContainer m₂ = (.ok (), m₃)) (rest : Str) :
    skipContainer m type (some s) inner rest = (.ok (some rest), m₃) := by
  simp only [skipContainer, he, hi, hx, andThen_ok, Bool.true_eq_false, if_false]

theorem sdBusMessagePeekType_basic {type : UInt8}
    (h : sdBusMessagePeekType m = .ok (some (type, none))) : busTypeIsBasic type = true := by
  unfold sdBusMessagePeekType at h
  dsimp only at h
  split_ifs at h with hend hbasic
  · cases h
  · cases h
    exact hbasic
  · split at h <;> cases h
  · split at h <;> cases h
  · split at h <;> cases h
  · obtain ⟨s, -, hs⟩ := exists_of_map h
    cases hs

theorem enters_variant_sig {s : Str} (h0 : (0 : UInt8) ∉ s)
    (h : sdBusMessageEnterContainer m sdBusTypeVariant (some s) = (.ok true, m₁)) :
    ∃ u : Ty, s = u.sig := by
  obtain ⟨x, ri, hx, -⟩ := (enters_of_some h).entered
  have hx' := congrArg Prod.fst hx
  unfold enterByType at hx'
  rw [if_neg (by decide), if_pos rfl] at hx'
  obtain ⟨u, hu, -⟩ := (signatureIsSingle_iff h0 false).mp (busMessageEnterVariant_single hx')
  exact ⟨u, hu⟩

end Calls

/-- A call that skips types, with room to return, passes them all, or those up to the first one that
is not there. -/
structure SkipSound (m : SdBusMessage) (types : Str) (x : Except Stop Bool × SdBusMessage) :
    Prop where
  errno : ∀ r, x.1 = .error r → ∃ e, r = .errno e
  none : x.1 = .ok false → x.2 = m ∧ (types = [] ∨ ReturnsZero m types)
  some : x.1 = .ok true → ∃ t₁ t₂ items, types = t₁ ++ t₂ ∧ t₁ ≠ [] ∧
    Reads false m t₁ items x.2 ∧ (t₂ = [] ∨ ReturnsZero x.2 t₂)

structure ElementsSound (m : SdBusMessage) (s : Str) (x : Except Stop Unit × SdBusMessage) :
    Prop where
  errno : ∀ r, x.1 = .error r → ∃ e, r = .errno e
  some : x.1 = .ok () → ∃ items, Reads true m s items x.2

structure FirstSound (m : SdBusMessage) (types : Str)
    (x : Except Stop (Option Str) × SdBusMessage) : Prop where
  errno : ∀ r, x.1 = .error r → ∃ e, r = .errno e
  none : x.1 = .ok none → x.2 = m ∧ ReturnsZero m types
  some : ∀ rest, x.1 = .ok (some rest) → ∃ t₁ items, types = t₁ ++ rest ∧ t₁ ≠ [] ∧
    Reads false m t₁ items x.2

theorem FirstSound.of_error (m : SdBusMessage) (types : Str) (e : Errno) (m' : SdBusMessage) :
    FirstSound m types (.error (.errno e), m') where
  errno := fun r h => by
    cases h
    exact ⟨e, rfl⟩
  none := fun h => by cases h
  some := fun rest h => by cases h

theorem EnteredAt.skipSound {m m₁ : SdBusMessage} {type : UInt8} {s : Str}
    (h : EnteredAt m m₁ type s) (hv : m.gvariant = false) (ha : type ≠ sdBusTypeArray) (hne : s ≠ [])
    (h0 : (0 : UInt8) ∉ s) {x : Except Stop Bool × SdBusMessage} (hx : SkipSound m₁ s x) {b : Bool}
    (hb : x.1 = .ok b) : b = true ∧ ∃ items, Reads false m₁ s items x.2 := by
  cases b with
  | false =>
    obtain ⟨-, hnil | hz⟩ := hx.none hb
    · exact absurd hnil hne
    · exact absurd hz (@EnteredAt.not_returnsZero _ _ _ _ [] _ h ha (.refl m₁) hne h0)
  | true =>
    obtain ⟨t₁, t₂, items, rfl, -, hr, hend⟩ := hx.some hb
    refine ⟨rfl, items, ?_⟩
    by_cases hnil : t₂ = []
    · rw [hnil, List.append_nil]
      exact hr
    · have hp := ((hr.over (h.content ▸ hv)).1 rfl).passed
      refine absurd (hend.resolve_left hnil) (h.not_returnsZero ha hp hnil ?_)
      exact fun hmem => h0 (List.mem_append_right _ hmem)

/-- What bounds the calls one inside the other: each of them has less of the body or fewer types. -/
def skipSize (m : SdBusMessage) (types : Str) : Nat :=
  2 * (m.userBodySize - m.rindex) + 2 * types.length + 1

section First
variable {m : SdBusMessage} {types : Str}
variable {skip : SdBusMessage → Str → Except Stop Bool × SdBusMessage}
variable {elements : SdBusMessage → Str → Except Stop Unit × SdBusMessage}

theorem skipFirst_basic {t : UInt8} (ht : busTypeIsBasic t = true) :
    skipFirst skip elements m (t :: types) =
      andThen (sdBusMessageReadBasic m t) fun v m => (.ok (v.map fun _ => types), m) := by
  unfold skipFirst
  dsimp only
  rw [charAt_cons_zero, if_pos ht]
  rfl

theorem skipFirst_array :
    skipFirst skip elements m (sdBusTypeArray :: types) =
      match signatureElementLength types with
      | none => (.error (.errno .einval), m)
      | some k => skipContainer m sdBusTypeArray (some (types.take k)) (elements · (types.take k))
        (types.drop k) := by
  unfold skipFirst
  dsimp only
  rw [charAt_cons_zero, if_neg (by decide), if_pos rfl, List.drop_succ_cons, List.drop_zero]
  cases signatureElementLength types with
  | none => rfl
  | some k =>
    dsimp only
    rw [Nat.add_comm 1]
    rfl

theorem skipFirst_variant :
    skipFirst skip elements m (sdBusTypeVariant :: types) =
      match sdBusMessagePeekType m with
      | .error r => (.error (.errno r), m)
      | .ok none => (.ok none, m)
      | .ok (some (x, contents)) =>
        if x ≠ sdBusTypeVariant then (.error (.errno .enxio), m)
        else skipContainer m sdBusTypeVariant contents (fun m => andThen (skip m (contents.getD []))
          fun b m => if b = false then (.error .crash, m) else (.ok (), m)) types := by
  unfold skipFirst
  dsimp only
  rw [charAt_cons_zero, if_neg (by decide), if_neg (by decide), if_pos rfl]
  rfl

theorem skipFirst_members {t : UInt8} (ht : opensMembers t = true) :
    skipFirst skip elements m (t :: types) =
      match signatureElementLength (t :: types) with
      | none => (.error (.errno .einval), m)
      | some k => skipContainer m (membersType t) (some (membersOf (t :: types) k))
        (fun m => andThen (skip m (membersOf (t :: types) k)) fun _ m => (.ok (), m))
        ((t :: types).drop k) := by
  have hne : ∀ c, opensMembers c = false → t ≠ c := by
    rintro c hc rfl
    rw [hc] at ht
    cases ht
  have hbasic : busTypeIsBasic t = false := by
    unfold opensMembers at ht
    rw [Bool.or_eq_true, decide_eq_true_eq, decide_eq_true_eq] at ht
    obtain rfl | rfl := ht <;> rfl
  unfold skipFirst
  dsimp only
  rw [charAt_cons_zero, hbasic, if_neg Bool.false_ne_true, if_neg (hne _ (by decide)),
    if_neg (hne _ (by decide))]
  exact if_pos ht

structure SmallerSound (m : SdBusMessage) (types : Str)
    (skip : SdBusMessage → Str → Except Stop Bool × SdBusMessage)
    (elements : SdBusMessage → Str → Except Stop Unit × SdBusMessage) : Prop where
  skip : ∀ m' s, m'.toContent = m.toContent → (0 : UInt8) ∉ s → skipSize m' s < skipSize m types →
    SkipSound m' s (skip m' s)
  elements : ∀ m' (u : Ty), m'.toContent = m.toContent → skipSize m' u.sig + 1 < skipSize m types →
    ElementsSound m' u.sig (elements m' u.sig)

theorem skipContainer_sound {type : UInt8} {s rest p : Str} (hne : p ≠ [])
    (hsplit : types = p ++ rest) {inner : SdBusMessage → Except Stop Unit × SdBusMessage}
    {C : SdBusMessage → List Item → SdBusMessage → Prop}
    (hi : ∀ m₁, sdBusMessageEnterContainer m type (some s) = (.ok true, m₁) →
      (∀ r, (inner m₁).1 = .error r → ∃ e, r = .errno e) ∧
        ∀ m₂, inner m₁ = (.ok (), m₂) → ∃ items, C m₁ items m₂)
    (hz : sdBusMessageEnterContainer m type (some s) = (.ok false, m) → ReturnsZero m types)
    (hr : ∀ m₁ m₂ m₃ items, sdBusMessageEnterContainer m type (some s) = (.ok true, m₁) →
      C m₁ items m₂ → sdBusMessageExitContainer m₂ = (.ok (), m₃) →
      Reads false m p [.container type s items] m₃) :
    FirstSound m types (skipContainer m type (some s) inner rest) := by
  obtain ⟨e, m', h⟩ | ⟨m₁, r, m₂, he, hin, h⟩ | ⟨h, he⟩ | ⟨m₁, m₂, m₃, he, hin, hx, h⟩ :=
    skipContainer_cases m type s inner rest
  · rw [h]
    exact .of_error m types e m'
  · obtain ⟨e, rfl⟩ := (hi m₁ he).1 r (by rw [hin])
    rw [h]
    exact .of_error m types e m₂
  · rw [h]
    exact ⟨fun r hc => (by cases hc), fun _ => ⟨rfl, hz he⟩, fun rest hc => (by cases hc)⟩
  · obtain ⟨items, hc⟩ := (hi m₁ he).2 m₂ hin
    rw [h]
    refine ⟨fun r hc => (by cases hc), fun hc => (by cases hc), fun rest' hc => ?_⟩
    cases hc
    exact ⟨p, _, hsplit, hne, hr m₁ m₂ m₃ items he hc hx⟩

theorem readBasic_sound {t : UInt8} (ht : busTypeIsBasic t = true) :
    FirstSound m (t :: types) (skipFirst skip elements m (t :: types)) := by
  rw [skipFirst_basic ht]
  obtain ⟨e, he⟩ | ⟨he, -⟩ | ⟨v, m', he, -⟩ := sdBusMessageReadBasic_cases m t
  · rw [he]
    exact .of_error m _ e m
  · rw [he]
    exact ⟨fun r hc => (by cases hc), fun _ => ⟨rfl, .basic ht he⟩, fun rest hc => (by cases hc)⟩
  · rw [he]
    refine ⟨fun r hc => (by cases hc), fun hc => (by cases hc), fun rest hc => ?_⟩
    cases hc
    exact ⟨[t], _, rfl, List.cons_ne_nil _ _, .basic ht he (.nil m')⟩

theorem array_sound (hv : m.gvariant = false)
    (ih : SmallerSound m (sdBusTypeArray :: types) skip elements) :
    FirstSound m (sdBusTypeArray :: types)
      (skipFirst skip elements m (sdBusTypeArray :: types)) := by
  rw [skipFirst_array]
  cases hk : signatureElementLength types with
  | none => exact .of_error m _ .einval m
  | some k =>
    refine skipContainer_sound (p := sdBusTypeArray :: types.take k)
      (C := fun m₁ items m₂ => Reads true m₁ (types.take k) items m₂)
      (List.cons_ne_nil _ _) (by rw [List.cons_append, List.take_append_drop]) ?_
      (fun h => .array rfl hk h) (fun m₁ m₂ m₃ items he hc hx => .oneArray hk he hc hx)
    intro m₁ he
    obtain ⟨htake, hdrop⟩ := take_drop_length hk
    obtain ⟨u, hu, rfl, -⟩ := signatureElementLength_sound hk
    have hsig : types.take u.sig.length = u.sig := by rw [hu, List.take_left]
    have hat := (enters_of_some he).at hv
    have hlt := hat.forward.array rfl
    have hstop := hat.forward.stop
    have hsize : skipSize m₁ u.sig + 1 < skipSize m (sdBusTypeArray :: types) := by
      unfold skipSize
      rw [hat.content, List.length_cons]
      omega
    rw [hsig]
    have hsound := ih.elements m₁ u hat.content hsize
    refine ⟨hsound.errno, fun m₂ hin => ?_⟩
    have hs := hsound.some (congrArg Prod.fst hin)
    rw [hin] at hs
    exact hs

theorem variant_sound (hv : m.gvariant = false)
    (ih : SmallerSound m (sdBusTypeVariant :: types) skip elements) :
    FirstSound m (sdBusTypeVariant :: types)
      (skipFirst skip elements m (sdBusTypeVariant :: types)) := by
  rw [skipFirst_variant]
  cases hp : sdBusMessagePeekType m with
  | error r => exact .of_error m _ r m
  | ok x =>
    match x with
    | none =>
      exact ⟨fun r hc => (by cases hc), fun _ => ⟨rfl, .variant rfl hp⟩,
        fun rest hc => (by cases hc)⟩
    | some (x, none) =>
      have hbasic := sdBusMessagePeekType_basic hp
      have hx : x ≠ sdBusTypeVariant := by
        rintro rfl
        cases hbasic
      dsimp only
      rw [if_pos hx]
      exact .of_error m _ .enxio m
    | some (x, some s) =>
      dsimp only
      split_ifs with hx
      · exact .of_error m _ .enxio m
      obtain rfl : x = sdBusTypeVariant := Decidable.not_not.mp hx
      obtain ⟨hmore, ha⟩ := sdBusMessagePeekType_some hp
      refine skipContainer_sound (p := [sdBusTypeVariant])
        (C := fun m₁ items m₂ => Reads false m₁ s items m₂) (List.cons_ne_nil _ _) rfl ?_
        ?_ (fun m₁ m₂ m₃ items he hc hx => .variant rfl hp he hc hx (.nil m₃))
      · intro m₁ he
        have hat := (enters_of_some he).at hv
        have hlt := hat.forward.variant rfl
        have hstop := hat.forward.stop
        obtain ⟨u, rfl⟩ := enters_variant_sig ha.text he
        have hsize : skipSize m₁ u.sig < skipSize m (sdBusTypeVariant :: types) := by
          unfold skipSize
          rw [hat.content, List.length_cons]
          omega
        have hsound := ih.skip m₁ u.sig hat.content ha.text hsize
        have hne := List.ne_nil_of_length_pos u.sig_pos
        rw [Option.getD_some]
        rcases hs : skip m₁ u.sig with ⟨r | b, m₂⟩
        · rw [hs] at hsound
          obtain ⟨e, rfl⟩ := hsound.errno r rfl
          rw [andThen_error]
          refine ⟨fun r hc => ?_, fun m₂ hin => by cases hin⟩
          cases hc
          exact ⟨e, rfl⟩
        · rw [hs] at hsound
          -- the assertion holds
          obtain ⟨rfl, items, hr⟩ := hat.skipSound hv (by decide) hne ha.text hsound rfl
          refine ⟨fun r hc => (by cases hc), fun m₂ hin => ?_⟩
          cases hin
          exact ⟨items, hr⟩
      · intro hz
        obtain ⟨e, he⟩ | ⟨-, hend⟩ | ⟨e, ri, he, -⟩ | ⟨m₁, he, -⟩ :=
          enterContainer_cases m sdBusTypeVariant s
        · cases he.symm.trans hz
        · cases hend.array.symm.trans hmore.array
        · cases he.symm.trans hz
        · cases he.symm.trans hz

theorem members_sound (hv : m.gvariant = false) {t : UInt8} (ht : opensMembers t = true)
    (ih : SmallerSound m (t :: types) skip elements) :
    FirstSound m (t :: types) (skipFirst skip elements m (t :: types)) := by
  rw [skipFirst_members ht]
  cases hk : signatureElementLength (t :: types) with
  | none => exact .of_error m _ .einval m
  | some k =>
    obtain ⟨htake, -⟩ := take_drop_length hk
    obtain ⟨u, ts, hu, rfl, hopens, hs⟩ := opens_of_length ht hk
    have hne : (t :: types).take u.sig.length ≠ [] := by
      apply List.ne_nil_of_length_pos
      rw [htake]
      exact u.sig_pos
    refine skipContainer_sound (p := (t :: types).take u.sig.length)
      (C := fun m₁ items m₂ => Reads false m₁ (membersOf (t :: types) u.sig.length) items m₂)
      hne (List.take_append_drop _ _).symm ?_ (fun h => .members ht hk h)
      (fun m₁ m₂ m₃ items he hc hx => .oneMembers ht hk he hc hx)
    intro m₁ he
    rw [hs] at he ⊢
    have hat := (enters_of_some he).at hv
    have hle := hat.forward.le
    have hlen := congrArg List.length hu
    rw [List.length_append, hopens.length] at hlen
    have hsize : skipSize m₁ (Ty.sigs ts) < skipSize m (t :: types) := by
      unfold skipSize
      rw [hat.content]
      omega
    have h0s := Ty.zero_notMem_sigs ts
    have hsound := ih.skip m₁ (Ty.sigs ts) hat.content h0s hsize
    rcases hin : skip m₁ (Ty.sigs ts) with ⟨r | b, m₂⟩
    · rw [hin] at hsound
      obtain ⟨e, rfl⟩ := hsound.errno r rfl
      rw [andThen_error]
      refine ⟨fun r hc => ?_, fun m₂ hin => by cases hin⟩
      cases hc
      exact ⟨e, rfl⟩
    · rw [hin] at hsound
      have hmembers : membersType t ≠ sdBusTypeArray := by
        unfold membersType
        split_ifs <;> decide
      obtain ⟨-, items, hr⟩ := hat.skipSound hv hmembers (sigs_ne_nil hopens.ne) h0s hsound rfl
      refine ⟨fun r hc => (by cases hc), fun m₂ hin => ?_⟩
      cases hin
      exact ⟨items, hr⟩

theorem skipFirst_sound (hv : m.gvariant = false) (hne : types ≠ [])
    (ih : SmallerSound m types skip elements) :
    FirstSound m types (skipFirst skip elements m types) := by
  obtain ⟨t, types, rfl⟩ := List.exists_cons_of_ne_nil hne
  by_cases hbasic : busTypeIsBasic t = true
  · exact readBasic_sound hbasic
  by_cases harray : t = sdBusTypeArray
  · subst harray
    exact array_sound hv ih
  by_cases hvariant : t = sdBusTypeVariant
  · subst hvariant
    exact variant_sound hv ih
  by_cases hmembers : opensMembers t = true
  · exact members_sound hv hmembers ih
  have hf : skipFirst skip elements m (t :: types) = (.error (.errno .einval), m) := by
    unfold skipFirst
    dsimp only
    rw [charAt_cons_zero, if_neg hbasic, if_neg harray, if_neg hvariant, if_neg hmembers]
  rw [hf]
  exact .of_error m _ .einval m

theorem skipBody_sound (hv : m.gvariant = false) (h0 : (0 : UInt8) ∉ types)
    (ih : SmallerSound m types skip elements) :
    SkipSound m types (skipBody skip elements m types) := by
  unfold skipBody
  split_ifs with hc
  · have hnil : types = [] := by
      by_contra hne
      obtain ⟨t, r, rfl⟩ := List.exists_cons_of_ne_nil hne
      exact h0 (hc ▸ List.mem_cons_self)
    exact ⟨fun r h => (by cases h), fun _ => ⟨rfl, .inl hnil⟩, fun h => (by cases h)⟩
  have hne : types ≠ [] := by
    rintro rfl
    exact hc rfl
  have hfirst := skipFirst_sound hv hne ih
  rcases hf : skipFirst skip elements m types with ⟨r | rest, m₁⟩
  · rw [hf] at hfirst
    obtain ⟨e, rfl⟩ := hfirst.errno r rfl
    refine ⟨fun r h => ?_, fun h => (by cases h), fun h => (by cases h)⟩
    cases h
    exact ⟨e, rfl⟩
  rw [hf] at hfirst
  cases rest with
  | none =>
    obtain ⟨rfl, hz⟩ := hfirst.none rfl
    exact ⟨fun r h => (by cases h), fun _ => ⟨rfl, .inr hz⟩, fun h => (by cases h)⟩
  | some rest =>
    obtain ⟨t₁, items, hsplit, hne₁, hread⟩ := hfirst.some rest rfl
    obtain ⟨hp, hforward, -⟩ := (hread.over hv).1 rfl
    have hle : m.rindex ≤ m₁.rindex := hforward.le
    have hpos := List.length_pos_of_ne_nil hne₁
    have h0r : (0 : UInt8) ∉ rest := fun hmem => h0 (hsplit ▸ List.mem_append_right t₁ hmem)
    have hsize : skipSize m₁ rest < skipSize m types := by
      unfold skipSize
      rw [hp.content, hsplit, List.length_append]
      omega
    have hsound := ih.skip m₁ rest hp.content h0r hsize
    rw [andThen_ok]
    dsimp only
    rcases hs : skip m₁ rest with ⟨r | b, m₂⟩
    · rw [hs] at hsound
      obtain ⟨e, rfl⟩ := hsound.errno r rfl
      rw [andThen_error]
      refine ⟨fun r h => ?_, fun h => (by cases h), fun h => (by cases h)⟩
      cases h
      exact ⟨e, rfl⟩
    rw [hs] at hsound
    refine ⟨fun r h => (by cases h), fun h => (by cases h), fun _ => ?_⟩
    -- the return value of the inner call says nothing here
    cases b with
    | false =>
      obtain ⟨rfl, hz⟩ := hsound.none rfl
      exact ⟨t₁, rest, items, hsplit, hne₁, hread, hz⟩
    | true =>
      obtain ⟨t₂, t₃, items', rfl, -, hread', hz⟩ := hsound.some rfl
      refine ⟨t₁ ++ t₂, t₃, items ++ items', ?_, ?_, hread.append rfl hread', hz⟩
      · rw [List.append_assoc]
        exact hsplit
      · exact fun hnil => hne₁ (List.append_eq_nil_iff.mp hnil).1

theorem elementsBody_sound (hv : m.gvariant = false) {u : Ty} (hs : SkipSound m u.sig (skip m u.sig))
    (ih : ∀ m', m'.toContent = m.toContent → skipSize m' u.sig < skipSize m u.sig →
      ElementsSound m' u.sig (elements m' u.sig)) :
    ElementsSound m u.sig (elementsBody skip elements m u.sig) := by
  unfold elementsBody
  have hne := List.ne_nil_of_length_pos u.sig_pos
  rcases hx : skip m u.sig with ⟨r | b, m₁⟩
  · rw [hx] at hs
    obtain ⟨e, rfl⟩ := hs.errno r rfl
    refine ⟨fun r h => ?_, fun h => (by cases h)⟩
    cases h
    exact ⟨e, rfl⟩
  rw [hx] at hs
  cases b with
  | false =>
    obtain ⟨rfl, hz⟩ := hs.none rfl
    exact ⟨fun r h => (by cases h), fun _ => ⟨[], .stop (hz.resolve_left hne)⟩⟩
  | true =>
    obtain ⟨t₁, t₂, items, hsplit, hne₁, hread, -⟩ := hs.some rfl
    obtain rfl := hread.single hne₁ hsplit
    rw [List.append_nil] at hsplit
    rw [← hsplit] at hread hne₁
    obtain ⟨hp, hforward, hlt⟩ := (hread.over hv).1 rfl
    have hstop : m₁.rindex ≤ m.rindex ∨ m₁.rindex ≤ m.userBodySize := hforward.stop
    have hlt : m.rindex < m₁.rindex := hlt hne₁
    have hsize : skipSize m₁ u.sig < skipSize m u.sig := by
      unfold skipSize
      rw [hp.content]
      omega
    have hsound := ih m₁ hp.content hsize
    rw [andThen_ok, if_neg (by decide)]
    refine ⟨hsound.errno, fun h => ?_⟩
    obtain ⟨rest, hr⟩ := hsound.some h
    exact ⟨items ++ rest, .more hread hr⟩

end First

theorem skip_sound (fuel : Nat) :
    (∀ m types, m.gvariant = false → (0 : UInt8) ∉ types → skipSize m types ≤ fuel →
      SkipSound m types (skipTypes fuel m types)) ∧
    ∀ m (u : Ty), m.gvariant = false → skipSize m u.sig + 1 ≤ fuel →
      ElementsSound m u.sig (skipElements fuel m u.sig) := by
  induction fuel with
  | zero =>
    refine ⟨fun m types hv h0 hle => ?_, fun m u hv hle => ?_⟩
    · unfold skipSize at hle
      omega
    · omega
  | succ fuel ih =>
    obtain ⟨ihs, ihe⟩ := ih
    refine ⟨fun m types hv h0 hle => ?_, fun m u hv hle => ?_⟩
    · refine skipBody_sound hv h0 ⟨fun m' s hc h0 hlt => ?_, fun m' u hc hlt => ?_⟩
      · exact ihs m' s (hc ▸ hv) h0 (by omega)
      · exact ihe m' u (hc ▸ hv) (by omega)
    · refine elementsBody_sound hv (ihs m u.sig hv u.zero_notMem_sig (by omega)) fun m' hc hlt => ?_
      exact ihe m' u (hc ▸ hv) (by omega)

end Basu.Reading
