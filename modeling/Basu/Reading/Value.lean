import Basu.Reading.Rewind
import Basu.Reading.Skip

/-! What reading a value of a message of version 1 does to the cursor: it passes the type of the value
in the signature, and moves on in the body. -/

namespace Basu.Reading
open Lib GVariant

theorem opens_of_length {t : UInt8} {types : Str} {k : Nat} (ht : opensMembers t = true)
    (hk : signatureElementLength (t :: types) = some k) : ∃ (u : Ty) (ts : List Ty),
    t :: types = u.sig ++ (t :: types).drop k ∧ k = u.sig.length ∧ GVariant.Opens u ts ∧
      membersOf (t :: types) k = Ty.sigs ts := by
  obtain ⟨u, hu, rfl, hfits⟩ := signatureElementLength_sound hk
  have hhead : t = u.head := by
    have := congrArg (charAt · 0) hu
    rw [u.charAt_sig_append] at this
    exact this
  rw [hhead] at ht
  unfold opensMembers at ht
  rw [Bool.or_eq_true, decide_eq_true_eq, decide_eq_true_eq] at ht
  rcases ht with hstruct | hdict
  · obtain ⟨ts, rfl⟩ := eq_struct_of_head hstruct
    refine ⟨_, ts, hu, rfl, opens_struct hfits, ?_⟩
    rw [hu]
    exact (opens_struct hfits).sig _
  · obtain ⟨key, v, rfl⟩ := eq_dictEntry_of_head hdict
    refine ⟨_, _, hu, rfl, opens_dictEntry hfits, ?_⟩
    rw [hu]
    exact (opens_dictEntry hfits).sig _

theorem sigs_ne_nil {ts : List Ty} (h : ts ≠ []) : Ty.sigs ts ≠ [] :=
  List.ne_nil_of_length_pos (Ty.sigs_pos h)

theorem Reads.first {m m' : SdBusMessage} {types : Str} {items : List Item}
    (h : Reads false m types items m') (hne : types ≠ []) :
    ∃ (u : Ty) (r : Str), types = u.sig ++ r := by
  cases h with
  | nil => exact absurd rfl hne
  | basic ht h hr =>
    obtain ⟨b, rfl⟩ := exists_basic_of_code ht
    exact ⟨.basic b, _, rfl⟩
  | @array _ _ _ _ _ _ types k _ _ ht hk he hi hx hr =>
    obtain ⟨u, hu, -, -⟩ := signatureElementLength_sound hk
    refine ⟨.array u, types.drop k, ?_⟩
    rw [ht, Ty.sig, List.cons_append, ← hu]
  | variant ht hp he hi hx hr => exact ⟨.variant, _, by rw [ht]; rfl⟩
  | members ht hk he hi hx hr =>
    obtain ⟨u, hu, -, -⟩ := signatureElementLength_sound hk
    exact ⟨u, List.drop _ _, hu⟩

theorem Reads.single {m m' : SdBusMessage} {u : Ty} {types rest : Str} {items : List Item}
    (h : Reads false m types items m') (hne : types ≠ []) (hs : u.sig = types ++ rest) :
    rest = [] := by
  obtain ⟨w, r, rfl⟩ := h.first hne
  rw [List.append_assoc] at hs
  obtain ⟨rfl, hr⟩ := Ty.sig_append_inj u w [] (r ++ rest) (by rw [List.append_nil]; exact hs)
  exact (List.append_eq_nil_iff.mp hr.symm).2

structure Passed (m m' : SdBusMessage) (n : Nat) : Prop where
  content : m'.toContent = m.toContent
  outer : m'.outer = m.outer
  frame : SameFrame m.last m'.last
  index : m'.last.index =
    if m.last.enclosing = sdBusTypeArray then m.last.index else m.last.index + n

theorem Passed.refl (m : SdBusMessage) : Passed m m 0 :=
  ⟨rfl, rfl, .refl _, by rw [Nat.add_zero, ite_self]⟩

theorem SameFrame.enclosing {c c' : BusContainer} (h : SameFrame c c') :
    c'.enclosing = c.enclosing := by
  obtain ⟨i, s, o, z, rfl⟩ := h
  rfl

theorem Passed.trans {m m₁ m₂ : SdBusMessage} {k n : Nat} (h : Passed m m₁ k)
    (h' : Passed m₁ m₂ n) : Passed m m₂ (k + n) where
  content := h'.content.trans h.content
  outer := h'.outer.trans h.outer
  frame := h.frame.trans h'.frame
  index := by
    rw [h'.index, h.frame.enclosing, h.index]
    split_ifs
    · rfl
    · rw [Nat.add_assoc]

structure Forward (m m' : SdBusMessage) : Prop where
  le : m.rindex ≤ m'.rindex
  stop : m'.rindex ≤ m.rindex ∨ m'.rindex ≤ m.userBodySize

theorem Forward.refl (m : SdBusMessage) : Forward m m := ⟨le_rfl, .inl le_rfl⟩

theorem Forward.trans {m m₁ m₂ : SdBusMessage} (hc : m₁.toContent = m.toContent)
    (h : Forward m m₁) (h' : Forward m₁ m₂) : Forward m m₂ := by
  obtain ⟨hle, hs⟩ := h
  obtain ⟨hle', hs'⟩ := h'
  rw [hc] at hs'
  exact ⟨hle.trans hle', by omega⟩

section Steps
variable {m m₁ m₂ m₃ : SdBusMessage}

theorem advance_index (c : BusContainer) (n : Nat) :
    (c.advance n).index = if c.enclosing = sdBusTypeArray then c.index else c.index + n := by
  unfold BusContainer.advance GVariant.Container.advance
  split_ifs <;> rfl

theorem sdBusMessageReadBasic_passed (hv : m.gvariant = false) {t : UInt8} {v : BasicVal}
    (h : sdBusMessageReadBasic m t = (.ok (some v), m₁)) :
    Passed m m₁ 1 ∧ Forward m m₁ ∧ m.rindex < m₁.rindex := by
  obtain ⟨r, he⟩ | ⟨he, -⟩ | ⟨w, m', he, hm'⟩ := sdBusMessageReadBasic_cases m t
  · rw [he] at h
    cases h
  · rw [he] at h
    cases h
  rw [he] at h
  cases h
  obtain ⟨hlt, hstop⟩ := hm'.forward hv
  obtain ⟨b, ri, c, ri', -, -, hn, rfl⟩ := hm'.value
  rw [containerNextItem_dbus1 hv] at hn
  cases hn
  exact ⟨⟨rfl, rfl, sameFrame_advance _ _, advance_index _ _⟩, ⟨hlt.le, .inr hstop⟩, hlt⟩

theorem enterByType_skip (hv : m.gvariant = false) {type : UInt8} {s : Str} {x : Entered} {ri : Nat}
    (h : enterByType m type s = (.ok x, ri)) : x.skip = signatureSkip type s := by
  unfold enterByType at h
  unfold signatureSkip
  split_ifs at h ⊢ with ha hvar hs hd
  · have hx := congrArg Prod.fst h
    unfold busMessageEnterArray at hx
    dsimp only at hx
    split_ifs at hx with _ _ _ hv'
    · rw [hv] at hv'
      cases hv'
    exact enterArrayDbus1_skip hx
  · have hx := congrArg Prod.fst h
    unfold busMessageEnterVariant at hx
    dsimp only at hx
    rw [if_neg (c := m.gvariant = true) (by rw [hv]; decide)] at hx
    split_ifs at hx
    split at hx
    · cases hx
    split_ifs at hx
    cases hx
    rfl
  · unfold busMessageEnterStruct at h
    split_ifs at h
    · cases h
    · cases h
    rw [enterMembers_skip hv h, Nat.add_comm 1]
  · unfold busMessageEnterDictEntry at h
    split_ifs at h
    · cases h
    · cases h
    · cases h
    rw [enterMembers_skip hv h, Nat.add_comm 1]
  · cases h

structure EnteredAt (m m₁ : SdBusMessage) (type : UInt8) (s : Str) : Prop where
  content : m₁.toContent = m.toContent
  enclosing : m₁.last.enclosing = type
  signature : m₁.last.signature = some s
  index : m₁.last.index = 0
  outer : ∃ c, m₁.outer = c :: m.outer ∧ SameFrame m.last c ∧ c.index =
    if m.last.enclosing = sdBusTypeArray then m.last.index else m.last.index + signatureSkip type s
  forward : EntersForward m type s m₁.rindex

theorem Enters.at (hv : m.gvariant = false) {type : UInt8} {s : Str} (h : Enters m type s m₁) :
    EnteredAt m m₁ type s := by
  obtain ⟨x, ri, hx, rfl⟩ := h.entered
  refine ⟨rfl, rfl, rfl, rfl, ⟨_, rfl, (sameFrame_save _).trans (sameFrame_advance _ _), ?_⟩,
    enterByType_forward hv hx⟩
  rw [advance_index, enterByType_skip hv hx]
  rfl

theorem sdBusMessageExitContainer_back (hv : m₂.gvariant = false)
    (h : sdBusMessageExitContainer m₂ = (.ok (), m₃)) :
    ∃ c cs, m₂.outer = c :: cs ∧ m₃ = { m₂ with last := c, outer := cs } := by
  obtain ⟨r, he⟩ | ⟨c, cs, ho, -, he⟩ := sdBusMessageExitContainer_cases m₂
  · rw [he] at h
    cases h
  · have hresume : resume { m₂ with last := c, outer := cs } = (.ok (), _) := resume_dbus1 hv
    rw [he, hresume] at h
    cases h
    exact ⟨c, cs, ho, rfl⟩

theorem container_passed (hv : m.gvariant = false) {type : UInt8} {s : Str} {n : Nat}
    (he : sdBusMessageEnterContainer m type (some s) = (.ok true, m₁))
    (hi : Passed m₁ m₂ n) (hf : Forward m₁ m₂) (hx : sdBusMessageExitContainer m₂ = (.ok (), m₃)) :
    Passed m m₃ (signatureSkip type s) ∧ Forward m m₃ ∧ m₃.rindex = m₂.rindex ∧
      EntersForward m type s m₁.rindex := by
  obtain ⟨hc, -, -, -, ⟨c, ho, hframe, hindex⟩, hfor⟩ := (enters_of_some he).at hv
  have hv₂ : m₂.gvariant = false := by
    rw [hi.content, hc]
    exact hv
  obtain ⟨d, ds, ho₂, rfl⟩ := sdBusMessageExitContainer_back hv₂ hx
  rw [hi.outer, ho] at ho₂
  obtain ⟨rfl, rfl⟩ := List.cons.inj ho₂
  have hforward : Forward m m₁ := ⟨hfor.le, .inr hfor.stop⟩
  have hf₃ : Forward m₁ { m₂ with last := c, outer := m.outer } := ⟨hf.le, hf.stop⟩
  exact ⟨⟨hi.content.trans hc, rfl, hframe, hindex⟩, hforward.trans hc hf₃, rfl, hfor⟩

end Steps

structure ReadsOver (m m' : SdBusMessage) (types : Str) : Prop where
  passed : Passed m m' types.length
  forward : Forward m m'
  lt : types ≠ [] → m.rindex < m'.rindex

theorem take_drop_length {s : Str} {k : Nat} (h : signatureElementLength s = some k) :
    (s.take k).length = k ∧ k + (s.drop k).length = s.length := by
  obtain ⟨u, hu, rfl, -⟩ := signatureElementLength_sound h
  have hlen := congrArg List.length hu
  rw [List.length_append] at hlen
  rw [List.length_take]
  exact ⟨by omega, hlen.symm⟩

theorem Reads.over {b : Bool} {m m' : SdBusMessage} {types : Str} {items : List Item}
    (h : Reads b m types items m') (hv : m.gvariant = false) :
    (b = false → ReadsOver m m' types) ∧
      (b = true → m.last.enclosing = sdBusTypeArray → Passed m m' 0 ∧ Forward m m') := by
  induction h with
  | nil m => exact ⟨fun _ => ⟨.refl m, .refl m, fun hne => absurd rfl hne⟩, fun hb => by cases hb⟩
  | basic ht h hr ih =>
    obtain ⟨hp, hf, hlt⟩ := sdBusMessageReadBasic_passed hv h
    obtain ⟨hp', hf', -⟩ := (ih (hp.content ▸ hv)).1 rfl
    refine ⟨fun _ => ⟨?_, hf.trans hp.content hf', fun _ => hlt.trans_le hf'.le⟩,
      fun hb => by cases hb⟩
    rw [List.length_cons, Nat.add_comm]
    exact hp.trans hp'
  | array ht hk he hi hx hr ihi ihr =>
    have hat := (enters_of_some he).at hv
    obtain ⟨hpi, hfi⟩ := (ihi (hat.content ▸ hv)).2 rfl hat.enclosing
    obtain ⟨hp, hf, hri, hfor⟩ := container_passed hv he hpi hfi hx
    obtain ⟨hp', hf', -⟩ := (ihr (hp.content ▸ hv)).1 rfl
    obtain ⟨htake, hdrop⟩ := take_drop_length hk
    have hlt := hfor.array rfl
    refine ⟨fun _ => ⟨?_, hf.trans hp.content hf', fun _ => ?_⟩, fun hb => by cases hb⟩
    · have hp'' := hp.trans hp'
      rw [signatureSkip, if_pos rfl, htake, Nat.add_assoc, hdrop, Nat.add_comm] at hp''
      exact hp''
    · have := hfi.le
      have := hf'.le
      omega
  | variant ht hp he hi hx hr ihi ihr =>
    have hat := (enters_of_some he).at hv
    obtain ⟨hpi, hfi, -⟩ := (ihi (hat.content ▸ hv)).1 rfl
    obtain ⟨hp, hf, hri, hfor⟩ := container_passed hv he hpi hfi hx
    obtain ⟨hp', hf', -⟩ := (ihr (hp.content ▸ hv)).1 rfl
    have hlt := hfor.variant rfl
    refine ⟨fun _ => ⟨?_, hf.trans hp.content hf', fun _ => ?_⟩, fun hb => by cases hb⟩
    · have hp'' := hp.trans hp'
      rw [signatureSkip, if_neg (by decide), if_pos rfl, Nat.add_comm] at hp''
      exact hp''
    · have := hfi.le
      have := hf'.le
      omega
  | members ht hk he hi hx hr ihi ihr =>
    have hat := (enters_of_some he).at hv
    obtain ⟨hpi, hfi, hlt⟩ := (ihi (hat.content ▸ hv)).1 rfl
    obtain ⟨hp, hf, hri, hfor⟩ := container_passed hv he hpi hfi hx
    obtain ⟨hp', hf', -⟩ := (ihr (hp.content ▸ hv)).1 rfl
    obtain ⟨u, ts, -, rfl, hopens, hs⟩ := opens_of_length ht hk
    have hlt := hlt (hs ▸ sigs_ne_nil hopens.ne)
    refine ⟨fun _ => ⟨?_, hf.trans hp.content hf', fun _ => ?_⟩, fun hb => by cases hb⟩
    · have hp'' := hp.trans hp'
      obtain ⟨-, hdrop⟩ := take_drop_length hk
      have hlen : 1 + (Ty.sigs ts).length + 1 = u.sig.length := by
        rw [hopens.length]
        omega
      rw [signatureSkip, if_neg (by unfold membersType; split_ifs <;> decide),
        if_neg (by unfold membersType; split_ifs <;> decide), hs, hlen, hdrop] at hp''
      exact hp''
    · have := hfor.le
      have := hf'.le
      omega
  | stop h => exact ⟨fun hb => (by cases hb), fun _ _ => ⟨.refl _, .refl _⟩⟩
  | more h hr ih ihr =>
    refine ⟨fun hb => (by cases hb), fun _ ha => ?_⟩
    obtain ⟨hp, hf, -⟩ := (ih hv).1 rfl
    obtain ⟨hp', hf'⟩ := (ihr (hp.content ▸ hv)).2 rfl (hp.frame.enclosing.trans ha)
    -- in an array the index stays
    have hp₀ : Passed _ _ 0 :=
      ⟨hp.content, hp.outer, hp.frame, by rw [hp.index, if_pos ha, if_pos ha]⟩
    exact ⟨hp₀.trans hp', hf.trans hp.content hf'⟩

theorem ReturnsZero.nothing {m : SdBusMessage} {types : Str} (h : ReturnsZero m types) :
    (messageEndOfSignature m || messageEndOfArray m m.rindex) = true := by
  have henter : ∀ {type : UInt8} {s : Str}, type ≠ 0 →
      sdBusMessageEnterContainer m type (some s) = (.ok false, m) → Ends m := by
    intro type s hne h
    rw [sdBusMessageEnterContainer_some, if_neg hne] at h
    obtain ⟨r, he⟩ | ⟨-, he⟩ | ⟨r, ri, he, -⟩ | ⟨m', he, -⟩ := enterContainer_cases m type s
    · rw [he] at h
      cases h
    · exact he
    · rw [he] at h
      cases h
    · rw [he] at h
      cases h
  rw [Bool.or_eq_true]
  cases h with
  | @basic t types ht h =>
    obtain ⟨r, he⟩ | ⟨-, he⟩ | ⟨v, m', he, -⟩ := sdBusMessageReadBasic_cases m t
    · rw [he] at h
      cases h
    · exact .inr he.array
    · rw [he] at h
      cases h
  | array ht hk h => exact .inr (henter (by decide) h).array
  | variant ht h => exact (Bool.or_eq_true _ _).mp (sdBusMessagePeekType_nothing h)
  | members ht hk h =>
    refine .inr (henter ?_ h).array
    unfold membersType
    split_ifs <;> decide

theorem EnteredAt.not_returnsZero {m m₁ m₂ : SdBusMessage} {type : UInt8} {t₁ t₂ : Str}
    (h : EnteredAt m m₁ type (t₁ ++ t₂)) (ha : type ≠ sdBusTypeArray) (hp : Passed m₁ m₂ t₁.length)
    (hne : t₂ ≠ []) (h0 : (0 : UInt8) ∉ t₂) : ¬ReturnsZero m₂ t₂ := by
  intro hz
  have hend := hz.nothing
  have henclosing : m₂.last.enclosing = type := hp.frame.enclosing.trans h.enclosing
  have hrest : m₂.last.rest = t₂ := by
    unfold BusContainer.rest GVariant.Container.rest
    rw [hp.frame.signature, h.signature, hp.index, h.enclosing, if_neg ha, h.index, Nat.zero_add]
    exact List.drop_left
  have hcur : m₂.last.cur ≠ 0 := by
    unfold BusContainer.cur
    rw [hrest]
    obtain ⟨c, t, rfl⟩ := List.exists_cons_of_ne_nil hne
    exact fun hc => h0 (hc ▸ List.mem_cons_self)
  unfold messageEndOfSignature messageEndOfArray at hend
  rw [henclosing] at hend
  simp [hcur, ha] at hend

theorem signatureElementLength_append {s : Str} {k : Nat} (h : signatureElementLength s = some k)
    (r : Str) : k ≤ s.length ∧ signatureElementLength (s ++ r) = some k := by
  obtain ⟨u, hu, rfl, hfits⟩ := signatureElementLength_sound h
  have hlen := congrArg List.length hu
  rw [List.length_append] at hlen
  refine ⟨by omega, ?_⟩
  rw [hu, List.append_assoc]
  exact signatureElementLength_sig _ hfits

theorem membersOf_append {s : Str} {k : Nat} (h : k ≤ s.length) (r : Str) :
    membersOf (s ++ r) k = membersOf s k := by
  unfold membersOf
  rw [List.drop_append]
  exact List.take_append_of_le_length (by rw [List.length_drop]; omega)

theorem Reads.append {b : Bool} {m m' : SdBusMessage} {types : Str} {items : List Item}
    (h : Reads b m types items m') (hb : b = false) {m'' : SdBusMessage} {types' : Str}
    {items' : List Item} (h' : Reads false m' types' items' m'') :
    Reads false m (types ++ types') (items ++ items') m'' := by
  induction h with
  | nil => exact h'
  | basic ht h hr ih => exact .basic ht h (ih rfl h')
  | array ht hk he hi hx hr _ ih =>
    obtain ⟨hle, hk'⟩ := signatureElementLength_append hk types'
    rw [← List.take_append_of_le_length hle] at he hi ⊢
    have hr' := ih rfl h'
    rw [← List.drop_append_of_le_length hle] at hr'
    exact .array ht hk' he hi hx hr'
  | variant ht hp he hi hx hr _ ih => exact .variant ht hp he hi hx (ih rfl h')
  | members ht hk he hi hx hr _ ih =>
    obtain ⟨hle, hk'⟩ := signatureElementLength_append hk types'
    rw [← membersOf_append hle types'] at he hi ⊢
    have hr' := ih rfl h'
    rw [← List.drop_append_of_le_length hle] at hr'
    exact .members ht hk' he hi hx hr'
  | stop h => cases hb
  | more h hr => cases hb

theorem signatureElementLength_take {s : Str} {k : Nat} (h : signatureElementLength s = some k) :
    signatureElementLength (s.take k) = some k := by
  obtain ⟨u, hu, rfl, hfits⟩ := signatureElementLength_sound h
  have hsig := signatureElementLength_sig [] hfits
  rw [List.append_nil] at hsig
  rw [hu, List.take_left]
  exact hsig

section One
variable {m m₁ m₂ m₃ : SdBusMessage} {types : Str} {k : Nat} {inner : List Item}

theorem Reads.oneArray (hk : signatureElementLength types = some k)
    (he : sdBusMessageEnterContainer m sdBusTypeArray (some (types.take k)) = (.ok true, m₁))
    (hi : Reads true m₁ (types.take k) inner m₂) (hx : sdBusMessageExitContainer m₂ = (.ok (), m₃)) :
    Reads false m (sdBusTypeArray :: types.take k)
      [.container sdBusTypeArray (types.take k) inner] m₃ := by
  have htake : (types.take k).take k = types.take k := List.take_take.trans (by rw [min_self])
  have hdrop : (types.take k).drop k = [] := List.drop_of_length_le (List.length_take_le k types)
  have hr : Reads false m₃ ((types.take k).drop k) [] m₃ := hdrop ▸ .nil m₃
  have h := Reads.array rfl (signatureElementLength_take hk) (htake.symm ▸ he) (htake.symm ▸ hi) hx hr
  rw [htake] at h
  exact h

theorem Reads.oneMembers {t : UInt8} (ht : opensMembers t = true)
    (hk : signatureElementLength (t :: types) = some k)
    (he : sdBusMessageEnterContainer m (membersType t) (some (membersOf (t :: types) k)) =
      (.ok true, m₁))
    (hi : Reads false m₁ (membersOf (t :: types) k) inner m₂)
    (hx : sdBusMessageExitContainer m₂ = (.ok (), m₃)) :
    Reads false m ((t :: types).take k)
      [.container (membersType t) (membersOf (t :: types) k) inner] m₃ := by
  have hk' := signatureElementLength_take hk
  obtain ⟨hle, -⟩ := signatureElementLength_append hk []
  obtain ⟨j, rfl⟩ : ∃ j, k = j + 1 := Nat.exists_eq_succ_of_ne_zero (by
    rintro rfl
    obtain ⟨u, -, hlen, -⟩ := signatureElementLength_sound hk
    have := u.sig_pos
    omega)
  have hmembers : membersOf ((t :: types).take (j + 1)) (j + 1) = membersOf (t :: types) (j + 1) := by
    have h := membersOf_append (s := (t :: types).take (j + 1)) (k := j + 1)
      (by rw [List.length_take]; omega) ((t :: types).drop (j + 1))
    rw [List.take_append_drop] at h
    exact h.symm
  have hdrop : ((t :: types).take (j + 1)).drop (j + 1) = [] :=
    List.drop_of_length_le (List.length_take_le _ _)
  rw [← hmembers] at he hi ⊢
  rw [List.take_succ_cons] at hk' he hi hdrop ⊢
  exact .members ht hk' he hi hx (hdrop ▸ .nil m₃)

end One

end Basu.Reading
