import Basu.GVariant.Inside
import Basu.Reading.Failure

/-! What is reachable in a sealed message, and the signatures of the containers reached: the index
of each is between two complete types, and a dictionary entry comes only in an array. -/

namespace Basu.Reading
open Lib GVariant

inductive Op
  | call (x : Call)
  | rewind (complete : Bool)

def Op.exec (m : SdBusMessage) : Op → SdBusMessage
  | .call x => (x.exec m).2
  | .rewind complete => (sdBusMessageRewind m complete).2

def after (m : SdBusMessage) (xs : List Op) : SdBusMessage := xs.foldl Op.exec m

theorem op_content (m : SdBusMessage) (x : Op) : (x.exec m).toContent = m.toContent := by
  cases x with
  | call x => exact exec_content m x
  | rewind complete => cases complete <;> rfl

theorem after_content (m : SdBusMessage) (xs : List Op) :
    (after m xs).toContent = m.toContent := by
  induction xs generalizing m with
  | nil => rfl
  | cons x xs ih => exact (ih (x.exec m)).trans (op_content m x)

def isDictEntry : Ty → Bool
  | .dictEntry _ _ => true
  | _ => false

/-- The signature of a body: complete types, none of them a dictionary entry. Version 1 sends it in
a field. -/
structure BodySignature (s : Str) : Prop where
  types : ∃ ts, s = Ty.sigs ts ∧ ∀ t ∈ ts, isDictEntry t = false
  length : s.length ≤ 255

/-- A sealed message that nothing has been read from. Where the body is empty, it does not matter
where the cursor is. -/
structure Fresh (m : SdBusMessage) : Prop where
  outer : m.outer = []
  rindex : m.last.rest ≠ [] → m.rindex = 0
  enclosing : m.last.enclosing = 0
  index : m.last.index = 0
  begin : m.last.begin = 0
  offsetIndex : m.last.offsetIndex = 0
  /-- The first item of the body, if there is one. -/
  itemSize : m.gvariant = true → m.last.rest ≠ [] →
    m.last.itemSize = if m.last.offsets.isEmpty then m.last.stop else m.last.offsets.headD 0
  signature : m.gvariant = false → BodySignature (strempty m.last.signature)

def Reachable (m : SdBusMessage) : Prop := ∃ m₀ xs, Fresh m₀ ∧ m = after m₀ xs

structure Typed (c : BusContainer) : Prop where
  types : ∃ past ts, strempty c.signature = Ty.sigs (past ++ ts) ∧
    c.index = (Ty.sigs past).length ∧
    (c.enclosing ≠ sdBusTypeArray → ∀ t ∈ past ++ ts, isDictEntry t = false)
  length : (strempty c.signature).length ≤ 255

theorem Typed.rest {c : BusContainer} (h : Typed c) : ∃ ts, c.rest = Ty.sigs ts ∧
    (c.enclosing ≠ sdBusTypeArray → ∀ t ∈ ts, isDictEntry t = false) := by
  obtain ⟨past, ts, hs, hi, hd⟩ := h.types
  refine ⟨ts, ?_, fun hne t ht => hd hne t (List.mem_append_right past ht)⟩
  unfold BusContainer.rest GVariant.Container.rest
  rw [hs, hi, Ty.sigs_append, List.drop_left]

theorem Typed.length_rest {c : BusContainer} (h : Typed c) : c.rest.length ≤ 255 := by
  unfold BusContainer.rest GVariant.Container.rest
  rw [List.length_drop]
  exact (Nat.sub_le _ _).trans h.length

theorem Typed.next {c : BusContainer} (h : Typed c) (hne : c.cur ≠ 0) : ∃ t r,
    c.rest = t.sig ++ r ∧ c.cur = t.head ∧
    (c.enclosing ≠ sdBusTypeArray → isDictEntry t = false) := by
  obtain ⟨ts, hts, hd⟩ := h.rest
  cases ts with
  | nil =>
    refine absurd ?_ hne
    unfold BusContainer.cur
    rw [hts]
    rfl
  | cons t ts =>
    refine ⟨t, Ty.sigs ts, hts, ?_, fun hc => hd hc t (by simp)⟩
    unfold BusContainer.cur
    rw [hts, Ty.sigs, t.charAt_sig_append]

theorem Typed.advance {c : BusContainer} (h : Typed c) {t : Ty} {r : Str}
    (hr : c.rest = t.sig ++ r) : Typed (c.advance t.sig.length) := by
  unfold BusContainer.advance GVariant.Container.advance
  split_ifs with harray
  · exact h
  obtain ⟨past, ts, hs, hi, hd⟩ := h.types
  have hrest : Ty.sigs ts = t.sig ++ r := by
    rw [← hr]
    unfold BusContainer.rest GVariant.Container.rest
    rw [hs, hi, Ty.sigs_append, List.drop_left]
  obtain ⟨us, rfl, rfl⟩ := Ty.sigs_eq_sig_append hrest
  refine ⟨⟨past ++ [t], us, ?_, ?_, ?_⟩, h.length⟩
  · rw [List.append_assoc, List.singleton_append]
    exact hs
  · rw [Ty.sigs_append, List.length_append, Ty.sigs_singleton, ← hi]
  · rw [List.append_assoc, List.singleton_append]
    exact hd

theorem Typed.of_eq {c c' : BusContainer} (h : Typed c) (he : c'.enclosing = c.enclosing)
    (hs : c'.signature = c.signature) (hi : c'.index = c.index) : Typed c' := by
  refine ⟨?_, ?_⟩
  · rw [he, hs, hi]
    exact h.types
  · rw [hs]
    exact h.length

structure WellTyped (m : SdBusMessage) : Prop where
  dbus1 : m.gvariant = false
  last : Typed m.last
  outer : ∀ c ∈ m.outer, Typed c

theorem Fresh.wellTyped {m : SdBusMessage} (h : Fresh m) (hv : m.gvariant = false) :
    WellTyped m where
  dbus1 := hv
  last := by
    obtain ⟨⟨ts, hts, hd⟩, hlen⟩ := h.signature hv
    exact ⟨⟨[], ts, hts, h.index, fun _ => hd⟩, hlen⟩
  outer := by
    rw [h.outer]
    simp

theorem eq_struct_of_head {t : Ty} (h : t.head = sdBusTypeStructBegin) : ∃ ts, t = .struct ts := by
  cases t with
  | struct ts => exact ⟨ts, rfl⟩
  | basic b => exact absurd h b.code_ne_struct
  | variant => cases h
  | array u => cases h
  | dictEntry k v => cases h

theorem eq_dictEntry_of_head {t : Ty} (h : t.head = sdBusTypeDictEntryBegin) :
    ∃ k v, t = .dictEntry k v := by
  cases t with
  | dictEntry k v => exact ⟨k, v, rfl⟩
  | basic b => exact absurd h b.code_ne_dict
  | variant => cases h
  | array u => cases h
  | struct ts => cases h

section WellTyped
variable {m : SdBusMessage}

theorem WellTyped.sdBusMessageReadBasic (h : WellTyped m) (type : UInt8) :
    WellTyped (sdBusMessageReadBasic m type).2 := by
  obtain ⟨r, he⟩ | ⟨he, -⟩ | ⟨v, m', he, hm'⟩ := sdBusMessageReadBasic_cases m type
  · rw [he]
    exact h
  · rw [he]
    exact h
  rw [he]
  obtain ⟨b, ri, c, ri', hb, -, hn, rfl⟩ := hm'.value
  obtain rfl : type = b.code := (Basic.code_of_ofCode hb).symm
  rw [containerNextItem_dbus1 h.dbus1] at hn
  cases hn
  obtain ⟨t, r, hr, hcur, -⟩ := h.last.next (by rw [hm'.cur]; exact b.code_ne_zero)
  obtain rfl : t = .basic b := Ty.eq_basic_of_head (hcur.symm.trans hm'.cur)
  exact ⟨h.dbus1, h.last.advance hr, h.outer⟩

structure EntersType (m : SdBusMessage) (type : UInt8) (contents : Str) (skip : Nat) : Prop where
  first : ∃ (t : Ty) (r : Str), m.last.rest = t.sig ++ r ∧ skip = t.sig.length
  types : ∃ ts, contents = Ty.sigs ts ∧
    (type ≠ sdBusTypeArray → ∀ t ∈ ts, isDictEntry t = false)
  length : contents.length ≤ 255

theorem isDictEntry_of_fits {t : Ty} {a d : Nat} (h : t.Fits false a d) : isDictEntry t = false := by
  cases t with
  | dictEntry k v =>
    rw [Ty.Fits] at h
    exact absurd h.1 Bool.false_ne_true
  | _ => rfl

theorem Typed.zero_notMem {c : BusContainer} (h : Typed c) {p r : Str}
    (hr : c.rest.drop 1 = p ++ r) : (0 : UInt8) ∉ p := fun hm => by
  obtain ⟨ts, hts, -⟩ := h.rest
  have hm' : (0 : UInt8) ∈ c.rest.drop 1 := hr ▸ List.mem_append_left r hm
  rw [hts] at hm'
  exact Ty.zero_notMem_sigs _ (List.mem_of_mem_drop hm')

theorem enterArrayDbus1_skip {d : Content} {ri : Nat} {contents : Str} {x : Entered}
    (h : enterArrayDbus1 d ri contents = .ok x) : x.skip = 1 + contents.length := by
  unfold enterArrayDbus1 at h
  split at h
  · cases h
  split_ifs at h
  split at h
  · cases h
  split at h <;> cases h
  rfl

theorem WellTyped.busMessageEnterArray (h : WellTyped m) {contents : Str} {x : Entered}
    (hx : busMessageEnterArray m contents = .ok x) :
    EntersType m sdBusTypeArray contents x.skip := by
  unfold Reading.busMessageEnterArray at hx
  dsimp only at hx
  split_ifs at hx with hsingle hcur hprefix hv
  · rw [h.dbus1] at hv
    cases hv
  obtain ⟨r, hr⟩ := isPrefix_of_isPrefixOf hprefix
  have hcur' : m.last.cur = sdBusTypeArray := Decidable.not_not.mp hcur
  obtain ⟨t, r', hrest, hhead, -⟩ := h.last.next (by rw [hcur']; decide)
  obtain ⟨u, rfl⟩ := eq_array_of_head (hhead.symm.trans hcur')
  obtain ⟨w, rfl, hw⟩ := (signatureIsSingle_iff (h.last.zero_notMem hr) true).mp
    (Bool.eq_true_of_not_eq_false hsingle)
  have hr' := hr
  rw [hrest, Ty.sig, List.cons_append, List.drop_succ_cons, List.drop_zero] at hr'
  obtain ⟨rfl, rfl⟩ := Ty.sig_append_inj u w _ _ hr'
  refine ⟨⟨.array u, r', hrest, ?_⟩, ⟨[u], (Ty.sigs_singleton u).symm, fun hne => absurd rfl hne⟩,
    ?_⟩
  · rw [enterArrayDbus1_skip hx, Ty.sig, List.length_cons, Nat.add_comm]
  · have hlen := h.last.length_rest
    rw [hrest, Ty.sig, List.length_append, List.length_cons] at hlen
    omega

theorem validateText_text {validate : Str → Bool} {q : Bytes} {l : Nat}
    (h : validateText validate q l = true) :
    (0 : UInt8) ∉ q.take l ∧ validate (q.take l) = true := by
  unfold validateText validateNul at h
  simp only [Bool.and_eq_true, Bool.not_eq_true', List.contains_eq_mem,
    decide_eq_false_iff_not] at h
  exact ⟨h.1.1, h.2⟩

theorem peekText_text {d : Content} {validate : Str → Bool} {ri l ri' : Nat} {s : Str}
    (h : peekText d validate ri l = .ok (s, ri')) : (0 : UInt8) ∉ s ∧ validate s = true := by
  unfold peekText at h
  split at h
  · cases h
  split_ifs at h with hvalid
  cases h
  exact validateText_text hvalid

theorem peekSignature_valid {d : Content} {ri ri' : Nat} {s : Str}
    (h : peekSignature d ri = .ok (s, ri')) : (0 : UInt8) ∉ s ∧ signatureIsValid s true = true := by
  unfold peekSignature at h
  split at h
  · cases h
  dsimp only at h
  split_ifs at h
  exact peekText_text h

theorem WellTyped.busMessageEnterVariant (h : WellTyped m) {contents : Str} {x : Entered}
    (hx : busMessageEnterVariant m contents = .ok x) :
    EntersType m sdBusTypeVariant contents x.skip := by
  unfold Reading.busMessageEnterVariant at hx
  dsimp only at hx
  rw [if_neg (c := m.gvariant = true) (by rw [h.dbus1]; decide)] at hx
  split_ifs at hx with hsingle hdict hcur
  split at hx
  · cases hx
  rename_i hp
  split_ifs at hx with hne
  cases hx
  obtain rfl := Decidable.not_not.mp hne
  obtain ⟨h0, hvalid⟩ := peekSignature_valid hp
  obtain ⟨w, rfl, hw⟩ := (signatureIsSingle_iff h0 false).mp (Bool.eq_true_of_not_eq_false hsingle)
  obtain ⟨-, -, -, hlen⟩ := (signatureIsValid_iff h0 true).mp hvalid
  have hcur' : m.last.cur = sdBusTypeVariant := Decidable.not_not.mp hcur
  obtain ⟨t, r', hrest, hhead, -⟩ := h.last.next (by rw [hcur']; decide)
  obtain rfl := eq_variant_of_head (hhead.symm.trans hcur')
  refine ⟨⟨.variant, r', hrest, rfl⟩, ⟨[w], (Ty.sigs_singleton w).symm, fun _ t ht => ?_⟩, hlen⟩
  obtain rfl := List.mem_singleton.mp ht
  exact isDictEntry_of_fits hw

theorem enterMembers_skip {contents : Str} {x : Entered} {ri : Nat} (hv : m.gvariant = false)
    (h : enterStructOrDictEntry m contents = (.ok x, ri)) : x.skip = contents.length + 2 := by
  unfold enterStructOrDictEntry at h
  dsimp only at h
  rw [if_neg (by rw [hv]; decide)] at h
  split at h <;> cases h
  exact congrArg (· + 1) (Nat.add_comm 1 _)

theorem WellTyped.busMessageEnterStruct (h : WellTyped m) {contents : Str} {x : Entered} {ri : Nat}
    (hx : busMessageEnterStruct m contents = (.ok x, ri)) :
    EntersType m sdBusTypeStruct contents x.skip := by
  unfold Reading.busMessageEnterStruct at hx
  split_ifs at hx with hvalid hmembers
  · cases hx
  · cases hx
  obtain ⟨hcur, r, hr⟩ := hasMembers_ok (by decide) hmembers
  obtain ⟨ts, rfl, hts, hlen⟩ := (signatureIsValid_iff (h.last.zero_notMem hr) false).mp
    (Bool.eq_true_of_not_eq_false hvalid)
  obtain ⟨t, r', hrest, hhead, -⟩ := h.last.next
    (by rw [show m.last.cur = _ from hcur]; decide)
  obtain ⟨us, rfl⟩ := eq_struct_of_head (hhead.symm.trans hcur)
  have hr' : m.last.rest.drop 1 = _ := hr
  rw [hrest, Ty.sig, List.cons_append, List.drop_succ_cons, List.drop_zero,
    List.append_assoc] at hr'
  obtain ⟨rfl, -⟩ := Ty.sigs_append_inj us ts _ _ _ Ty.head_ne_structEnd hr'
  refine ⟨⟨.struct us, r', hrest, ?_⟩, ⟨us, rfl, fun _ t ht => isDictEntry_of_fits (hts t ht)⟩, hlen⟩
  rw [enterMembers_skip h.dbus1 hx, Ty.sig, List.length_cons, List.length_append]
  rfl

theorem WellTyped.busMessageEnterDictEntry (h : WellTyped m) {contents : Str} {x : Entered}
    {ri : Nat} (hx : busMessageEnterDictEntry m contents = (.ok x, ri)) :
    EntersType m sdBusTypeDictEntry contents x.skip := by
  unfold Reading.busMessageEnterDictEntry at hx
  split_ifs at hx with hpair harray hmembers
  · cases hx
  · cases hx
  · cases hx
  obtain ⟨hcur, r, hr⟩ := hasMembers_ok (by decide) hmembers
  obtain ⟨k, v, rfl, hfits⟩ := (signatureIsPair_iff (h.last.zero_notMem hr)).mp
    (Bool.eq_true_of_not_eq_false hpair)
  obtain ⟨t, r', hrest, hhead, -⟩ := h.last.next
    (by rw [show m.last.cur = _ from hcur]; decide)
  obtain ⟨k', v', rfl⟩ := eq_dictEntry_of_head (hhead.symm.trans hcur)
  have hpairs : ∀ (k : Basic) (v : Ty), k.code :: v.sig = Ty.sigs [.basic k, v] := fun k v => by
    simp only [Ty.sigs, Ty.sig, List.singleton_append, List.append_nil]
  have hr' : m.last.rest.drop 1 = _ := hr
  rw [hrest, Ty.sig, List.cons_append, List.drop_succ_cons, List.drop_zero,
    List.cons_append, List.append_assoc, ← List.cons_append, hpairs, hpairs] at hr'
  obtain ⟨heq, -⟩ := Ty.sigs_append_inj _ _ _ _ _ Ty.head_ne_dictEnd hr'
  have hlen := h.last.length_rest
  rw [hrest, Ty.sig] at hlen
  obtain ⟨⟨rfl⟩, rfl⟩ : k = k' ∧ v = v' := by simpa [eq_comm] using heq
  refine ⟨⟨.dictEntry k v, r', hrest, ?_⟩, ⟨[.basic k, v], hpairs k v, fun _ t ht => ?_⟩, ?_⟩
  · rw [enterMembers_skip h.dbus1 hx, Ty.sig]
    simp
  · rcases List.mem_pair.mp ht with rfl | rfl
    · rfl
    · exact isDictEntry_of_fits hfits
  · simp only [List.length_append, List.length_cons] at hlen ⊢
    omega

theorem WellTyped.enterByType (h : WellTyped m) {type : UInt8} {contents : Str} {x : Entered}
    {ri : Nat} (hx : enterByType m type contents = (.ok x, ri)) :
    EntersType m type contents x.skip := by
  unfold Reading.enterByType at hx
  split_ifs at hx with ha hv hs hd
  · rw [ha]
    exact h.busMessageEnterArray (congrArg Prod.fst hx)
  · rw [hv]
    exact h.busMessageEnterVariant (congrArg Prod.fst hx)
  · rw [hs]
    exact h.busMessageEnterStruct hx
  · rw [hd]
    exact h.busMessageEnterDictEntry hx
  · cases hx

theorem WellTyped.enterContainer (h : WellTyped m) (type : UInt8) (contents : Option Str) :
    WellTyped (enterContainer m type contents).2 := by
  cases contents with
  | none =>
    unfold Reading.enterContainer
    split_ifs <;> exact h
  | some s =>
    obtain ⟨r, he⟩ | ⟨he, -⟩ | ⟨r, ri, he, -⟩ | ⟨m', he, hm'⟩ := enterContainer_cases m type s
    · rw [he]
      exact h
    · rw [he]
      exact h
    · rw [he]
      exact ⟨h.dbus1, h.last.of_eq rfl rfl rfl, h.outer⟩
    rw [he]
    obtain ⟨x, ri, hx, rfl⟩ := hm'.entered
    obtain ⟨⟨t, r, hrest, hskip⟩, ⟨ts, hts, hd⟩, hlen⟩ := h.enterByType hx
    have houter : Typed (m.last.save.advance x.skip) := by
      rw [hskip]
      exact Typed.advance (c := m.last.save) (h.last.of_eq rfl rfl rfl) hrest
    refine ⟨h.dbus1, ⟨⟨[], ts, hts, rfl, hd⟩, hlen⟩, fun c hc => ?_⟩
    rcases List.mem_cons.mp hc with rfl | hc
    · exact houter
    · exact h.outer c hc

theorem WellTyped.sdBusMessageEnterContainer (h : WellTyped m) (type : UInt8)
    (contents : Option Str) : WellTyped (sdBusMessageEnterContainer m type contents).2 := by
  unfold Reading.sdBusMessageEnterContainer
  cases contents with
  | some s =>
    dsimp only
    split_ifs
    · exact h
    · exact h.enterContainer type (some s)
  | none =>
    dsimp only
    cases Reading.sdBusMessagePeekType m with
    | error r => exact h
    | ok t =>
      cases t with
      | none =>
        dsimp only
        split_ifs
        · exact h
        · exact h.enterContainer 0 none
      | some t =>
        dsimp only
        split_ifs
        · exact h
        · exact h.enterContainer t.1 t.2

theorem WellTyped.sdBusMessageExitContainer (h : WellTyped m) :
    WellTyped (sdBusMessageExitContainer m).2 := by
  obtain ⟨r, he⟩ | ⟨c, cs, hm, -, he⟩ := sdBusMessageExitContainer_cases m
  · rw [he]
    exact h
  · have hmem := h.outer
    rw [hm] at hmem
    have hresume : resume { m with last := c, outer := cs } = (.ok (), _) := resume_dbus1 h.dbus1
    rw [he, hresume]
    exact ⟨h.dbus1, hmem c (by simp), fun d hd => hmem d (by simp [hd])⟩

theorem WellTyped.sameCursor (h : WellTyped m) {m' : SdBusMessage} (hs : SameCursor m m') :
    WellTyped m' where
  dbus1 := by
    rw [hs.content]
    exact h.dbus1
  last := by
    obtain ⟨saved, heq⟩ := hs.last
    rw [heq]
    exact h.last.of_eq rfl rfl rfl
  outer := by
    rw [hs.outer]
    exact h.outer

theorem WellTyped.sdBusMessageReadArray (h : WellTyped m) (type : UInt8) :
    WellTyped (sdBusMessageReadArray m type).2 := by
  obtain ⟨r, m', he, hm'⟩ | ⟨he, -⟩ | ⟨q, m', he, hm'⟩ := sdBusMessageReadArray_cases h.dbus1 type
  · rw [he]
    exact h.sameCursor hm'
  · rw [he]
    exact h
  obtain ⟨m₁, hm₁, c, cs, ri, houter, rfl⟩ := hm'.entered
  have hdepth : (Reading.enterContainer m sdBusTypeArray (some [type])).2 = m₁ := by
    obtain ⟨x, ri, hx, rfl⟩ := hm₁.entered
    unfold Reading.enterContainer
    rw [if_neg (Nat.not_le.mpr hm₁.depth), if_neg (by rw [hm₁.more.signature]; decide),
      if_neg (by rw [hm₁.more.array]; decide)]
    dsimp only
    rw [hx]
  have h₁ := h.enterContainer sdBusTypeArray (some [type])
  rw [hdepth] at h₁
  have hmem := h₁.outer
  rw [houter] at hmem
  rw [he]
  exact ⟨h₁.dbus1, hmem c (by simp), fun d hd => hmem d (by simp [hd])⟩

theorem WellTyped.exec (h : WellTyped m) (x : Call) : WellTyped (x.exec m).2 := by
  cases x with
  | readBasic type => exact h.sdBusMessageReadBasic type
  | enterContainer type contents => exact h.sdBusMessageEnterContainer type (contents.map (·.1))
  | exitContainer => exact h.sdBusMessageExitContainer
  | readArray type => exact h.sdBusMessageReadArray type
  | peekType => exact h

theorem Typed.restart {c : BusContainer} (h : Typed c) : Typed c.restart := by
  obtain ⟨past, ts, hs, -, hd⟩ := h.types
  exact ⟨⟨[], past ++ ts, hs, rfl, hd⟩, h.length⟩

theorem getLastD_mem {α : Type} (xs : List α) (x : α) : xs.getLastD x ∈ x :: xs := by
  rw [List.getLastD_eq_getLast?]
  cases h : xs.getLast? with
  | none => simp
  | some y => exact List.mem_cons_of_mem x (List.mem_of_getLast? h)

theorem WellTyped.sdBusMessageRewind (h : WellTyped m) (complete : Bool) :
    WellTyped (sdBusMessageRewind m complete).2 := by
  cases complete with
  | true =>
    have hroot : Typed m.root := by
      rcases List.mem_cons.mp (getLastD_mem m.outer m.last) with hr | hr
      · rw [SdBusMessage.root, hr]
        exact h.last
      · exact h.outer _ hr
    exact ⟨h.dbus1, hroot.restart, by simp [Reading.sdBusMessageRewind]⟩
  | false => exact ⟨h.dbus1, h.last.restart, h.outer⟩

end WellTyped

theorem WellTyped.op {m : SdBusMessage} (h : WellTyped m) (x : Op) : WellTyped (x.exec m) := by
  cases x with
  | call x => exact h.exec x
  | rewind complete => exact h.sdBusMessageRewind complete

theorem Reachable.wellTyped {m : SdBusMessage} (h : Reachable m) (hv : m.gvariant = false) :
    WellTyped m := by
  obtain ⟨m₀, xs, h₀, rfl⟩ := h
  have hv₀ : m₀.gvariant = false := by
    rw [← congrArg Content.gvariant (after_content m₀ xs)]
    exact hv
  have hstart := h₀.wellTyped hv₀
  clear h₀ hv hv₀
  induction xs generalizing m₀ with
  | nil => exact hstart
  | cons x xs ih => exact ih (x.exec m₀) (hstart.op x)

end Basu.Reading
