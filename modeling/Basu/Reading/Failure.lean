import Basu.Reading.Agrees

/-! A call that fails, or that finds nothing to do, leaves the cursor of a message of version 1
where it is, but for the index that is saved in the last container. -/

namespace Basu.Reading
open Lib

/-- The cursor is at the same place: at the same index of the body, in the same containers, and at
the same index of the signature of each. -/
structure SameCursor (m m' : SdBusMessage) : Prop where
  content : m'.toContent = m.toContent
  rindex : m'.rindex = m.rindex
  last : ∃ saved, m'.last = m.last.alter saved m.last.stop m.last.itemSize
  outer : m'.outer = m.outer

inductive Fails : Except Stop Answer → Prop
  | error (r : Errno) : Fails (.error (.errno r))
  | zero {a : Answer} (h : a.isZero = true) : Fails (.ok a)

theorem not_fails_crash : ¬ Fails (.error .crash) := fun h => nomatch h

theorem not_fails_ok {a : Answer} (ha : a.isZero = false) : ¬ Fails (.ok a) := fun h => by
  cases h with
  | zero h =>
    rw [ha] at h
    cases h

theorem SameCursor.refl (m : SdBusMessage) : SameCursor m m :=
  ⟨rfl, rfl, ⟨m.last.savedIndex, rfl⟩, rfl⟩

theorem SameCursor.agrees {m m' : SdBusMessage} (h : SameCursor m m') : Agrees m m' where
  content := h.content
  last := by
    obtain ⟨saved, hs⟩ := h.last
    exact ⟨saved, ⟨_, _, hs⟩, fun _ => by rw [hs]; exact ⟨rfl, rfl⟩⟩
  outer := by
    rw [h.outer]
    exact List.forall₂_same.mpr fun c _ => .refl _ c
  rindex := h.rindex

section Failure
variable {m : SdBusMessage}

theorem sameCursor_save (m : SdBusMessage) : SameCursor m { m with last := m.last.save } :=
  ⟨rfl, rfl, ⟨m.last.index, rfl⟩, rfl⟩

theorem enterByType_dbus1 (hv : m.gvariant = false) {type : UInt8} {contents : Str} {r : Errno}
    {ri : Nat} (h : enterByType m type contents = (.error r, ri)) : ri = m.rindex := by
  have hmembers : ∀ r ri, enterStructOrDictEntry m contents = (.error r, ri) → ri = m.rindex := by
    intro r ri h
    unfold enterStructOrDictEntry at h
    dsimp only at h
    rw [if_neg (by simp [hv])] at h
    cases hp : messagePeekBody m.toContent m.rindex 8 0 with
    | error r =>
      rw [hp] at h
      cases h
      rfl
    | ok x =>
      rw [hp] at h
      cases h
  unfold enterByType busMessageEnterStruct busMessageEnterDictEntry at h
  split_ifs at h
  · exact (congrArg Prod.snd h).symm
  · exact (congrArg Prod.snd h).symm
  · exact (congrArg Prod.snd h).symm
  · exact (congrArg Prod.snd h).symm
  · exact hmembers r ri h
  · exact (congrArg Prod.snd h).symm
  · exact (congrArg Prod.snd h).symm
  · exact (congrArg Prod.snd h).symm
  · exact hmembers r ri h
  · exact (congrArg Prod.snd h).symm

theorem enterContainer_kept (hv : m.gvariant = false) (type : UInt8) (contents : Option Str) :
    (enterContainer m type contents).1 = .error .crash ∨
    (enterContainer m type contents).1 = .ok true ∨
    SameCursor m (enterContainer m type contents).2 := by
  cases contents with
  | none =>
    unfold enterContainer
    split_ifs
    · exact .inr (.inr (.refl m))
    · exact .inr (.inr (.refl m))
    · exact .inr (.inr (.refl m))
    · exact .inl rfl
  | some s =>
    obtain ⟨r, h⟩ | ⟨h, -⟩ | ⟨r, ri, h, he⟩ | ⟨m', h, -⟩ := enterContainer_cases m type s
    · rw [h]
      exact .inr (.inr (.refl m))
    · rw [h]
      exact .inr (.inr (.refl m))
    · rw [h, enterByType_dbus1 hv he]
      exact .inr (.inr (sameCursor_save m))
    · rw [h]
      exact .inr (.inl rfl)

theorem sdBusMessageEnterContainer_kept (hv : m.gvariant = false) (type : UInt8)
    (contents : Option Str) :
    (sdBusMessageEnterContainer m type contents).1 = .error .crash ∨
    (sdBusMessageEnterContainer m type contents).1 = .ok true ∨
    SameCursor m (sdBusMessageEnterContainer m type contents).2 := by
  unfold sdBusMessageEnterContainer
  cases contents with
  | some s =>
    dsimp only
    split_ifs
    · exact .inr (.inr (.refl m))
    · exact enterContainer_kept hv type (some s)
  | none =>
    dsimp only
    cases sdBusMessagePeekType m with
    | error r => exact .inr (.inr (.refl m))
    | ok t =>
      cases t with
      | none =>
        dsimp only
        split_ifs
        · exact .inr (.inr (.refl m))
        · exact enterContainer_kept hv 0 none
      | some t =>
        dsimp only
        split_ifs
        · exact .inr (.inr (.refl m))
        · exact enterContainer_kept hv t.1 t.2

theorem sdBusMessageExitContainer_kept (hv : m.gvariant = false) :
    (sdBusMessageExitContainer m).1 = .ok () ∨ (sdBusMessageExitContainer m).2 = m := by
  obtain ⟨r, h⟩ | ⟨c, cs, -, -, h⟩ := sdBusMessageExitContainer_cases m
  · rw [h]
    exact .inr rfl
  · have hresume : resume { m with last := c, outer := cs } = (.ok (), _) := resume_dbus1 hv
    rw [h, hresume]
    exact .inl rfl

theorem arrayBytes_cases (m : SdBusMessage) (align sz : Nat) (ha : 0 < align) :
    (∃ r, arrayBytes m align sz = (.error (.errno r), m)) ∨
    ∃ q ri, m.rindex ≤ ri ∧ arrayBytes m align sz = (.ok q, { m with rindex := ri }) := by
  unfold arrayBytes
  split_ifs
  · exact .inr ⟨[], m.rindex, le_rfl, rfl⟩
  cases hp : messagePeekBody m.toContent m.rindex align sz with
  | error r => exact .inl ⟨r, rfl⟩
  | ok x =>
    obtain ⟨hle, -⟩ := messagePeekBody_forward ha hp
    exact .inr ⟨x.1, x.2, by omega, rfl⟩

theorem messageQuitContainer_enter {m₁ : SdBusMessage} {type : UInt8} {contents : Str} {α : Type}
    (h : Enters m type contents m₁) (r : Stop) {ri : Nat} (hle : m.rindex ≤ ri) :
    ∃ m', messageQuitContainer (α := α) r { m₁ with rindex := ri } = (.error r, m') ∧
      SameCursor m m' := by
  obtain ⟨x, ri', -, rfl⟩ := h.entered
  unfold messageQuitContainer SdBusMessage.enter SdBusMessage.newContainer
  dsimp only
  rw [if_neg (Nat.not_lt.mpr hle)]
  refine ⟨_, rfl, rfl, rfl, ⟨m.last.index, ?_⟩, rfl⟩
  unfold BusContainer.advance GVariant.Container.advance
  dsimp only
  split_ifs <;> rfl

theorem align_pos (type : UInt8) : 0 < (busTypeGetAlignment type).getD 1 := by
  unfold busTypeGetAlignment
  split_ifs <;> decide

structure ReadsArray (m : SdBusMessage) (type : UInt8) (m' : SdBusMessage) : Prop where
  entered : ∃ m₁, Enters m sdBusTypeArray [type] m₁ ∧ ∃ c cs ri,
    m₁.outer = c :: cs ∧ m' = { m₁ with last := c, outer := cs, rindex := ri }

theorem sdBusMessageReadArray_cases (hv : m.gvariant = false) (type : UInt8) :
    (∃ r m', sdBusMessageReadArray m type = (.error (.errno r), m') ∧ SameCursor m m') ∨
    (sdBusMessageReadArray m type = (.ok none, m) ∧ Ends m) ∨
    ∃ q m', sdBusMessageReadArray m type = (.ok (some q), m') ∧ ReadsArray m type m' := by
  unfold sdBusMessageReadArray
  split_ifs
  · exact .inl ⟨_, m, rfl, .refl m⟩
  · exact .inl ⟨_, m, rfl, .refl m⟩
  rw [sdBusMessageEnterContainer_some, if_neg (by decide)]
  obtain ⟨r, h⟩ | ⟨h, hends⟩ | ⟨r, ri, h, he⟩ | ⟨m₁, h, hm₁⟩ :=
    enterContainer_cases m sdBusTypeArray [type]
  · rw [h]
    exact .inl ⟨r, m, rfl, .refl m⟩
  · rw [h]
    exact .inr (.inl ⟨rfl, hends⟩)
  · rw [h, enterByType_dbus1 hv he]
    exact .inl ⟨r, _, rfl, sameCursor_save m⟩
  have hv₁ : m₁.gvariant = false := by
    obtain ⟨x, ri, -, rfl⟩ := hm₁.entered
    exact hv
  have hle : m.rindex ≤ m₁.rindex := by
    obtain ⟨x, ri, hx, rfl⟩ := hm₁.entered
    exact (enterByType_forward hv hx).le
  rw [h]
  dsimp only
  rw [if_neg (c := m₁.gvariant = true) (by rw [hv₁]; decide)]
  generalize (if m₁.gvariant then _ else _ : Nat) = sz
  obtain ⟨r, hb⟩ | ⟨q, ri, hri, hb⟩ := arrayBytes_cases m₁ ((busTypeGetAlignment type).getD 1) sz
    (align_pos type)
  · obtain ⟨m', hq, hm'⟩ := messageQuitContainer_enter (α := Option Bytes) hm₁ (.errno r) hle
    rw [hb]
    exact .inl ⟨r, m', hq, hm'⟩
  rw [hb]
  dsimp only
  obtain ⟨r, hx⟩ | ⟨c, cs, hm, -, hx⟩ := sdBusMessageExitContainer_cases { m₁ with rindex := ri }
  · obtain ⟨m', hq, hm'⟩ :=
      messageQuitContainer_enter (α := Option Bytes) hm₁ (.errno r) (hle.trans hri)
    rw [hx]
    exact .inl ⟨r, m', hq, hm'⟩
  · have hresume : resume { m₁ with last := c, outer := cs, rindex := ri } = (.ok (), _) :=
      resume_dbus1 hv₁
    rw [hx, hresume]
    exact .inr (.inr ⟨q, _, rfl, ⟨m₁, hm₁, c, cs, ri, hm, rfl⟩⟩)

end Failure

/-- A call that returns an error, or 0, leaves the cursor where it is, and whatever is called then
is answered as if the call had not been made. -/
theorem exec_keepsCursor {m : SdBusMessage} (hv : m.gvariant = false) {x : Call}
    (hx : Fails (x.exec m).1) :
    SameCursor m (x.exec m).2 ∧ ∀ xs, (run (x.exec m).2 xs).1 = (run m xs).1 := by
  have hkept : SameCursor m (x.exec m).2 := by
    cases x with
    | readBasic type =>
      obtain ⟨r, h⟩ | ⟨h, -⟩ | ⟨v, m', h, -⟩ := sdBusMessageReadBasic_cases m type
      · simp only [Call.exec, h]
        exact .refl m
      · simp only [Call.exec, h]
        exact .refl m
      · simp only [Call.exec, h] at hx
        exact absurd hx (not_fails_ok rfl)
    | enterContainer type contents =>
      simp only [Call.exec] at hx ⊢
      obtain h | h | h := sdBusMessageEnterContainer_kept hv type (contents.map (·.1))
      · rw [h] at hx
        exact absurd hx not_fails_crash
      · rw [h] at hx
        exact absurd hx (not_fails_ok rfl)
      · exact h
    | exitContainer =>
      simp only [Call.exec] at hx ⊢
      obtain h | h := sdBusMessageExitContainer_kept hv
      · rw [h] at hx
        exact absurd hx (not_fails_ok rfl)
      · rw [h]
        exact .refl m
    | readArray type =>
      simp only [Call.exec] at hx ⊢
      obtain ⟨r, m', h, hm'⟩ | ⟨h, -⟩ | ⟨q, m', h, -⟩ := sdBusMessageReadArray_cases hv type
      · rw [h]
        exact hm'
      · rw [h]
        exact .refl m
      · rw [h] at hx
        exact absurd hx (not_fails_ok rfl)
    | peekType => exact .refl m
  exact ⟨hkept, fun xs => (hkept.agrees.run xs).1⟩

def cutString : SdBusMessage :=
  { gvariant := false, endian := .little, nativeEndian := .little
    body := [3, 0, 0, 0, 97], userBodySize := 5, last := { signature := some [sdBusTypeString] } }

theorem exec_keepsCursor_cutString :
    SameCursor cutString ((Call.readBasic sdBusTypeString).exec cutString).2 ∧
      ∀ xs, (run ((Call.readBasic sdBusTypeString).exec cutString).2 xs).1 =
        (run cutString xs).1 :=
  exec_keepsCursor rfl (.error .ebadmsg)

end Basu.Reading
