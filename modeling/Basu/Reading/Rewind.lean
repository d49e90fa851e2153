import Basu.Reading.Peek

/-! Rewinding. Whatever is read inside a container moves its cursor only: where it begins and ends
stays, and so do the containers around it. Rewinding restores the cursor that entering has set, but
for the size of the first item of some containers of version 2. -/

namespace Basu.Reading
open Lib GVariant

/-! ## What stays of a container -/

def SameFrame (c c' : BusContainer) : Prop :=
  ∃ index saved offsetIndex itemSize, c' = { c with toContainer := { c.toContainer with
    index := index, savedIndex := saved, offsetIndex := offsetIndex, itemSize := itemSize } }

theorem SameFrame.refl (c : BusContainer) : SameFrame c c := ⟨_, _, _, _, rfl⟩

theorem SameFrame.trans {c c' c'' : BusContainer} (h : SameFrame c c') (h' : SameFrame c' c'') :
    SameFrame c c'' := by
  obtain ⟨i, s, o, z, rfl⟩ := h
  obtain ⟨i', s', o', z', rfl⟩ := h'
  exact ⟨i', s', o', z', rfl⟩

theorem SameFrame.signature {c c' : BusContainer} (h : SameFrame c c') :
    c'.signature = c.signature := by
  obtain ⟨i, s, o, z, rfl⟩ := h
  rfl

theorem SameFrame.begin {c c' : BusContainer} (h : SameFrame c c') : c'.begin = c.begin := by
  obtain ⟨i, s, o, z, rfl⟩ := h
  rfl

theorem sameFrame_advance (c : BusContainer) (n : Nat) : SameFrame c (c.advance n) := by
  unfold BusContainer.advance GVariant.Container.advance
  split_ifs <;> exact ⟨_, _, _, _, rfl⟩

theorem sameFrame_save (c : BusContainer) : SameFrame c c.save := ⟨_, _, _, _, rfl⟩

theorem sameFrame_setIndex (c : BusContainer) (index : Nat) : SameFrame c (c.setIndex index) :=
  ⟨_, _, _, _, rfl⟩

theorem sameFrame_restart (c : BusContainer) : SameFrame c c.restart := ⟨_, _, _, _, rfl⟩

theorem sameFrame_nextItem {d : Content} {c c' : BusContainer} {ri ri' : Nat}
    (h : containerNextItem d c ri = .ok (c', ri')) : SameFrame c c' := by
  unfold containerNextItem at h
  split_ifs at h
  · obtain ⟨x, hx, hc⟩ := exists_of_map h
    have hkept := containerNextItem_kept hx
    cases hc
    rw [hkept]
    exact ⟨_, _, _, _, rfl⟩
  · cases h
    exact .refl c

/-! ## What a call does to the containers -/

inductive Moves (m m' : SdBusMessage) : Prop
  | stay (hl : SameFrame m.last m'.last) (ho : m'.outer = m.outer)
  | push {c : BusContainer} (hl : SameFrame m.last c) (ho : m'.outer = c :: m.outer)
  | pop {c : BusContainer} (hl : SameFrame c m'.last) (ho : m.outer = c :: m'.outer)

theorem Moves.refl (m : SdBusMessage) : Moves m m := .stay (.refl _) rfl

section Moves
variable {m : SdBusMessage}

theorem sdBusMessageReadBasic_moves (m : SdBusMessage) (type : UInt8) :
    Moves m (sdBusMessageReadBasic m type).2 := by
  obtain ⟨r, h⟩ | ⟨h, -⟩ | ⟨v, m', h, hm'⟩ := sdBusMessageReadBasic_cases m type
  · rw [h]
    exact .refl m
  · rw [h]
    exact .refl m
  · obtain ⟨b, ri, c, ri', -, -, hn, rfl⟩ := hm'.value
    rw [h]
    exact .stay ((sameFrame_nextItem hn).trans (sameFrame_advance c 1)) rfl

theorem Enters.pushes {type : UInt8} {contents : Str} {m' : SdBusMessage}
    (h : Enters m type contents m') : ∃ c, SameFrame m.last c ∧ m'.outer = c :: m.outer := by
  obtain ⟨x, ri, -, rfl⟩ := h.entered
  exact ⟨_, (sameFrame_save m.last).trans (sameFrame_advance _ _), rfl⟩

theorem enterContainer_moves (m : SdBusMessage) (type : UInt8) (contents : Option Str) :
    Moves m (enterContainer m type contents).2 := by
  cases contents with
  | none =>
    unfold enterContainer
    split_ifs <;> exact .refl m
  | some s =>
    obtain ⟨r, h⟩ | ⟨h, -⟩ | ⟨r, ri, h, -⟩ | ⟨m', h, hm'⟩ := enterContainer_cases m type s
    · rw [h]
      exact .refl m
    · rw [h]
      exact .refl m
    · rw [h]
      exact .stay (sameFrame_save _) rfl
    · obtain ⟨c, hl, ho⟩ := hm'.pushes
      rw [h]
      exact .push hl ho

theorem sdBusMessageEnterContainer_moves (m : SdBusMessage) (type : UInt8) (contents : Option Str) :
    Moves m (sdBusMessageEnterContainer m type contents).2 := by
  unfold sdBusMessageEnterContainer
  split
  · split_ifs
    · exact .refl m
    · exact enterContainer_moves m _ _
  split
  · exact .refl m
  · split_ifs
    · exact .refl m
    · exact enterContainer_moves m _ _
  · split_ifs
    · exact .refl m
    · exact enterContainer_moves m _ _

theorem resume_moves (m : SdBusMessage) :
    SameFrame m.last (resume m).2.last ∧ (resume m).2.outer = m.outer := by
  unfold resume
  split
  · exact ⟨.refl _, rfl⟩
  · rename_i c ri hn
    exact ⟨((sameFrame_setIndex m.last _).trans (sameFrame_nextItem hn)).trans
      (sameFrame_setIndex c _), rfl⟩

theorem sdBusMessageExitContainer_moves (m : SdBusMessage) :
    (∃ r, sdBusMessageExitContainer m = (.error (.errno r), m)) ∨
    ∃ c, SameFrame c (sdBusMessageExitContainer m).2.last ∧
      m.outer = c :: (sdBusMessageExitContainer m).2.outer := by
  obtain ⟨r, h⟩ | ⟨c, cs, hm, -, h⟩ := sdBusMessageExitContainer_cases m
  · exact .inl ⟨r, h⟩
  · obtain ⟨hl, ho⟩ := resume_moves { m with last := c, outer := cs }
    rw [h]
    exact .inr ⟨c, hl, by rw [ho]; exact hm⟩

theorem messageQuitContainer_moves {α : Type} (r : Stop) (m : SdBusMessage) :
    Moves m (messageQuitContainer (α := α) r m).2 := by
  unfold messageQuitContainer
  split
  · exact .refl m
  · rename_i c cs hm
    split_ifs
    · exact .refl m
    · exact .pop (sameFrame_setIndex c _) hm

theorem Moves.of_stay {m₁ m₂ : SdBusMessage} (hl : SameFrame m.last m₁.last)
    (ho : m₁.outer = m.outer) (h : Moves m₁ m₂) : Moves m m₂ := by
  obtain ⟨hl', ho'⟩ | ⟨hl', ho'⟩ | ⟨hl', ho'⟩ := h
  · exact .stay (hl.trans hl') (ho'.trans ho)
  · exact .push (hl.trans hl') (by rw [ho', ho])
  · exact .pop hl' (by rw [← ho', ho])

theorem messageQuitContainer_back {m₁ : SdBusMessage} {c : BusContainer} {α : Type} (r : Stop)
    (hl : SameFrame m.last c) (ho : m₁.outer = c :: m.outer) :
    Moves m (messageQuitContainer (α := α) r m₁).2 := by
  unfold messageQuitContainer
  rw [ho]
  dsimp only
  split_ifs
  · exact .push hl ho
  · exact .stay (hl.trans (sameFrame_setIndex c _)) rfl

theorem arrayBytes_moves (m : SdBusMessage) (align sz : Nat) :
    (arrayBytes m align sz).2.last = m.last ∧ (arrayBytes m align sz).2.outer = m.outer := by
  unfold arrayBytes
  split_ifs
  · exact ⟨rfl, rfl⟩
  · split <;> exact ⟨rfl, rfl⟩

theorem sdBusMessageReadArray_moves (m : SdBusMessage) (type : UInt8) :
    Moves m (sdBusMessageReadArray m type).2 := by
  unfold sdBusMessageReadArray
  split_ifs
  · exact .refl m
  · exact .refl m
  rw [sdBusMessageEnterContainer_some, if_neg (by decide)]
  obtain ⟨r, h⟩ | ⟨h, -⟩ | ⟨r, ri, h, -⟩ | ⟨m₁, h, hm₁⟩ :=
    enterContainer_cases m sdBusTypeArray [type]
  · rw [h]
    exact .refl m
  · rw [h]
    exact .refl m
  · rw [h]
    exact .stay (sameFrame_save _) rfl
  obtain ⟨c, hl, ho⟩ := hm₁.pushes
  rw [h]
  dsimp only
  generalize (if m₁.gvariant then _ else _ : Option Nat).getD 1 = align
  generalize (if m₁.gvariant then _ else _ : Nat) = sz
  obtain ⟨-, ho₂⟩ := arrayBytes_moves m₁ align sz
  cases hb : arrayBytes m₁ align sz with
  | mk r m₂ =>
    rw [hb] at ho₂
    cases r with
    | error r => exact messageQuitContainer_back r hl (ho₂.trans ho)
    | ok q =>
      dsimp only at ho₂ ⊢
      obtain ⟨r, hx⟩ | ⟨d, hl', hpop⟩ := sdBusMessageExitContainer_moves m₂
      · rw [hx]
        exact messageQuitContainer_back _ hl (ho₂.trans ho)
      rw [ho₂, ho] at hpop
      obtain ⟨rfl, houter⟩ := List.cons.inj hpop
      cases hx : sdBusMessageExitContainer m₂ with
      | mk r m₃ =>
        rw [hx] at hl' houter
        have hl₃ := hl.trans hl'
        cases r with
        -- the container around is out of items: it is quit as well
        | error r => exact (messageQuitContainer_moves r m₃).of_stay hl₃ houter.symm
        | ok _ => exact .stay hl₃ houter.symm

theorem exec_moves (m : SdBusMessage) (x : Call) : Moves m (x.exec m).2 := by
  cases x with
  | readBasic type => exact sdBusMessageReadBasic_moves m type
  | enterContainer type contents => exact sdBusMessageEnterContainer_moves m type _
  | exitContainer =>
    obtain ⟨r, h⟩ | ⟨c, hl, ho⟩ := sdBusMessageExitContainer_moves m
    · simp only [Call.exec, h]
      exact .refl m
    · exact .pop hl ho
  | readArray type => exact sdBusMessageReadArray_moves m type
  | peekType => exact .refl m

end Moves

/-! ## Runs inside a container -/

structure Inside (base m : SdBusMessage) : Prop where
  content : m.toContent = base.toContent
  stack : ∃ inner c, m.last :: m.outer = inner ++ c :: base.outer ∧ SameFrame base.last c

theorem Inside.refl (m : SdBusMessage) : Inside m m := ⟨rfl, [], m.last, rfl, .refl _⟩

theorem Inside.moves {base m m' : SdBusMessage} (h : Inside base m) (hc : m'.toContent = m.toContent)
    (hm : Moves m m') (hd : base.outer.length ≤ m'.outer.length) : Inside base m' := by
  refine ⟨hc.trans h.content, ?_⟩
  obtain ⟨inner, c, hs, hf⟩ := h.stack
  cases inner with
  | nil =>
    obtain ⟨rfl, houter⟩ := List.cons.inj hs
    obtain ⟨hl, ho⟩ | ⟨hl, ho⟩ | ⟨hl, ho⟩ := hm
    · exact ⟨[], _, by rw [ho, houter]; rfl, hf.trans hl⟩
    · exact ⟨[m'.last], _, by rw [ho, houter]; rfl, hf.trans hl⟩
    · -- the container itself would be left
      have hlen := congrArg List.length (houter.symm.trans ho)
      rw [List.length_cons] at hlen
      omega
  | cons d inner =>
    obtain ⟨rfl, houter⟩ := List.cons.inj hs
    obtain ⟨hl, ho⟩ | ⟨hl, ho⟩ | ⟨hl, ho⟩ := hm
    · exact ⟨m'.last :: inner, c, by rw [ho, houter]; rfl, hf⟩
    · exact ⟨m'.last :: _ :: inner, c, by rw [ho, houter]; rfl, hf⟩
    · cases inner with
      | nil =>
        obtain ⟨rfl, houter'⟩ := List.cons.inj (houter.symm.trans ho)
        exact ⟨[], _, by rw [← houter']; rfl, hf.trans hl⟩
      | cons e inner =>
        obtain ⟨rfl, houter'⟩ := List.cons.inj (houter.symm.trans ho)
        exact ⟨m'.last :: inner, c, by rw [← houter']; rfl, hf⟩

/-- A run that never leaves the containers that are entered at a depth, and is at that depth in the
end. -/
def StaysAt (depth : Nat) : SdBusMessage → List Op → Prop
  | m, [] => m.outer.length = depth
  | m, x :: xs => depth ≤ (x.exec m).outer.length ∧ StaysAt depth (x.exec m) xs

instance decidableStaysAt (depth : Nat) : ∀ m xs, Decidable (StaysAt depth m xs)
  | m, [] => inferInstanceAs (Decidable (m.outer.length = depth))
  | m, x :: xs =>
    have := decidableStaysAt depth (x.exec m) xs
    inferInstanceAs (Decidable (depth ≤ (x.exec m).outer.length ∧ StaysAt depth (x.exec m) xs))

theorem Inside.op {base m : SdBusMessage} (h : Inside base m) (x : Op)
    (hd : base.outer.length ≤ (x.exec m).outer.length) : Inside base (x.exec m) := by
  cases x with
  | call x => exact h.moves (exec_content m x) (exec_moves m x) hd
  | rewind complete =>
    cases complete with
    | false => exact h.moves rfl (.stay (sameFrame_restart _) rfl) hd
    | true =>
      -- only the root is not left then
      obtain ⟨inner, c, hs, hf⟩ := h.stack
      have hb : base.outer = [] := List.length_eq_zero_iff.mp (Nat.le_zero.mp hd)
      rw [hb] at hs
      have hroot : m.root = c := by
        have hlast := congrArg List.getLast? hs
        rw [List.getLast?_cons, List.getLast?_concat] at hlast
        rw [SdBusMessage.root, List.getLastD_eq_getLast?]
        exact Option.some.inj hlast
      refine ⟨h.content, [], m.root.restart, ?_, ?_⟩
      · rw [hb]
        rfl
      · rw [hroot]
        exact hf.trans (sameFrame_restart c)

theorem Inside.run {base m : SdBusMessage} (h : Inside base m) {xs : List Op}
    (hs : StaysAt base.outer.length m xs) :
    Inside base (after m xs) ∧ (after m xs).outer.length = base.outer.length := by
  induction xs generalizing m with
  | nil => exact ⟨h, hs⟩
  | cons x xs ih => exact ih (h.op x hs.1) hs.2

theorem Inside.after {base m : SdBusMessage} (h : Inside base m) (hb : base.outer = [])
    (xs : List Op) : Inside base (Reading.after m xs) := by
  induction xs generalizing m with
  | nil => exact h
  | cons x xs ih =>
    refine ih (h.op x ?_)
    rw [hb]
    exact Nat.zero_le _

structure AtStart (m : SdBusMessage) : Prop where
  rindex : m.rindex = m.last.begin
  index : m.last.index = 0
  offsetIndex : m.last.offsetIndex = 0
  itemSize : m.gvariant = true → m.last.itemSize = m.last.restart.itemSize

theorem SameFrame.restart {c c' : BusContainer} (h : SameFrame c c') :
    ∃ saved, c'.restart = { c.restart with
      toContainer := { c.restart.toContainer with savedIndex := saved } } := by
  obtain ⟨i, s, o, z, rfl⟩ := h
  exact ⟨s, rfl⟩

theorem AtStart.agrees {base : SdBusMessage} (h : AtStart base) {c : BusContainer}
    (hc : SameFrame base.last c) :
    Agrees base { base with last := c.restart, rindex := c.begin } := by
  obtain ⟨saved, hr⟩ := hc.restart
  refine ⟨rfl, ⟨saved, ⟨base.last.stop, base.last.restart.itemSize, ?_⟩, fun hv => ?_⟩,
    List.forall₂_same.mpr fun c _ => .refl _ c, hc.begin.trans h.rindex.symm⟩
  · rw [hr]
    simp only [BusContainer.restart, BusContainer.alter, h.index, h.offsetIndex]
  · rw [h.itemSize hv, hr]
    exact ⟨rfl, rfl⟩

/-- The container that has been entered is rewound to its start: it is of version 1, or neither a
variant nor an array of elements of a fixed size, unless that is empty or has one element. -/
def Rewindable (m : SdBusMessage) : Prop :=
  m.gvariant = true → m.last.enclosing ≠ sdBusTypeVariant ∧
    (m.last.enclosing = sdBusTypeArray →
      busGvariantIsFixedSize (strempty m.last.signature) ≠ some false →
      m.last.stop = m.last.begin ∨
        busGvariantGetSize (strempty m.last.signature) = some (m.last.stop - m.last.begin))

section Entered
variable {m : SdBusMessage} {contents : Str} {x : Entered}

theorem arrayOffsets_ne_nil {ri itemSize sz a n i previous : Nat} {table : Bytes}
    {offsets : List Nat} (hn : 0 < n)
    (h : arrayOffsets ri itemSize sz a table n i previous = .ok offsets) : offsets ≠ [] := by
  cases n with
  | zero => exact absurd hn (lt_irrefl 0)
  | succ n =>
    rw [arrayOffsets] at h
    split_ifs at h
    obtain ⟨os, -, rfl⟩ := exists_of_map h
    exact List.cons_ne_nil _ _

structure FirstItem (stop : Nat) (x : Entered) : Prop where
  item : x.itemSize = (if x.offsets.isEmpty then stop else x.offsets.headD 0) - x.rindex

theorem enterArrayGvariant_first {d : Content} {ri : Nat} {c : BusContainer}
    (hx : enterArrayGvariant d ri c contents = .ok x)
    (hr : busGvariantIsFixedSize contents ≠ some false →
      c.itemSize = 0 ∨ busGvariantGetSize contents = some c.itemSize) :
    x.rindex = ri ∧ FirstItem (ri + c.itemSize) x := by
  unfold enterArrayGvariant at hx
  dsimp only at hx
  split_ifs at hx with hz hf
  · cases hx
    exact ⟨rfl, ⟨by simp [hz]⟩⟩
  · cases hx
    refine ⟨rfl, ⟨?_⟩⟩
    rw [(hr hf).resolve_left hz]
    simp
  split at hx
  · cases hx
  rename_i q ri' hp
  split_ifs at hx with hle hmod
  split at hx
  · cases hx
  obtain ⟨offsets, ho, rfl⟩ := exists_of_map hx
  have hne : offsets ≠ [] := by
    refine arrayOffsets_ne_nil ?_ ho
    obtain ⟨hpos, hsz⟩ := wordSize_le hz
    exact Nat.div_pos (by omega) hpos
  obtain ⟨o, os, rfl⟩ := List.exists_cons_of_ne_nil hne
  exact ⟨rfl, ⟨rfl⟩⟩

theorem memberOffsets_ne_nil {begin size sz nv fuel v previous : Nat} {table : Bytes} {s : Str}
    {offsets : List Nat} (hs : charAt s 0 ≠ 0)
    (h : memberOffsets begin size sz nv table fuel s v previous = .ok offsets) : offsets ≠ [] := by
  cases fuel with
  | zero =>
    rw [memberOffsets] at h
    cases h
  | succ fuel =>
    rw [memberOffsets, if_neg hs] at h
    split at h
    · cases h
    dsimp only at h
    split at h
    · obtain ⟨os, -, rfl⟩ := exists_of_map h
      exact List.cons_ne_nil _ _
    split at h
    · cases h
    split_ifs at h
    obtain ⟨os, -, rfl⟩ := exists_of_map h
    exact List.cons_ne_nil _ _

theorem buildStructOffsets_first {d : Content} {ri size itemSize ri' : Nat} {offsets : List Nat}
    (h0 : (0 : UInt8) ∉ contents)
    (h : buildStructOffsets d ri contents size = (.ok (itemSize, offsets), ri')) :
    (contents = [] ∧ itemSize = 0 ∧ offsets = []) ∨
      offsets ≠ [] ∧ itemSize = offsets.headD 0 - ri' := by
  unfold buildStructOffsets at h
  split_ifs at h with hnil
  · split at h
    · cases h
    split_ifs at h
    · cases h
    · cases h
      exact .inl ⟨hnil, rfl, rfl⟩
  dsimp only at h
  split at h
  · cases h
  split_ifs at h
  · cases h
  split at h
  · cases h
  obtain ⟨hoffsets, rfl⟩ := Prod.mk.inj h
  obtain ⟨os, ho, hos⟩ := exists_of_map hoffsets
  cases hos
  refine .inr ⟨memberOffsets_ne_nil (fun hz => hnil ?_) ho, rfl⟩
  rw [charAt_eq_zero_iff h0 (Nat.zero_le _)] at hz
  exact List.length_eq_zero_iff.mp hz.symm

theorem enterMembers_first {ri : Nat} {type : UInt8} (hv : m.gvariant = true)
    (h0 : (0 : UInt8) ∉ contents) (hne : contents = [] → type = sdBusTypeStruct)
    (hx : enterStructOrDictEntry m contents = (.ok x, ri)) :
    FirstItem (m.newContainer type contents x).stop x := by
  unfold enterStructOrDictEntry at hx
  dsimp only at hx
  rw [if_pos hv] at hx
  cases hb : buildStructOffsets m.toContent m.rindex contents m.last.itemSize with
  | mk r ri' =>
    rw [hb] at hx
    cases r with
    | error r => cases hx
    | ok y =>
      obtain ⟨itemSize, offsets⟩ := y
      cases hx
      obtain ⟨rfl, rfl, rfl⟩ | ⟨ho, rfl⟩ := buildStructOffsets_first h0 hb
      · refine ⟨?_⟩
        simp [SdBusMessage.newContainer, hv, hne rfl]
      · obtain ⟨o, os, rfl⟩ := List.exists_cons_of_ne_nil ho
        exact ⟨rfl⟩

theorem newContainer_stop_of_ne (m : SdBusMessage) {type : UInt8} (h : type ≠ sdBusTypeStruct)
    (contents : Str) (x : Entered) :
    (m.newContainer type contents x).stop = x.rindex + m.last.itemSize := by
  unfold SdBusMessage.newContainer
  dsimp only
  rw [if_neg fun hc => h hc.2.1]

theorem enterByType_first {type : UInt8} {ri : Nat} (hv : m.gvariant = true)
    (h0 : (0 : UInt8) ∉ contents) (hx : enterByType m type contents = (.ok x, ri))
    (hr : Rewindable (m.enter type contents x)) :
    FirstItem (m.newContainer type contents x).stop x := by
  obtain ⟨hvar, hfixed⟩ := hr hv
  unfold enterByType at hx
  split_ifs at hx with ha hvariant hs hd
  · subst ha
    have hx' := congrArg Prod.fst hx
    unfold busMessageEnterArray at hx'
    dsimp only at hx'
    split_ifs at hx'
    have hstop : (m.enter sdBusTypeArray contents x).last.stop = x.rindex + m.last.itemSize :=
      newContainer_stop_of_ne m (by decide) contents x
    have hbegin : (m.enter sdBusTypeArray contents x).last.begin = x.rindex := rfl
    rw [hstop, hbegin, Nat.add_sub_cancel_left] at hfixed
    obtain ⟨hri, hfirst⟩ := enterArrayGvariant_first hx' fun hf =>
      (hfixed rfl hf).imp_left fun heq => by omega
    rw [newContainer_stop_of_ne m (by decide) contents x, hri]
    exact hfirst
  · exact absurd hvariant hvar
  · subst hs
    unfold busMessageEnterStruct at hx
    split_ifs at hx
    · cases hx
    · cases hx
    exact enterMembers_first hv h0 (fun _ => rfl) hx
  · subst hd
    unfold busMessageEnterDictEntry at hx
    split_ifs at hx with hpair
    · cases hx
    · cases hx
    · cases hx
    refine enterMembers_first hv h0 (fun hnil => ?_) hx
    subst hnil
    exact absurd rfl hpair
  · cases hx

theorem enter_atStart {type : UInt8} {ri : Nat} (h0 : (0 : UInt8) ∉ contents)
    (hx : enterByType m type contents = (.ok x, ri))
    (hr : Rewindable (m.enter type contents x)) : AtStart (m.enter type contents x) where
  rindex := rfl
  index := rfl
  offsetIndex := rfl
  itemSize := fun hv => (enterByType_first (m := m) hv h0 hx hr).item

theorem variantContents_text {d : Content} {ri itemSize : Nat} (fuel : Nat) : ∀ {k : Nat} {s : Str},
    variantContents d ri itemSize fuel k = .ok s → (0 : UInt8) ∉ s := by
  induction fuel with
  | zero => exact fun h => nomatch h
  | succ fuel ih =>
    intro k s h
    rw [variantContents] at h
    split_ifs at h
    split at h
    · cases h
    split_ifs at h
    · cases h
      exact zero_notMem_takeWhile _
    · exact ih h

theorem peekVariant_text {s : Str} (h : peekVariant m = .ok s) : (0 : UInt8) ∉ s := by
  unfold peekVariant at h
  split_ifs at h
  · split at h
    · cases h
    rename_i hs
    split_ifs at h
    cases h
    exact variantContents_text _ hs
  · obtain ⟨⟨s, ri⟩, hp, rfl⟩ := exists_of_map h
    exact (peekSignature_valid hp).1

theorem Announces.text {type : UInt8} (h : Announces m type contents) : (0 : UInt8) ∉ contents := by
  cases h with
  | array h hu => exact Ty.zero_notMem_sig _
  | struct h ht => exact Ty.zero_notMem_sigs _
  | dictEntry h ht =>
    rw [← sigs_pair]
    exact Ty.zero_notMem_sigs _
  | variant hc hs => exact peekVariant_text hs

theorem enterContainer_none {type : UInt8} {m₁ : SdBusMessage} :
    enterContainer m type none ≠ (.ok true, m₁) := by
  unfold enterContainer
  split_ifs
  · exact fun h => nomatch h
  · exact fun h => nomatch h
  · exact fun h => nomatch h
  · exact fun h => nomatch h

theorem exists_enters {type : UInt8} {contents : Option CStr} {m₁ : SdBusMessage}
    (h : (Call.enterContainer type contents).exec m = (.ok (.entered true), m₁)) :
    ∃ t s, (0 : UInt8) ∉ s ∧ Enters m t s m₁ := by
  have he : sdBusMessageEnterContainer m type (contents.map (·.1)) = (.ok true, m₁) := by
    cases hp : sdBusMessageEnterContainer m type (contents.map (·.1)) with
    | mk r m' =>
      simp only [Call.exec, hp] at h
      cases r with
      | error r => cases h
      | ok b =>
        cases h
        rfl
  unfold sdBusMessageEnterContainer at he
  cases contents with
  | some s =>
    simp only [Option.map_some] at he
    split_ifs at he
    · cases he
    · exact ⟨type, s.1, s.2, enters_of_enterContainer he⟩
  | none =>
    simp only [Option.map_none] at he
    cases hp : sdBusMessagePeekType m with
    | error r =>
      rw [hp] at he
      cases he
    | ok t =>
      rw [hp] at he
      rcases t with - | ⟨tt, - | cc⟩
      · dsimp only at he
        split_ifs at he
        · cases he
        · exact absurd he enterContainer_none
      · dsimp only at he
        split_ifs at he
        · cases he
        · exact absurd he enterContainer_none
      · obtain ⟨-, ha⟩ := sdBusMessagePeekType_some hp
        dsimp only at he
        split_ifs at he
        · cases he
        · exact ⟨tt, cc, ha.text, enters_of_enterContainer he⟩

end Entered

theorem Inside.at_base {base m : SdBusMessage} (h : Inside base m)
    (hlen : m.outer.length = base.outer.length) :
    SameFrame base.last m.last ∧ m.outer = base.outer := by
  obtain ⟨inner, c, hs, hf⟩ := h.stack
  cases inner with
  | nil =>
    obtain ⟨rfl, houter⟩ := List.cons.inj hs
    exact ⟨hf, houter⟩
  | cons d inner =>
    have := congrArg List.length hs
    simp only [List.length_cons, List.length_append] at this
    omega

theorem AtStart.rewind {base m : SdBusMessage} (h : AtStart base) (hin : Inside base m)
    (hlen : m.outer.length = base.outer.length) : Agrees base (sdBusMessageRewind m false).2 := by
  obtain ⟨hf, ho⟩ := hin.at_base hlen
  have heq : (sdBusMessageRewind m false).2 =
      { base with last := m.last.restart, rindex := m.last.begin } := by
    unfold sdBusMessageRewind
    dsimp only
    rw [← ho, ← hin.content]
    rfl
  rw [heq]
  exact h.agrees hf

structure Exhausted (m : SdBusMessage) : Prop where
  outer : m.outer = []
  signature : messageEndOfSignature m = true

theorem Exhausted.enterContainer {m : SdBusMessage} (h : Exhausted m) (type : UInt8)
    (contents : Option Str) : enterContainer m type contents = (.error (.errno .enxio), m) := by
  unfold Reading.enterContainer
  rw [h.outer, if_neg (by decide), if_pos h.signature]

theorem Exhausted.sdBusMessageEnterContainer {m : SdBusMessage} (h : Exhausted m) (type : UInt8)
    (contents : Option Str) :
    sdBusMessageEnterContainer m type contents =
      (.error (.errno (if contents.isSome ∧ type = 0 then .einval else .enxio)), m) := by
  have hp : sdBusMessagePeekType m = .ok none := by
    unfold sdBusMessagePeekType
    dsimp only
    rw [h.signature, Bool.true_or, if_pos rfl]
  unfold Reading.sdBusMessageEnterContainer
  cases contents with
  | some s =>
    dsimp only
    rw [h.enterContainer]
    by_cases hz : type = 0
    · rw [if_pos hz, if_pos ⟨rfl, hz⟩]
    · rw [if_neg hz, if_neg fun hc => hz hc.2]
  | none =>
    dsimp only
    rw [hp, h.enterContainer]
    dsimp only
    rw [ite_self, if_neg fun hc => absurd hc.1 Bool.false_ne_true]

theorem Exhausted.exec {m m' : SdBusMessage} (h : Exhausted m) (h' : Exhausted m')
    (hc : m'.toContent = m.toContent) (x : Call) :
    (x.exec m').1 = (x.exec m).1 ∧ (x.exec m).2 = m := by
  cases x with
  | readBasic type =>
    simp only [Call.exec, sdBusMessageReadBasic]
    rw [h.signature, h'.signature]
    cases Basic.ofCode type <;> exact ⟨rfl, rfl⟩
  | enterContainer type contents =>
    simp only [Call.exec]
    rw [h.sdBusMessageEnterContainer, h'.sdBusMessageEnterContainer]
    exact ⟨rfl, rfl⟩
  | exitContainer =>
    simp only [Call.exec, sdBusMessageExitContainer]
    rw [h.outer, h'.outer]
    exact ⟨rfl, rfl⟩
  | readArray type =>
    simp only [Call.exec, sdBusMessageReadArray]
    rw [hc, h.sdBusMessageEnterContainer, h'.sdBusMessageEnterContainer]
    split_ifs <;> exact ⟨rfl, rfl⟩
  | peekType =>
    simp only [Call.exec, peekType, sdBusMessagePeekType]
    rw [h.signature, h'.signature]
    exact ⟨rfl, trivial⟩

theorem Exhausted.run {m m' : SdBusMessage} (h : Exhausted m) (h' : Exhausted m')
    (hc : m'.toContent = m.toContent) (xs : List Call) : (run m' xs).1 = (run m xs).1 := by
  induction xs with
  | nil => rfl
  | cons x xs ih =>
    obtain ⟨hr, hm⟩ := h.exec h' hc x
    obtain ⟨-, hm'⟩ := h'.exec h hc.symm x
    unfold Reading.run
    dsimp only
    rw [hr, hm, hm', ih]

theorem Fresh.atStart {m : SdBusMessage} (h : Fresh m) (hne : m.last.rest ≠ []) : AtStart m where
  rindex := by rw [h.rindex hne, h.begin]
  index := h.index
  offsetIndex := h.offsetIndex
  itemSize := fun hv => by
    rw [h.itemSize hv hne]
    unfold BusContainer.restart
    dsimp only
    rw [h.begin, Nat.sub_zero]

/-- After a container is rewound, every run of calls gives the same answers as when it had been
entered. After the whole message is rewound, it reads as when nothing had been read. -/
theorem rewind_repeats {m₀ : SdBusMessage} (h₀ : Fresh m₀) (xs : List Op) :
    (∀ ys, (run (sdBusMessageRewind (after m₀ xs) true).2 ys).1 = (run m₀ ys).1) ∧
    ∀ type contents m, (Call.enterContainer type contents).exec (after m₀ xs) =
      (.ok (.entered true), m) → Rewindable m → ∀ zs, StaysAt m.outer.length m zs →
      ∀ ys, (run (sdBusMessageRewind (after m zs) false).2 ys).1 = (run m ys).1 := by
  refine ⟨fun ys => ?_, fun type contents m he hr zs hs ys => ?_⟩
  · have hin := ((Inside.refl m₀).after h₀.outer xs).op (.rewind true) (by rw [h₀.outer]; exact le_rfl)
    obtain ⟨hf, -⟩ := hin.at_base (by rw [h₀.outer]; rfl)
    have hbegin : (after m₀ xs).root.begin = 0 := hf.begin.trans h₀.begin
    by_cases hne : m₀.last.rest = []
    · have hempty : messageEndOfSignature m₀ = true := by
        unfold messageEndOfSignature BusContainer.cur
        rw [hne]
        rfl
      have hsignature : strempty (after m₀ xs).root.signature = [] := by
        have hs : (after m₀ xs).root.signature = m₀.last.signature := hf.signature
        have hdrop : (strempty m₀.last.signature).drop m₀.last.index = [] := hne
        rw [h₀.index, List.drop_zero] at hdrop
        rw [hs, hdrop]
      refine Exhausted.run ⟨h₀.outer, hempty⟩ ⟨rfl, ?_⟩ hin.content ys
      have hrest : (after m₀ xs).root.restart.rest = [] := hsignature
      unfold messageEndOfSignature BusContainer.cur
      exact decide_eq_true (congrArg (charAt · 0) hrest)
    · have hagrees := (h₀.atStart hne).agrees hf
      have heq : (sdBusMessageRewind (after m₀ xs) true).2 = { m₀ with
          last := (after m₀ xs).root.restart.restart
          rindex := (after m₀ xs).root.restart.begin } := by
        have hz : (after m₀ xs).root.restart.begin = 0 := hbegin
        rw [h₀.outer, ← hin.content, hz]
        rfl
      rw [heq]
      exact (hagrees.run ys).1
  · obtain ⟨t, s, h0, hm⟩ := exists_enters he
    obtain ⟨x, ri, hx, rfl⟩ := hm.entered
    obtain ⟨hin, hdepth⟩ := (Inside.refl _).run hs
    exact (((enter_atStart h0 hx hr).rewind hin hdepth).run ys).1

def twoNumbers (gvariant : Bool) : SdBusMessage :=
  let elements := [1, 0, 0, 0, 2, 0, 0, 0]
  let body := if gvariant then elements else [8, 0, 0, 0] ++ elements
  { gvariant := gvariant, endian := .little, nativeEndian := .little
    body := body, userBodySize := body.length
    last :=
      { signature := some [sdBusTypeArray, sdBusTypeUint32], stop := body.length
        offsets := if gvariant then [8] else [], itemSize := if gvariant then 8 else 0 } }

theorem fresh_twoNumbers (gvariant : Bool) : Fresh (twoNumbers gvariant) where
  outer := rfl
  rindex := fun _ => rfl
  enclosing := rfl
  index := rfl
  begin := rfl
  offsetIndex := rfl
  itemSize := fun hv _ => by
    obtain rfl : gvariant = true := hv
    rfl
  signature := fun _ => ⟨⟨[.array (.basic (.num .uint32))], rfl, by decide⟩, Nat.le_of_ble_eq_true rfl⟩

def enterNumbers : Call :=
  .enterContainer sdBusTypeArray (some ⟨[sdBusTypeUint32], by decide⟩)

def inNumbers (gvariant : Bool) : SdBusMessage := (enterNumbers.exec (twoNumbers gvariant)).2

theorem rewind_repeats_numbers :
    (∀ ys, (run (sdBusMessageRewind (after (twoNumbers false) []) true).2 ys).1 =
      (run (twoNumbers false) ys).1) ∧
    ∀ ys, (run (sdBusMessageRewind
        (after (inNumbers false) [.call (.readBasic sdBusTypeUint32)]) false).2 ys).1 =
      (run (inNumbers false) ys).1 := by
  obtain ⟨hwhole, hlast⟩ := rewind_repeats (fresh_twoNumbers false) []
  exact ⟨hwhole, hlast sdBusTypeArray (some ⟨[sdBusTypeUint32], by decide⟩) (inNumbers false)
    (by decide +kernel) (fun hv => by revert hv; decide +kernel) _ (by decide +kernel)⟩

/-- In version 2 the first number is not found again: the item is as large as the array then. -/
theorem not_rewind_repeats :
    ¬ ∀ m₀, Fresh m₀ → ∀ type contents m,
      (Call.enterContainer type contents).exec m₀ = (.ok (.entered true), m) →
      ∀ zs, StaysAt m.outer.length m zs →
      ∀ ys, (run (sdBusMessageRewind (after m zs) false).2 ys).1 = (run m ys).1 := by
  intro h
  have hagain := h (twoNumbers true) (fresh_twoNumbers true) sdBusTypeArray
    (some ⟨[sdBusTypeUint32], by decide⟩) (inNumbers true) (by decide +kernel)
    [.call (.readBasic sdBusTypeUint32)] (by decide +kernel) [.readBasic sdBusTypeUint32]
  revert hagain
  decide +kernel

end Basu.Reading
