import Basu.Object.Registration

/-! What holds of the object tree in every run: a slot is attached to the node of the path it was
registered for, a member is found under the path of its slot, and nothing but the dispatcher touches
the marks. -/

namespace Basu
open Lib
open Function

structure RootedUpTo (b : ObjBus) (x : Option Nat) : Prop extends Shape b x, Hung b where
  attachedPath : ∀ n t, ∀ s ∈ (b.node n).attached t, (b.slot s).path = (b.node n).path
  memberPath : ∀ k, ∀ c ∈ b.members k, c.path = (b.slot c.parent).path ∧ c.parent < b.nSlots

def Rooted (b : ObjBus) : Prop := RootedUpTo b none

/-- The slots there are keep their path, their kind and their mark, the nodes their path; a member
of those slots was there before. -/
structure KeepsSlots (b b' : ObjBus) : Prop where
  nNodes : b.nNodes ≤ b'.nNodes
  nodePath : ∀ n < b.nNodes, (b'.node n).path = (b.node n).path
  nSlots : b.nSlots ≤ b'.nSlots
  slot : ∀ s < b.nSlots, (b'.slot s).path = (b.slot s).path ∧
    (b'.slot s).isFallback = (b.slot s).isFallback ∧
    (b'.slot s).lastIteration = (b.slot s).lastIteration
  members : ∀ k, ∀ c ∈ b'.members k, c.parent < b.nSlots → c ∈ b.members k

theorem KeepsSlots.refl (b : ObjBus) : KeepsSlots b b :=
  ⟨le_rfl, fun _ _ => rfl, le_rfl, fun _ _ => ⟨rfl, rfl, rfl⟩, fun _ _ h _ => h⟩

theorem KeepsSlots.trans {b b' b'' : ObjBus} (h : KeepsSlots b b') (h' : KeepsSlots b' b'') :
    KeepsSlots b b'' where
  nNodes := h.nNodes.trans h'.nNodes
  nodePath n hn := (h'.nodePath n (hn.trans_le h.nNodes)).trans (h.nodePath n hn)
  nSlots := h.nSlots.trans h'.nSlots
  slot s hs := by
    obtain ⟨hp, hf, hl⟩ := h.slot s hs
    obtain ⟨hp', hf', hl'⟩ := h'.slot s (hs.trans_le h.nSlots)
    exact ⟨hp'.trans hp, hf'.trans hf, hl'.trans hl⟩
  members k c hc hp := h.members k c (h'.members k c hc (hp.trans_le h.nSlots)) hp

section steps
variable {b b' c : ObjBus} {n s : Nat} {x : Option Nat}

theorem SameAttached.keeps (h : SameAttached b b') : KeepsSlots b b' where
  nNodes := h.nNodes
  nodePath := h.nodePath
  nSlots := h.nSlots.ge
  slot s _ := by rw [h.slot]; exact ⟨rfl, rfl, rfl⟩
  members k c hc _ := h.members ▸ hc

theorem SameAttached.rooted (h : SameAttached b b') {y : Option Nat} (hb : RootedUpTo b x)
    (hs : Shape b' y) : RootedUpTo b' y where
  toShape := hs
  toHung := h.hung hb.toHung
  attachedPath n t s hm := by
    rw [h.attached] at hm
    have hne : (b.node n).attached ≠ fun _ => [] := by
      intro he
      rw [he] at hm
      exact List.not_mem_nil hm
    rw [h.slot, (h.path n (hb.toShape.live_of_mem hm) hne).1]
    exact hb.attachedPath n t s hm
  memberPath k c hc := by
    rw [h.slot, h.nSlots]
    exact hb.memberPath k c (h.members ▸ hc)

theorem RootedUpTo.gc (h : RootedUpTo b (some n)) (hl : (b.node n).live = true) :
    Rooted (b.gc n) ∧ KeepsSlots b (b.gc n) := by
  obtain ⟨hs, ha⟩ := busNodeGc_shape _ h.toShape hl le_rfl
  exact ⟨ha.rooted h hs, ha.keeps⟩

theorem slotAllocate_slot_of_lt (b : ObjBus) (y : ObjSlot) {i : Nat} (hi : i < b.nSlots) :
    (b.slotAllocate y).slot i = b.slot i := by
  simp only [ObjBus.slotAllocate, setSlot_slot]
  exact if_neg hi.ne

theorem RootedUpTo.slotAllocate (h : RootedUpTo b x) {y : ObjSlot} (hy : y.node = none) :
    RootedUpTo (b.slotAllocate y) x ∧ KeepsSlots b (b.slotAllocate y) := by
  refine ⟨⟨h.toShape.congr rfl rfl rfl, h.toHung.slotAllocate hy, ?_, ?_⟩, ?_⟩
  · intro n t i hi
    have hlt : i < b.nSlots := h.slotBound i ((h.mem_attached n t i).mp hi).1
    rw [slotAllocate_slot_of_lt b y hlt]
    exact h.attachedPath n t i hi
  · intro k c hc
    obtain ⟨hp, hlt⟩ := h.memberPath k c hc
    exact ⟨by rw [slotAllocate_slot_of_lt b y hlt]; exact hp, Nat.lt_succ_of_lt hlt⟩
  · exact ⟨le_rfl, fun _ _ => rfl, Nat.le_succ _,
      fun i hi => by rw [slotAllocate_slot_of_lt b y hi]; exact ⟨rfl, rfl, rfl⟩,
      fun _ _ hc _ => hc⟩

theorem RootedUpTo.attach (h : RootedUpTo b (some n)) (hl : (b.node n).live = true)
    (hc : (b.slot s).connected = true) (hn : (b.slot s).node = none)
    (hp : (b.slot s).path = (b.node n).path) (after : Option Nat) :
    Rooted (b.attach n s after) ∧ KeepsSlots b (b.attach n s after) := by
  have hslot : ∀ i, ((b.attach n s after).slot i).path = (b.slot i).path ∧
      ((b.attach n s after).slot i).isFallback = (b.slot i).isFallback ∧
      ((b.attach n s after).slot i).lastIteration = (b.slot i).lastIteration := by
    intro i
    rw [attach_slot]
    split
    · next hi => rw [hi]; exact ⟨rfl, rfl, rfl⟩
    · exact ⟨rfl, rfl, rfl⟩
  have hpath : ∀ k, ((b.attach n s after).node k).path = (b.node k).path := by
    intro k
    rw [attach_node]
    split
    · next hk => rw [hk, ObjNode.setAttached]
    · rfl
  refine ⟨⟨h.toShape.attach hl, h.toHung.attach hc hn, ?_, ?_⟩, le_rfl, fun k _ => hpath k, le_rfl,
    fun i _ => hslot i, fun _ _ hc _ => hc⟩
  · intro k t i hi
    rw [(hslot i).1, hpath]
    rcases mem_attach.mp hi with ⟨rfl, -, rfl⟩ | hi
    · exact hp
    · exact h.attachedPath k t i hi
  · intro k c hc
    rw [(hslot _).1]
    exact h.memberPath k c hc

theorem Rooted.addNodeSlot (h : Rooted b) (p : Str) {y : ObjSlot} (hy : y.node = none) :
    Rooted (addNodeSlot b p y).1 ∧ KeepsSlots b (addNodeSlot b p y).1 := by
  unfold Basu.addNodeSlot
  split
  · exact ⟨h, .refl b⟩
  · next hp =>
    obtain ⟨hs, ha, hl, hpath⟩ := busNodeAllocate_shape p.length h.toShape
      (objectPathIsValid_cons (by simpa using hp)) le_rfl
    have hr := ha.rooted h hs
    have hk := ha.keeps
    generalize busNodeAllocate p.length b p = r at *
    obtain ⟨c, n⟩ := r
    obtain ⟨hr', hk'⟩ := hr.slotAllocate (y := { y with path := p }) hy
    have hslot := slotAllocate_slot c { y with path := p }
    obtain ⟨hr'', hk''⟩ := hr'.attach (s := c.nSlots) hl (by rw [hslot])
      (by rw [hslot]; exact hy) (by rw [hslot]; exact hpath.symm) none
    exact ⟨hr'', hk.trans (hk'.trans hk'')⟩

theorem KeepsSlots.setSlot {y : ObjSlot} (hp : y.path = (b.slot s).path)
    (hf : y.isFallback = (b.slot s).isFallback) (hl : y.lastIteration = (b.slot s).lastIteration) :
    KeepsSlots b (b.setSlot s y) := by
  refine ⟨le_rfl, fun _ _ => rfl, le_rfl, fun i _ => ?_, fun _ _ hc _ => hc⟩
  rw [setSlot_slot]
  split
  · next hi => rw [hi]; exact ⟨hp, hf, hl⟩
  · exact ⟨rfl, rfl, rfl⟩

theorem RootedUpTo.setLoose (h : RootedUpTo b x) {y : ObjSlot} (hs : (b.slot s).Loose)
    (hp : y.path = (b.slot s).path) (hy : y.connected = false) :
    RootedUpTo (b.setSlot s y) x where
  toShape := h.toShape.congr rfl rfl rfl
  toHung := h.toHung.setLoose hs (.inr hy) (fun hc => absurd hc (by simp [hy]))
  attachedPath n t i hi := by
    rw [setSlot_slot, if_neg]
    · exact h.attachedPath n t i hi
    · rintro rfl
      exact h.toHung.notMem hs n t hi
  memberPath k c hc := by
    obtain ⟨hcp, hlt⟩ := h.memberPath k c hc
    refine ⟨?_, hlt⟩
    rw [setSlot_slot]
    split
    · next hi => rw [hcp, hi, hp]
    · exact hcp

theorem Rooted.slotDisconnect (h : Rooted b) (s : Nat) :
    Rooted (b.slotDisconnect s) ∧ KeepsSlots b (b.slotDisconnect s) := by
  by_cases hc : (b.slot s).connected = true
  swap
  · simp only [ObjBus.slotDisconnect, hc, Bool.not_false, if_true]
    exact ⟨h, .refl b⟩
  rcases hn : (b.slot s).node with _ | n
  · simp only [ObjBus.slotDisconnect, hc, hn, Bool.not_true, Bool.false_eq_true, if_false]
    refine ⟨RootedUpTo.setLoose h (.inl hn) ?_ ?_, KeepsSlots.setSlot ?_ ?_ ?_⟩ <;> rfl
  · have hlive := h.toShape.live_of_mem ((h.mem_attached n _ s).mpr ⟨hc, rfl, hn⟩)
    -- Members may go first; that changes nothing else.
    obtain ⟨c, hdis, ⟨hnode, hnodes, hnN, hslot, hnS⟩, hmem⟩ : ∃ c : ObjBus,
        b.slotDisconnect s = (c.detach n s).gc n ∧ (c.node = b.node ∧ c.nodes = b.nodes ∧
          c.nNodes = b.nNodes ∧ c.slot = b.slot ∧ c.nSlots = b.nSlots) ∧
          ∀ k, ∀ m ∈ c.members k, m ∈ b.members k := by
      by_cases ht : (b.slot s).type = .vtable
      · refine ⟨b.removeMembers (b.node n).path (b.slot s).interface (b.slot s).vtable.entries,
          ?_, removeMembers_rest _ _ _ b, ?_⟩
        · simp only [ObjBus.slotDisconnect, hc, hn, ht, Bool.not_true, Bool.false_eq_true,
            if_false, if_true]
        · exact fun k m hm => ((mem_removeMembers _ _ _ b k m).mp hm).1
      · refine ⟨b, ?_, ⟨rfl, rfl, rfl, rfl, rfl⟩, fun _ _ hm => hm⟩
        simp only [ObjBus.slotDisconnect, hc, hn, ht, Bool.not_true, Bool.false_eq_true, if_false]
    have hslot' : ∀ i, ((c.detach n s).slot i).path = (b.slot i).path ∧
        ((c.detach n s).slot i).isFallback = (b.slot i).isFallback ∧
        ((c.detach n s).slot i).lastIteration = (b.slot i).lastIteration := by
      intro i
      rw [detach_slot, hslot]
      split
      · next hi => rw [hi]; exact ⟨rfl, rfl, rfl⟩
      · exact ⟨rfl, rfl, rfl⟩
    have hnode' : ∀ k, ((c.detach n s).node k).path = (b.node k).path ∧
        ((c.detach n s).node k).live = (b.node k).live := by
      intro k
      rw [detach_node, hnode]
      split
      · next hk => rw [hk, ObjNode.setAttached]; exact ⟨rfl, rfl⟩
      · exact ⟨rfl, rfl⟩
    have hhc : Hung c := h.toHung.congr hnode hslot hnS.ge
    have hnc : (c.slot s).node = some n := by rw [hslot, hn]
    have hr : RootedUpTo (c.detach n s) (some n) := by
      refine ⟨(h.toShape.congr hnode hnodes hnN).detach, hhc.detach hnc, ?_, ?_⟩
      · intro k t i hi
        rw [(hslot' i).1, (hnode' k).1]
        rw [detach_attached hhc hnc, hnode] at hi
        exact h.attachedPath k t i (List.mem_of_mem_erase hi)
      · intro k m hm
        rw [(hslot' _).1]
        obtain ⟨hp, hlt⟩ := h.memberPath k m (hmem k m hm)
        exact ⟨hp, hlt.trans_le hnS.ge⟩
    have hk : KeepsSlots b (c.detach n s) :=
      ⟨hnN.ge, fun k _ => (hnode' k).1, hnS.ge, fun i _ => hslot' i, fun k m hm _ => hmem k m hm⟩
    obtain ⟨hr', hk'⟩ := hr.gc ((hnode' n).2.trans hlive)
    rw [hdis]
    exact ⟨hr', hk.trans hk'⟩

theorem RootedUpTo.membersPut (h : RootedUpTo b x) {y : ObjSlot} (hy : y.node = none) {p : Str}
    (hp : y.path = p) {done : List VtableEntry}
    (hput : MembersPut p y.interface b.nSlots done (b.slotAllocate y) c) :
    RootedUpTo c x ∧ KeepsSlots b c ∧ c.slot b.nSlots = { y with connected := true } := by
  obtain ⟨hr, hk⟩ := h.slotAllocate hy
  have hnode : c.node = b.node := by rw [hput.rest]; rfl
  have hslots : c.slot = (b.slotAllocate y).slot := by rw [hput.rest]
  have hnS : c.nSlots = b.nSlots + 1 := by rw [hput.rest]; rfl
  refine ⟨⟨h.toShape.congr hnode (by rw [hput.rest]; rfl) (by rw [hput.rest]; rfl),
    hr.toHung.congr hnode hslots (by rw [hnS]; rfl), ?_, ?_⟩,
    ⟨by rw [hput.rest]; exact hk.nNodes, fun _ _ => by rw [hnode], by omega, ?_, ?_⟩, ?_⟩
  · intro n t s hs
    rw [hslots, hnode]
    exact hr.attachedPath n t s (by rwa [hnode] at hs)
  · intro k m hm
    rw [hslots, hnS]
    rcases (hput.mem k m).mp hm with hm | ⟨e, -, -, rfl⟩
    · exact hr.memberPath k m hm
    · refine ⟨?_, Nat.lt_succ_self _⟩
      show p = ((b.slotAllocate y).slot b.nSlots).path
      rw [slotAllocate_slot, hp]
  · rw [hslots]
    exact hk.slot
  · intro k m hm hlt
    rcases (hput.mem k m).mp hm with hm | ⟨e, -, -, rfl⟩
    · exact hm
    · exact absurd hlt (lt_irrefl _)
  · rw [hslots, slotAllocate_slot]

theorem RootedUpTo.addVtableSlot (h : RootedUpTo b (some n)) (hl : (b.node n).live = true)
    {y : ObjSlot} (hy : y.node = none) {p : Str} (hp : y.path = p) (hn : (b.node n).path = p)
    (after : Option Nat) : Rooted (addVtableSlot b n p y after).1 ∧
      KeepsSlots b (addVtableSlot b n p y after).1 := by
  have hput : EntriesPut p y.interface b.nSlots y.vtable.entries (b.slotAllocate y)
      (putMembers p y.interface b.nSlots y.vtable.entries (b.slotAllocate y)) :=
    putMembers_spec _ _
  obtain ⟨done, -, -, -, hput, -⟩ := hput
  simp only [Basu.addVtableSlot]
  generalize putMembers p y.interface b.nSlots y.vtable.entries (b.slotAllocate y) = r at *
  obtain ⟨hr, hk, hslot⟩ := h.membersPut hy hp hput
  have hnode : r.1.node = b.node := by rw [hput.rest]; rfl
  obtain ⟨c, err⟩ := r
  dsimp only at hput hr hk hslot hnode ⊢
  rcases err with _ | e
  · obtain ⟨hr', hk'⟩ := hr.attach (s := b.nSlots) (by rw [hnode]; exact hl)
      (by rw [hslot]) (by rw [hslot]; exact hy) (by rw [hslot, hnode]; exact hp.trans hn.symm) after
    exact ⟨hr', hk.trans hk'⟩
  · have hloose : (c.slot b.nSlots).Loose := .inl (by rw [hslot]; exact hy)
    have hd : c.slotDisconnect b.nSlots =
        c.setSlot b.nSlots { y with connected := false, interface := [] } := by
      simp only [ObjBus.slotDisconnect, hslot, hy, Bool.not_true, Bool.false_eq_true, if_false]
    have hr' : RootedUpTo (c.slotDisconnect b.nSlots) (some n) := by
      rw [hd]
      exact hr.setLoose hloose (by rw [hslot]) rfl
    have hk' : KeepsSlots c (c.slotDisconnect b.nSlots) := by
      rw [hd]
      exact KeepsSlots.setSlot (by rw [hslot]) (by rw [hslot]) (by rw [hslot])
    obtain ⟨hr'', hk''⟩ := hr'.gc (by rw [hd, setSlot_node, hnode]; exact hl)
    exact ⟨hr'', hk.trans (hk'.trans hk'')⟩

theorem Rooted.addObjectVtableInternal (h : Rooted b) (p i : Str) (vt : Vtable) (fb : Bool)
    (find : Option Nat) : Rooted (addObjectVtableInternal b p i vt fb find).1 ∧
      KeepsSlots b (addObjectVtableInternal b p i vt fb find).1 := by
  unfold Basu.addObjectVtableInternal
  split
  · exact ⟨h, .refl b⟩
  next hp =>
  split
  · exact ⟨h, .refl b⟩
  split
  · exact ⟨h, .refl b⟩
  split
  · exact ⟨h, .refl b⟩
  obtain ⟨hs, ha, hl, hpath⟩ := busNodeAllocate_shape p.length h.toShape
    (objectPathIsValid_cons (by simpa using hp)) le_rfl
  have hr := ha.rooted h hs
  have hk := ha.keeps
  generalize busNodeAllocate p.length b p = r at *
  obtain ⟨c, n⟩ := r
  dsimp only at hs hl hpath hr hk ⊢
  rcases findExisting c i vt fb (c.vtables n) none with e | ex
  · obtain ⟨hr', hk'⟩ := hr.gc hl
    exact ⟨hr', hk.trans hk'⟩
  · dsimp only
    refine And.imp_right hk.trans ?_
    refine hr.addVtableSlot hl ?_ ?_ hpath ex <;> rfl

theorem Rooted.exec (h : Rooted b) (op : ObjectOp) : Rooted (op.exec b) ∧ KeepsSlots b (op.exec b) := by
  cases op with
  | addObject p callback =>
    rcases callback with _ | f
    · exact ⟨h, .refl b⟩
    · exact h.addNodeSlot p rfl
  | addFallback p callback =>
    rcases callback with _ | f
    · exact ⟨h, .refl b⟩
    · exact h.addNodeSlot p rfl
  | addObjectVtable p i vt => exact h.addObjectVtableInternal p i vt false none
  | addFallbackVtable p i vt find => exact h.addObjectVtableInternal p i vt true find
  | addNodeEnumerator p callback =>
    rcases callback with _ | f
    · exact ⟨h, .refl b⟩
    · exact h.addNodeSlot p rfl
  | addObjectManager p => exact h.addNodeSlot p rfl
  | slotDisconnect s => exact h.slotDisconnect s

theorem Rooted.execAll (ops : List ObjectOp) : ∀ {b : ObjBus}, Rooted b →
    Rooted (ops.foldl ObjectOp.exec b) ∧ KeepsSlots b (ops.foldl ObjectOp.exec b) := by
  induction ops with
  | nil => exact fun h => ⟨h, .refl _⟩
  | cons op ops ih =>
    intro b h
    obtain ⟨hr, hk⟩ := h.exec op
    obtain ⟨hr', hk'⟩ := ih hr
    exact ⟨hr', hk.trans hk'⟩

end steps

theorem rooted_nil : Rooted {} where
  toShape := objectTree_nil.toShape
  toHung := objectTree_nil.toHung
  attachedPath _ _ _ hs := absurd hs List.not_mem_nil
  memberPath _ _ hc := absurd hc List.not_mem_nil

end Basu
