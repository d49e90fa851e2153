import Basu.Object.Rooted

/-! What every run keeps, also one with calls that fail: the vtables of an interface stay neighbours,
and none has an interface that the library implements itself. -/

namespace Basu
open Lib
open Function

structure OrderedSlots (b : ObjBus) : Prop extends VtableOrder b where
  unreserved : ∀ s, (b.slot s).interface ∉ reservedInterfaces

section
variable {b c : ObjBus} {n s : Nat} {x : Option Nat}

theorem nil_notReserved : ([] : Str) ∉ reservedInterfaces := by decide

theorem SameAttached.orderedSlots (h : SameAttached b c) (hb : OrderedSlots b) : OrderedSlots c where
  toVtableOrder := h.vtableOrder hb.toVtableOrder
  unreserved s := by
    rw [h.slot]
    exact hb.unreserved s

theorem OrderedSlots.gc (h : OrderedSlots b) (hs : Shape b (some n)) (hl : (b.node n).live = true) :
    OrderedSlots (b.gc n) := (busNodeGc_shape _ hs hl le_rfl).2.orderedSlots h

theorem OrderedSlots.setLoose (h : OrderedSlots b) (hh : Hung b) (hs : (b.slot s).Loose)
    {y : ObjSlot} (hy : y.interface ∉ reservedInterfaces) : OrderedSlots (b.setSlot s y) where
  toVtableOrder := h.toVtableOrder.setLoose hh hs
  unreserved i := by
    rw [setSlot_slot]
    split
    · exact hy
    · exact h.unreserved i

theorem OrderedSlots.slotAllocate (h : OrderedSlots b) (hh : Hung b) {y : ObjSlot}
    (hy : y.interface ∉ reservedInterfaces) : OrderedSlots (b.slotAllocate y) where
  toVtableOrder := h.toVtableOrder.slotAllocate hh y
  unreserved i := by
    simp only [ObjBus.slotAllocate, setSlot_slot]
    split
    · exact hy
    · exact h.unreserved i

theorem OrderedSlots.attach (h : OrderedSlots b) {after : Option Nat}
    (hp : (b.slot s).type = .vtable → PlaceFor b n s after) : OrderedSlots (b.attach n s after) where
  toVtableOrder := h.toVtableOrder.attach hp
  unreserved i := by
    rw [(attach_slot_rest b n s after i).1]
    exact h.unreserved i

theorem OrderedSlots.congr (h : OrderedSlots b) (hn : c.node = b.node) (hs : c.slot = b.slot) :
    OrderedSlots c := ⟨h.toVtableOrder.congr hn hs, fun s => hs ▸ h.unreserved s⟩

theorem OrderedSlots.addNodeSlot (h : OrderedSlots b) (hr : Rooted b) (p : Str) {y : ObjSlot}
    (ht : y.type ≠ .vtable) (hy : y.interface = []) : OrderedSlots (addNodeSlot b p y).1 := by
  unfold Basu.addNodeSlot
  split
  · exact h
  next hp =>
  obtain ⟨-, ha, -⟩ := busNodeAllocate_shape p.length hr.toShape
    (objectPathIsValid_cons (by simpa using hp)) le_rfl
  have hc := ha.orderedSlots h
  have hh := ha.hung hr.toHung
  refine (hc.slotAllocate (y := { y with path := p }) hh ?_).attach fun he => ?_
  · rw [hy]
    exact nil_notReserved
  · rw [slotAllocate_slot] at he
    exact absurd he ht

theorem OrderedSlots.slotDisconnect (h : OrderedSlots b) (hr : Rooted b) (s : Nat) :
    OrderedSlots (b.slotDisconnect s) := by
  by_cases hc : (b.slot s).connected = true
  swap
  · simpa only [ObjBus.slotDisconnect, hc, Bool.not_false, if_true] using h
  rcases hn : (b.slot s).node with _ | n
  · simp only [ObjBus.slotDisconnect, hc, hn, Bool.not_true, Bool.false_eq_true, if_false]
    exact h.setLoose hr.toHung (.inl hn) nil_notReserved
  · have hlive := hr.toShape.live_of_mem ((hr.mem_attached n _ s).mpr ⟨hc, rfl, hn⟩)
    obtain ⟨c, hdis, hnode, hnodes, hnN, hslot, hnS⟩ : ∃ c : ObjBus,
        b.slotDisconnect s = (c.detach n s).gc n ∧ c.node = b.node ∧ c.nodes = b.nodes ∧
          c.nNodes = b.nNodes ∧ c.slot = b.slot ∧ c.nSlots = b.nSlots := by
      by_cases ht : (b.slot s).type = .vtable
      · refine ⟨_, ?_, removeMembers_rest (b.node n).path (b.slot s).interface
          (b.slot s).vtable.entries b⟩
        simp only [ObjBus.slotDisconnect, hc, hn, ht, Bool.not_true, Bool.false_eq_true, if_false,
          if_true]
      · refine ⟨b, ?_, rfl, rfl, rfl, rfl, rfl⟩
        simp only [ObjBus.slotDisconnect, hc, hn, ht, Bool.not_true, Bool.false_eq_true, if_false]
    have hhc : Hung c := hr.toHung.congr hnode hslot hnS.ge
    have hnc : (c.slot s).node = some n := by rw [hslot, hn]
    have ho : OrderedSlots (c.detach n s) := by
      refine ⟨(h.toVtableOrder.congr hnode hslot).detach hhc hnc, fun i => ?_⟩
      rw [detach_slot, hslot]
      split
      · exact nil_notReserved
      · exact h.unreserved i
    rw [hdis]
    refine ho.gc (hr.toShape.congr hnode hnodes hnN).detach ?_
    rw [detach_node, if_pos rfl, hnode]
    exact hlive

theorem OrderedSlots.addVtableSlot (h : OrderedSlots b) (hr : RootedUpTo b (some n))
    (hl : (b.node n).live = true) {y : ObjSlot} (hy : y.node = none)
    (hi : y.interface ∉ reservedInterfaces) {p : Str} (hp : y.path = p) {after : Option Nat}
    (hfb : ∀ i ∈ b.vtables n, (b.slot i).isFallback = y.isFallback)
    (hplace : (after = none ∧ ∀ i ∈ b.vtables n, (b.slot i).interface ≠ y.interface) ∨
      ∃ a, after = some a ∧ a ∈ b.vtables n ∧ (b.slot a).interface = y.interface) :
    OrderedSlots (addVtableSlot b n p y after).1 := by
  have hput : EntriesPut p y.interface b.nSlots y.vtable.entries (b.slotAllocate y)
      (putMembers p y.interface b.nSlots y.vtable.entries (b.slotAllocate y)) :=
    putMembers_spec _ _
  obtain ⟨done, -, -, -, hput, -⟩ := hput
  simp only [Basu.addVtableSlot]
  generalize putMembers p y.interface b.nSlots y.vtable.entries (b.slotAllocate y) = r at *
  obtain ⟨hrc, -, hslot⟩ := hr.membersPut hy hp hput
  have hnode : r.1.node = b.node := by rw [hput.rest]; rfl
  have hslots : r.1.slot = (b.slotAllocate y).slot := by rw [hput.rest]
  have ho : OrderedSlots r.1 := (h.slotAllocate hr.toHung hi).congr hnode hslots
  obtain ⟨c, err⟩ := r
  dsimp only at hrc hslot hnode hslots ho ⊢
  rcases err with _ | e
  · have hv : c.vtables n = b.vtables n := by simp only [ObjBus.vtables, hnode]
    have hsame : ∀ i ∈ b.vtables n, c.slot i = b.slot i := by
      intro i hin
      have hlt := hr.slotBound i ((hr.mem_attached n .vtable i).mp hin).1
      rw [hslots, slotAllocate_slot_of_lt b y hlt]
    refine ho.attach fun _ => ?_
    unfold PlaceFor
    rw [hv, hslot]
    refine ⟨fun i hin => ?_, hplace.imp (And.imp_right fun hno i hin => ?_) ?_⟩
    · rw [hsame i hin]
      exact hfb i hin
    · rw [hsame i hin]
      exact hno i hin
    · rintro ⟨a, rfl, ha, hia⟩
      exact ⟨a, rfl, ha, by rw [hsame a ha]; exact hia⟩
  · have hloose : (c.slot b.nSlots).Loose := .inl (by rw [hslot]; exact hy)
    have hd : c.slotDisconnect b.nSlots =
        c.setSlot b.nSlots { y with connected := false, interface := [] } := by
      simp only [ObjBus.slotDisconnect, hslot, hy, Bool.not_true, Bool.false_eq_true, if_false]
    rw [hd]
    refine (ho.setLoose hrc.toHung hloose nil_notReserved).gc
      (hrc.toShape.congr rfl rfl rfl) ?_
    rw [setSlot_node, hnode]
    exact hl

theorem OrderedSlots.addObjectVtableInternal (h : OrderedSlots b) (hr : Rooted b) (p i : Str)
    (vt : Vtable) (fb : Bool) (find : Option Nat) :
    OrderedSlots (addObjectVtableInternal b p i vt fb find).1 := by
  unfold Basu.addObjectVtableInternal
  split
  · exact h
  next hp =>
  split
  · exact h
  split
  · exact h
  split
  · exact h
  next hi =>
  obtain ⟨hs, ha, hl, -⟩ := busNodeAllocate_shape p.length hr.toShape
    (objectPathIsValid_cons (by simpa using hp)) le_rfl
  have hrc := ha.rooted hr hs
  have hc := ha.orderedSlots h
  generalize busNodeAllocate p.length b p = r at *
  obtain ⟨c, n⟩ := r
  dsimp only at hs hl hrc hc ⊢
  rcases hf : findExisting c i vt fb (c.vtables n) none with e | ex
  · exact hc.gc hs hl
  · obtain ⟨hall, hex⟩ := findExisting_ok hf
    dsimp only
    refine hc.addVtableSlot hrc hl ?_ ?_ ?_ ?_ ?_
    · rfl
    · exact hi
    · rfl
    · exact fun j hj => (hall j hj).1
    · exact hex

theorem OrderedSlots.exec (h : OrderedSlots b) (hr : Rooted b) (op : ObjectOp) :
    OrderedSlots (op.exec b) := by
  cases op with
  | addObject p callback =>
    rcases callback with _ | f
    · exact h
    · exact h.addNodeSlot hr p nofun rfl
  | addFallback p callback =>
    rcases callback with _ | f
    · exact h
    · exact h.addNodeSlot hr p nofun rfl
  | addObjectVtable p i vt => exact h.addObjectVtableInternal hr p i vt false none
  | addFallbackVtable p i vt find => exact h.addObjectVtableInternal hr p i vt true find
  | addNodeEnumerator p callback =>
    rcases callback with _ | f
    · exact h
    · exact h.addNodeSlot hr p nofun rfl
  | addObjectManager p => exact h.addNodeSlot hr p nofun rfl
  | slotDisconnect s => exact h.slotDisconnect hr s

end

theorem orderedSlots_objectRun (ops : List ObjectOp) :
    OrderedSlots (objectRun ops) ∧ Rooted (objectRun ops) := by
  induction ops using List.reverseRecOn with
  | nil => exact ⟨⟨objectTree_nil.toVtableOrder, fun _ => nil_notReserved⟩, rooted_nil⟩
  | append_singleton ops op ih =>
    rw [objectRun_append]
    exact ⟨ih.1.exec ih.2 op, (ih.2.exec op).1⟩

end Basu
