import Basu.Object.Walk

/-! Every function of the walk keeps the laws of its record. -/

namespace Basu
open Lib
open Function

section
variable {env : WalkEnv} {wb : WalkBus} {m : ObjectCall} {w v : Walk} {p served : Str}
  {rf : Bool} {s n : Nat} {l : List Nat}

structure PlaceOk (p : Str) (rf : Bool) (served : Str) : Prop where
  above : p ∈ served :: objectPathPrefixes served
  own : rf = false → p = served

def RegisteredAt (w : Walk) (p : Str) (l : List Nat) : Prop :=
  ∀ s ∈ l, s < w.bus.nSlots ∧ (w.bus.slot s).path = p

theorem RegisteredAt.later (h : RegisteredAt v p l) (hl : Later v w) : RegisteredAt w p l := by
  intro s hs
  obtain ⟨hlt, hp⟩ := h s hs
  exact ⟨hlt.trans_le hl.nSlots, (hl.slot s hlt).1.trans hp⟩

theorem RegisteredAt.tail (h : RegisteredAt w p (s :: l)) : RegisteredAt w p l :=
  fun i hi => h i (List.mem_cons_of_mem s hi)

theorem PlaceOk.serves (hp : PlaceOk p rf served) (hs : s < w.bus.nSlots)
    (hpath : (w.bus.slot s).path = p) (hf : ¬ (rf && !(w.bus.slot s).isFallback) = true) :
    Serves w.bus p served s := by
  refine ⟨hs, hpath, hp.above, fun hfb => hp.own ?_⟩
  simpa [hfb] using hf

def NodeAt (w : Walk) (p : Str) (n : Nat) : Prop := n < w.bus.nNodes ∧ (w.bus.node n).path = p

theorem NodeAt.later (h : NodeAt v p n) (hl : Later v w) : NodeAt w p n :=
  ⟨h.1.trans_le hl.nNodes, (hl.nodePath n h.1).trans h.2⟩

theorem NodeAt.placed (hn : NodeAt w p n) (h : Rooted w.bus) (t : NodeSlotType) :
    RegisteredAt w p ((w.bus.node n).attached t) := by
  intro s hs
  have hlt := h.slotBound s ((h.mem_attached n t s).mp hs).1
  exact ⟨hlt, (h.attachedPath n t s hs).trans hn.2⟩

theorem Serves.mayCall (h : Serves w.bus p served s) {c : UserCall} (hs : c.slot = s)
    (hh : c.isHandler = false) (hn : c.needs = none) : MayCall wb m w p served c := by
  refine ⟨fun _ => hs ▸ h, fun hc => ?_, fun x hx => ?_, fun i hi => ?_, fun i key hi => ?_⟩
  · rcases hc with hc | hc
    · rw [hh] at hc
      simp at hc
    · exact absurd hn hc
  · rw [hn] at hx
    simp at hx
  · rw [hi] at hh
    exact absurd hh (by simp [UserCall.isHandler])
  · rw [hi] at hh
    exact absurd hh (by simp [UserCall.isHandler])

end

end Basu
