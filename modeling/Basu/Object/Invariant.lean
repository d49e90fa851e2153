import Basu.Object.Shape

/-! What the object tree keeps. -/

namespace Basu
open Lib
open Function

structure Hung (b : ObjBus) : Prop where
  nodup : ∀ n t, ((b.node n).attached t).Nodup
  mem_attached : ∀ n t s, s ∈ (b.node n).attached t ↔
    (b.slot s).connected = true ∧ (b.slot s).type = t ∧ (b.slot s).node = some n
  slotBound : ∀ s, (b.slot s).connected = true → s < b.nSlots

structure VtableOrder (b : ObjBus) : Prop where
  grouped : ∀ n, Grouped ((b.vtables n).map fun s => (b.slot s).interface)
  fallback : ∀ n, ∀ s ∈ b.vtables n, ∀ i ∈ b.vtables n,
    (b.slot s).isFallback = (b.slot i).isFallback

def ObjBus.Declares (b : ObjBus) (k : MemberKind) (m : VtableMember) : Prop :=
  ∃ n, m.parent ∈ b.vtables n ∧ m.path = (b.node n).path ∧
    m.interface = (b.slot m.parent).interface ∧ m.entry ∈ (b.slot m.parent).vtable.entries ∧
    m.entry.kind = some k ∧ m.member = m.entry.member

/-- The tables hold exactly the members of the attached vtables, under keys of their own. -/
structure MemberTables (b : ObjBus) : Prop where
  memberKeyed : ∀ k, Table.Keyed VtableMember.key (b.members k)
  declares : ∀ k m, b.Declares k m ↔ ∃ i, { m with lastIteration := i } ∈ b.members k

/-- The nodes form the tree of their paths, and nodes, slots and tables agree. -/
structure ObjectTree (b : ObjBus) : Prop extends
  Shape b none, Hung b, VtableOrder b, MemberTables b

section sameAttached
variable {b b' : ObjBus} {x : Option Nat}

theorem SameAttached.vtables (h : SameAttached b b') (n : Nat) : b'.vtables n = b.vtables n := by
  simp only [ObjBus.vtables, h.attached]

theorem SameAttached.hung (h : SameAttached b b') (hb : Hung b) : Hung b' where
  nodup n t := by
    rw [h.attached]
    exact hb.nodup n t
  mem_attached n t s := by
    rw [h.attached, h.slot]
    exact hb.mem_attached n t s
  slotBound s := by
    rw [h.slot, h.nSlots]
    exact hb.slotBound s

theorem SameAttached.vtableOrder (h : SameAttached b b') (hb : VtableOrder b) : VtableOrder b' where
  grouped n := by
    rw [h.vtables, h.slot]
    exact hb.grouped n
  fallback n := by
    rw [h.vtables, h.slot]
    exact hb.fallback n

theorem Shape.live_of_mem (h : Shape b x) {n s : Nat} {t : NodeSlotType}
    (hs : s ∈ (b.node n).attached t) : (b.node n).live = true := by
  by_contra hl
  rw [h.dead n (by simpa using hl)] at hs
  exact List.not_mem_nil hs

theorem SameAttached.memberTables (h : SameAttached b b') (hx : Shape b x) (hb : MemberTables b) :
    MemberTables b' where
  memberKeyed := by
    rw [h.members]
    exact hb.memberKeyed
  declares k m := by
    rw [h.members, ← hb.declares k m]
    unfold ObjBus.Declares
    rw [h.slot]
    refine exists_congr fun n => ?_
    rw [h.vtables]
    refine and_congr_right fun hm => ?_
    obtain ⟨hp, -⟩ := h.path n (hx.live_of_mem hm) (by
      intro he
      rw [ObjBus.vtables, he] at hm
      exact List.not_mem_nil hm)
    rw [hp]

end sameAttached

section loose
variable {b : ObjBus} {s : Nat} {y : ObjSlot}

def ObjSlot.Loose (y : ObjSlot) : Prop := y.node = none ∨ y.connected = false

theorem Hung.notMem (h : Hung b) (hs : (b.slot s).Loose) (n : Nat) (t : NodeSlotType) :
    s ∉ (b.node n).attached t := by
  intro hm
  obtain ⟨hc, -, hn⟩ := (h.mem_attached n t s).mp hm
  rcases hs with hs | hs
  · simp [hs] at hn
  · simp [hs] at hc

theorem Hung.setLoose (h : Hung b) (hs : (b.slot s).Loose) (hy : y.Loose)
    (hb : y.connected = true → s < b.nSlots) : Hung (b.setSlot s y) where
  nodup := h.nodup
  mem_attached n t i := by
    rw [setSlot_node, setSlot_slot]
    split
    · next his =>
      refine iff_of_false (his ▸ h.notMem hs n t) ?_
      rintro ⟨hc, -, hn⟩
      rcases hy with hy | hy
      · simp [hy] at hn
      · simp [hy] at hc
    · exact h.mem_attached n t i
  slotBound i := by
    rw [setSlot_slot, setSlot_nSlots]
    split
    · next his => exact fun hc => his ▸ hb hc
    · exact h.slotBound i

theorem VtableOrder.setLoose (h : VtableOrder b) (hh : Hung b) (hs : (b.slot s).Loose) :
    VtableOrder (b.setSlot s y) where
  grouped n := by
    have he : (b.vtables n).map (fun i => ((b.setSlot s y).slot i).interface) =
        (b.vtables n).map fun i => (b.slot i).interface := by
      refine List.map_congr_left fun i hi => ?_
      rw [setSlot_slot, if_neg]
      rintro rfl
      exact hh.notMem hs n _ hi
    exact he ▸ h.grouped n
  fallback n i hi j hj := by
    have hne : ∀ k ∈ b.vtables n, k ≠ s := by
      intro k hk he
      exact hh.notMem hs n _ (he ▸ hk)
    rw [setSlot_slot, setSlot_slot, if_neg (hne i hi), if_neg (hne j hj)]
    exact h.fallback n i hi j hj

theorem MemberTables.setLoose (h : MemberTables b) (hh : Hung b) (hs : (b.slot s).Loose) :
    MemberTables (b.setSlot s y) where
  memberKeyed := h.memberKeyed
  declares k m := by
    rw [setSlot_members, ← h.declares k m]
    refine exists_congr fun n => and_congr_right fun hm => ?_
    rw [setSlot_slot, if_neg]
    · rfl
    · intro he
      exact hh.notMem hs n _ (he ▸ hm)

end loose

theorem listInsertAfter_perm (a : Option Nat) (x : Nat) (l : List Nat) :
    (listInsertAfter a x l).Perm (x :: l) := by
  induction l with
  | nil => exact .refl _
  | cons y l ih =>
    unfold listInsertAfter
    rcases a with _ | z
    · exact .refl _
    · show (if y = z then y :: x :: l else y :: listInsertAfter (some z) x l).Perm (x :: y :: l)
      split
      · exact .swap ..
      · exact (ih.cons y).trans (.swap ..)

theorem listInsertAfter_none (x : Nat) (l : List Nat) : listInsertAfter none x l = x :: l := by
  cases l <;> rfl

theorem listInsertAfter_some {a x : Nat} {l : List Nat} (h : a ∈ l) :
    ∃ l₁ l₂, l = l₁ ++ a :: l₂ ∧ listInsertAfter (some a) x l = l₁ ++ a :: x :: l₂ := by
  induction l with
  | nil => exact absurd h List.not_mem_nil
  | cons y l ih =>
    by_cases hy : y = a
    · exact ⟨[], l, by simp [hy], by simp [listInsertAfter, hy]⟩
    · have ha : a ∈ l := (List.mem_cons.mp h).resolve_left (fun he => hy he.symm)
      obtain ⟨l₁, l₂, hl, hi⟩ := ih ha
      exact ⟨y :: l₁, l₂, by rw [hl]; rfl, by simp [listInsertAfter, hy, hi]⟩

section attach
variable {b : ObjBus} {n s : Nat} {after : Option Nat}

theorem attach_node (b : ObjBus) (n s : Nat) (after : Option Nat) (k : Nat) :
    (b.attach n s after).node k = if k = n then
      (b.node n).setAttached (b.slot s).type
        (listInsertAfter after s ((b.node n).attached (b.slot s).type))
    else b.node k := by
  simp only [ObjBus.attach, setNode_node, setSlot_node]

theorem attach_slot (b : ObjBus) (n s : Nat) (after : Option Nat) (k : Nat) :
    (b.attach n s after).slot k =
      if k = s then { b.slot s with node := some n } else b.slot k := by
  simp only [ObjBus.attach, setNode_slot, setSlot_slot]

theorem attach_attached (b : ObjBus) (n s : Nat) (after : Option Nat) (k : Nat)
    (t : NodeSlotType) : ((b.attach n s after).node k).attached t =
      if k = n ∧ t = (b.slot s).type then listInsertAfter after s ((b.node n).attached t)
      else (b.node k).attached t := by
  rw [attach_node]
  by_cases hk : k = n
  · by_cases ht : t = (b.slot s).type
    · simp [hk, ht, ObjNode.setAttached]
    · simp [hk, ht, ObjNode.setAttached]
  · simp [hk]

theorem mem_attach {k i : Nat} {t : NodeSlotType} : i ∈ ((b.attach n s after).node k).attached t ↔
    (k = n ∧ t = (b.slot s).type ∧ i = s) ∨ i ∈ (b.node k).attached t := by
  rw [attach_attached]
  split
  · next h =>
    obtain ⟨rfl, rfl⟩ := h
    rw [(listInsertAfter_perm after s _).mem_iff, List.mem_cons]
    simp
  · next h =>
    refine ⟨.inr, fun hi => hi.resolve_left ?_⟩
    rintro ⟨hk, ht, -⟩
    exact h ⟨hk, ht⟩

theorem Shape.reattach {b b' : ObjBus} {x y : Option Nat} (h : Shape b x)
    (hn : b'.nodes = b.nodes) (hN : b'.nNodes = b.nNodes)
    (hnode : ∀ k, ∃ f, b'.node k = { b.node k with attached := f })
    (hleaf : ∀ k, (b.node k).live = true → some k ≠ y → (b'.node k).isBare = false)
    (hdead : ∀ k, (b.node k).live = false → (b'.node k).attached = fun _ => []) :
    Shape b' y := by
  have hlive : ∀ k, (b'.node k).live = (b.node k).live := fun k => by
    obtain ⟨f, hf⟩ := hnode k
    rw [hf]
  have hpath : ∀ k, (b'.node k).path = (b.node k).path := fun k => by
    obtain ⟨f, hf⟩ := hnode k
    rw [hf]
  have hparent : ∀ k, (b'.node k).parent = (b.node k).parent := fun k => by
    obtain ⟨f, hf⟩ := hnode k
    rw [hf]
  have hchild : ∀ k, (b'.node k).child = (b.node k).child := fun k => by
    obtain ⟨f, hf⟩ := hnode k
    rw [hf]
  refine ⟨hn ▸ h.keyed, ?_, ?_, ?_, ?_, ?_, ?_, ?_, ?_, ?_⟩
  · simpa only [hlive, hpath, hn] using h.mem_nodes
  · simpa only [hlive, hN] using h.bound
  · simpa only [hlive, hpath] using h.slash
  · simpa only [hlive, hpath, hparent] using h.root
  · simpa only [hlive, hpath, hparent] using h.parent
  · simpa only [hlive, hchild] using h.childNodup
  · simpa only [hlive, hparent, hchild] using h.mem_child
  · simpa only [hlive] using hleaf
  · simpa only [hlive] using hdead

theorem Shape.attach (h : Shape b (some n)) (hl : (b.node n).live = true) :
    Shape (b.attach n s after) none := by
  refine h.reattach rfl rfl (fun k => ?_) (fun k hk _ => ?_) (fun k hk => ?_)
  · rw [attach_node]
    split
    · next hk => exact ⟨_, by rw [hk, ObjNode.setAttached]⟩
    · exact ⟨_, rfl⟩
  · by_cases hkn : k = n
    · rw [Bool.eq_false_iff]
      intro hb
      have hm : s ∈ ((b.attach n s after).node k).attached (b.slot s).type :=
        mem_attach.mpr (.inl ⟨hkn, rfl, rfl⟩)
      rw [(isBare_eq_true.mp hb).2] at hm
      exact List.not_mem_nil hm
    · rw [attach_node, if_neg hkn]
      exact h.leaf k hk (by simpa using hkn)
  · have hkn : k ≠ n := by
      rintro rfl
      rw [hl] at hk
      simp at hk
    rw [attach_node, if_neg hkn]
    exact h.dead k hk

theorem Hung.attach (h : Hung b) (hc : (b.slot s).connected = true)
    (hn : (b.slot s).node = none) : Hung (b.attach n s after) where
  nodup k t := by
    rw [attach_attached]
    split
    · next hk =>
      rw [(listInsertAfter_perm after s _).nodup_iff, List.nodup_cons]
      exact ⟨h.notMem (.inl hn) n t, h.nodup n t⟩
    · exact h.nodup k t
  mem_attached k t i := by
    rw [mem_attach, attach_slot]
    by_cases hi : i = s
    · subst hi
      have hno := h.notMem (.inl hn) k t
      simp only [hno, or_false, and_true, if_true, hc, true_and, Option.some.injEq]
      constructor
      · rintro ⟨rfl, rfl⟩
        exact ⟨rfl, rfl⟩
      · rintro ⟨rfl, rfl⟩
        exact ⟨rfl, rfl⟩
    · simp only [hi, and_false, false_or, if_false]
      exact h.mem_attached k t i
  slotBound i := by
    rw [attach_slot]
    split
    · next hi => exact fun _ => h.slotBound i (hi ▸ hc)
    · exact h.slotBound i

theorem attach_vtables (b : ObjBus) (n s : Nat) (after : Option Nat) (k : Nat) :
    (b.attach n s after).vtables k = if k = n ∧ (b.slot s).type = .vtable then
      listInsertAfter after s (b.vtables n) else b.vtables k := by
  simp only [ObjBus.vtables, attach_attached, eq_comm (a := NodeSlotType.vtable)]

theorem attach_slot_rest (b : ObjBus) (n s : Nat) (after : Option Nat) (k : Nat) :
    ((b.attach n s after).slot k).interface = (b.slot k).interface ∧
      ((b.attach n s after).slot k).isFallback = (b.slot k).isFallback ∧
      ((b.attach n s after).slot k).vtable = (b.slot k).vtable := by
  rw [attach_slot]
  split
  · next hk => exact ⟨by rw [hk], by rw [hk], by rw [hk]⟩
  · exact ⟨rfl, rfl, rfl⟩

def PlaceFor (b : ObjBus) (n s : Nat) (after : Option Nat) : Prop :=
  (∀ i ∈ b.vtables n, (b.slot i).isFallback = (b.slot s).isFallback) ∧
    ((after = none ∧ ∀ i ∈ b.vtables n, (b.slot i).interface ≠ (b.slot s).interface) ∨
      ∃ a, after = some a ∧ a ∈ b.vtables n ∧ (b.slot a).interface = (b.slot s).interface)

theorem VtableOrder.attach (h : VtableOrder b)
    (hp : (b.slot s).type = .vtable → PlaceFor b n s after) : VtableOrder (b.attach n s after) := by
  have hin : (fun k => ((b.attach n s after).slot k).interface) = fun k => (b.slot k).interface := by
    funext k
    exact (attach_slot_rest b n s after k).1
  have hfb : ∀ k, ((b.attach n s after).slot k).isFallback = (b.slot k).isFallback :=
    fun k => (attach_slot_rest b n s after k).2.1
  refine ⟨fun k => ?_, fun k => ?_⟩
  · rw [hin, attach_vtables]
    split
    · next hk =>
      rcases (hp hk.2).2 with ⟨rfl, hno⟩ | ⟨a, rfl, ha, hia⟩
      · rw [listInsertAfter_none, List.map_cons]
        refine (h.grouped n).cons fun hm => ?_
        obtain ⟨i, hi, he⟩ := List.mem_map.mp hm
        exact hno i hi he
      · obtain ⟨l₁, l₂, hl, hi⟩ := listInsertAfter_some (x := s) ha
        have hg := h.grouped n
        rw [hl, List.map_append, List.map_cons] at hg
        rw [hi, List.map_append, List.map_cons, List.map_cons, ← hia]
        exact hg.insert
    · exact h.grouped k
  · simp only [hfb, attach_vtables]
    split
    · next hk =>
      have hall : ∀ i ∈ listInsertAfter after s (b.vtables n),
          (b.slot i).isFallback = (b.slot s).isFallback := by
        intro i hi
        rcases List.mem_cons.mp ((listInsertAfter_perm after s _).mem_iff.mp hi) with rfl | hi
        · rfl
        · exact (hp hk.2).1 i hi
      exact fun i hi j hj => (hall i hi).trans (hall j hj).symm
    · exact h.fallback k

theorem declares_attach {k : MemberKind} {m : VtableMember} :
    (b.attach n s after).Declares k m ↔ b.Declares k m ∨
      ((b.slot s).type = .vtable ∧ m.parent = s ∧ m.path = (b.node n).path ∧
        m.interface = (b.slot s).interface ∧ m.entry ∈ (b.slot s).vtable.entries ∧
        m.entry.kind = some k ∧ m.member = m.entry.member) := by
  have hpath : ∀ k, ((b.attach n s after).node k).path = (b.node k).path := by
    intro k
    rw [attach_node]
    split
    · next hk => rw [hk, ObjNode.setAttached]
    · rfl
  obtain ⟨hin, -, hvt⟩ := attach_slot_rest b n s after m.parent
  unfold ObjBus.Declares
  simp only [ObjBus.vtables, mem_attach, hpath, hin, hvt]
  constructor
  · rintro ⟨k', ⟨rfl, ht, hm⟩ | hm, hrest⟩
    · rw [hm] at hrest
      exact .inr ⟨ht.symm, hm, hrest⟩
    · exact .inl ⟨k', hm, hrest⟩
  · rintro (⟨k', hm, hrest⟩ | ⟨ht, hm, hrest⟩)
    · exact ⟨k', .inr hm, hrest⟩
    · exact ⟨n, .inl ⟨rfl, ht.symm, hm⟩, by rw [hm]; exact hrest⟩

end attach

section detach
variable {b : ObjBus} {n s : Nat}

theorem detach_node (b : ObjBus) (n s k : Nat) : (b.detach n s).node k = if k = n then
    (b.node n).setAttached (b.slot s).type (((b.node n).attached (b.slot s).type).erase s)
    else b.node k := by
  simp only [ObjBus.detach, setNode_node, setSlot_node]

theorem detach_slot (b : ObjBus) (n s k : Nat) : (b.detach n s).slot k = if k = s then
    { b.slot s with connected := false, interface := [] } else b.slot k := by
  simp only [ObjBus.detach, setNode_slot, setSlot_slot]

theorem detach_attached (h : Hung b) (hn : (b.slot s).node = some n) (k : Nat) (t : NodeSlotType) :
    ((b.detach n s).node k).attached t = ((b.node k).attached t).erase s := by
  -- The slot stands in the one list that changes and in no other.
  have hm := h.mem_attached k t s
  rw [detach_node]
  by_cases hk : k = n
  · by_cases ht : t = (b.slot s).type
    · simp [hk, ht, ObjNode.setAttached]
    · rw [List.erase_of_not_mem (fun hin => ht (hm.mp hin).2.1.symm)]
      simp [hk, ht, ObjNode.setAttached]
  · rw [if_neg hk, List.erase_of_not_mem]
    intro hin
    obtain ⟨-, -, hnk⟩ := hm.mp hin
    rw [hn] at hnk
    exact hk (Option.some.inj hnk).symm

theorem Shape.detach (h : Shape b none) : Shape (b.detach n s) (some n) := by
  refine h.reattach rfl rfl (fun k => ?_) (fun k hk hkn => ?_) (fun k hk => ?_)
  · rw [detach_node]
    split
    · next hk => exact ⟨_, by rw [hk, ObjNode.setAttached]⟩
    · exact ⟨_, rfl⟩
  · have hne : k ≠ n := by
      rintro rfl
      exact hkn rfl
    rw [detach_node, if_neg hne]
    exact h.leaf k hk (by simp)
  · rw [detach_node]
    split
    · next hkn =>
      rw [hkn] at hk
      funext t
      simp only [ObjNode.setAttached, h.dead n hk, List.erase_nil, update_apply, ite_self]
    · exact h.dead k hk

theorem Hung.detach (h : Hung b) (hn : (b.slot s).node = some n) : Hung (b.detach n s) where
  nodup k t := by
    rw [detach_attached h hn]
    exact (h.nodup k t).erase s
  mem_attached k t i := by
    rw [detach_attached h hn, (h.nodup k t).mem_erase_iff, detach_slot]
    by_cases hi : i = s
    · simp [hi]
    · simp only [hi, ne_eq, not_false_eq_true, true_and, if_false]
      exact h.mem_attached k t i
  slotBound i := by
    rw [detach_slot]
    split
    · exact fun hf => absurd hf (by simp)
    · exact h.slotBound i

theorem VtableOrder.detach (h : VtableOrder b) (hh : Hung b) (hn : (b.slot s).node = some n) :
    VtableOrder (b.detach n s) := by
  have hvt : ∀ k, (b.detach n s).vtables k = (b.vtables k).erase s :=
    fun k => detach_attached hh hn k .vtable
  have hsame : ∀ k, ∀ i ∈ (b.vtables k).erase s, (b.detach n s).slot i = b.slot i := by
    intro k i hi
    rw [detach_slot, if_neg ((hh.nodup k .vtable).mem_erase_iff.mp hi).1]
  refine ⟨fun k => ?_, fun k i hi j hj => ?_⟩
  · rw [hvt, List.map_congr_left fun i hi => congrArg ObjSlot.interface (hsame k i hi)]
    exact (h.grouped k).sublist (List.erase_sublist.map _)
  · rw [hvt] at hi hj
    rw [hsame k i hi, hsame k j hj]
    exact h.fallback k i (List.mem_of_mem_erase hi) j (List.mem_of_mem_erase hj)

theorem declares_detach (hh : Hung b) (hn : (b.slot s).node = some n) {k : MemberKind}
    {m : VtableMember} :
    (b.detach n s).Declares k m ↔ b.Declares k m ∧ m.parent ≠ s := by
  have hpath : ∀ k, ((b.detach n s).node k).path = (b.node k).path := by
    intro k
    rw [detach_node]
    split
    · next hk => rw [hk, ObjNode.setAttached]
    · rfl
  have hmem : ∀ k', m.parent ∈ (b.detach n s).vtables k' ↔ m.parent ≠ s ∧ m.parent ∈ b.vtables k' :=
    fun k' => by
      rw [ObjBus.vtables, detach_attached hh hn]
      exact (hh.nodup k' .vtable).mem_erase_iff
  unfold ObjBus.Declares
  simp only [hmem, hpath, detach_slot]
  constructor
  · rintro ⟨k', ⟨hne, hm⟩, hrest⟩
    rw [if_neg hne] at hrest
    exact ⟨⟨k', hm, hrest⟩, hne⟩
  · rintro ⟨⟨k', hm, hrest⟩, hne⟩
    refine ⟨k', ⟨hne, hm⟩, ?_⟩
    rw [if_neg hne]
    exact hrest

end detach

end Basu
