import Basu.Object.Tree

/-! The nodes of the object tree form a tree that follows the paths. `bus_node_allocate` leaves one
leaf that has nothing attached yet, and `bus_node_gc` takes such a leaf away; neither touches what
is attached to a node. -/

namespace Basu
open Lib
open Function

theorem lastSlash_lt {p : Str} (h : p ≠ []) : lastSlash p < p.length := by
  have := List.length_pos_iff.mpr h
  unfold lastSlash
  omega

theorem parentPath_cons {p r : Str} (hp : p = charSlash :: r) (hr : p ≠ rootPath) :
    (parentPath p).length < p.length ∧ ∃ r', parentPath p = charSlash :: r' := by
  have hl : 1 < p.length := by
    rcases r with _ | ⟨c, r⟩
    · exact absurd hp hr
    · simp [hp]
  have hs := lastSlash_lt (p := p) (by simp [hp])
  obtain ⟨k, hk⟩ : ∃ k, max 1 (lastSlash p) = k + 1 := ⟨max 1 (lastSlash p) - 1, by omega⟩
  refine ⟨?_, r.take k, ?_⟩
  · simp only [parentPath, List.length_take]
    omega
  · rw [parentPath, hk, hp, List.take_succ_cons]

theorem objectPathIsValid_cons {p : Str} (h : objectPathIsValid p = true) :
    ∃ r, p = charSlash :: r := by
  unfold objectPathIsValid at h
  split at h
  · exact absurd h (by simp)
  · next h0 =>
    rcases p with _ | ⟨c, r⟩
    · exact absurd h0 (by decide)
    · exact ⟨r, by simpa [charAt] using h0⟩

section updates
variable (b : ObjBus) (n s : Nat) (x : ObjNode) (y : ObjSlot)

@[simp] theorem setNode_node (k : Nat) : (b.setNode n x).node k = if k = n then x else b.node k := by
  simp only [ObjBus.setNode, update_apply]

@[simp] theorem setNode_nNodes : (b.setNode n x).nNodes = b.nNodes := rfl
@[simp] theorem setNode_nodes : (b.setNode n x).nodes = b.nodes := rfl
@[simp] theorem setNode_slot : (b.setNode n x).slot = b.slot := rfl
@[simp] theorem setNode_nSlots : (b.setNode n x).nSlots = b.nSlots := rfl
@[simp] theorem setNode_members : (b.setNode n x).members = b.members := rfl

@[simp] theorem setSlot_slot (k : Nat) : (b.setSlot s y).slot k = if k = s then y else b.slot k := by
  simp only [ObjBus.setSlot, update_apply]

@[simp] theorem setSlot_node : (b.setSlot s y).node = b.node := rfl
@[simp] theorem setSlot_nNodes : (b.setSlot s y).nNodes = b.nNodes := rfl
@[simp] theorem setSlot_nodes : (b.setSlot s y).nodes = b.nodes := rfl
@[simp] theorem setSlot_nSlots : (b.setSlot s y).nSlots = b.nSlots := rfl
@[simp] theorem setSlot_members : (b.setSlot s y).members = b.members := rfl

end updates

theorem isBare_eq_true {x : ObjNode} :
    x.isBare = true ↔ x.child = [] ∧ x.attached = fun _ => [] := by
  simp only [ObjNode.isBare, Bool.and_eq_true, List.isEmpty_iff]
  refine ⟨fun ⟨⟨⟨⟨hc, h₁⟩, h₂⟩, h₃⟩, h₄⟩ => ⟨hc, ?_⟩, fun ⟨hc, h⟩ => by simp [hc, h]⟩
  funext t
  cases t <;> assumption

/-- The nodes in the map are the live ones, each below the node of its parent path and among that
node's children. Every leaf but `x` has something attached. -/
structure Shape (b : ObjBus) (x : Option Nat) : Prop where
  keyed : Table.Keyed Prod.fst b.nodes
  mem_nodes : ∀ p n, (p, n) ∈ b.nodes ↔ (b.node n).live = true ∧ (b.node n).path = p
  bound : ∀ n, (b.node n).live = true → n < b.nNodes
  slash : ∀ n, (b.node n).live = true → ∃ r, (b.node n).path = charSlash :: r
  root : ∀ n, (b.node n).live = true → (b.node n).path = rootPath → (b.node n).parent = none
  parent : ∀ n, (b.node n).live = true → (b.node n).path ≠ rootPath →
    ∃ q, (b.node n).parent = some q ∧ (b.node q).live = true ∧
      (b.node q).path = parentPath (b.node n).path
  childNodup : ∀ n, (b.node n).live = true → (b.node n).child.Nodup
  mem_child : ∀ n c, (b.node n).live = true →
    (c ∈ (b.node n).child ↔ (b.node c).live = true ∧ (b.node c).parent = some n)
  leaf : ∀ n, (b.node n).live = true → some n ≠ x → (b.node n).isBare = false
  dead : ∀ n, (b.node n).live = false → (b.node n).attached = fun _ => []

theorem Shape.weaken {b : ObjBus} (h : Shape b none) (x : Option Nat) : Shape b x :=
  { h with leaf := fun n hn _ => h.leaf n hn (by simp) }

theorem Shape.getNode {b : ObjBus} {x : Option Nat} (h : Shape b x) {p : Str} {n : Nat} :
    b.getNode p = some n ↔ (b.node n).live = true ∧ (b.node n).path = p := by
  rw [← h.mem_nodes, ObjBus.getNode, Option.map_eq_some_iff]
  constructor
  · rintro ⟨⟨p', n'⟩, hg, rfl⟩
    obtain ⟨hm, rfl⟩ := h.keyed.get_eq_some.mp hg
    exact hm
  · intro hm
    exact ⟨(p, n), h.keyed.get_eq_some.mpr ⟨hm, rfl⟩, rfl⟩

/-- Nothing that is attached changes, and no node that something is attached to goes away. -/
structure SameAttached (b b' : ObjBus) : Prop where
  slot : b'.slot = b.slot
  nSlots : b'.nSlots = b.nSlots
  members : b'.members = b.members
  attached : ∀ n, (b'.node n).attached = (b.node n).attached
  nNodes : b.nNodes ≤ b'.nNodes
  nodePath : ∀ n < b.nNodes, (b'.node n).path = (b.node n).path
  path : ∀ n, (b.node n).live = true → (b.node n).attached ≠ (fun _ => []) →
    (b'.node n).path = (b.node n).path ∧ (b'.node n).live = true

theorem SameAttached.refl (b : ObjBus) : SameAttached b b :=
  ⟨rfl, rfl, rfl, fun _ => rfl, le_rfl, fun _ _ => rfl, fun _ h _ => ⟨rfl, h⟩⟩

theorem SameAttached.trans {b b' b'' : ObjBus} (h : SameAttached b b') (h' : SameAttached b' b'') :
    SameAttached b b'' where
  slot := h'.slot.trans h.slot
  nSlots := h'.nSlots.trans h.nSlots
  members := h'.members.trans h.members
  attached n := (h'.attached n).trans (h.attached n)
  nNodes := h.nNodes.trans h'.nNodes
  nodePath n hn := (h'.nodePath n (hn.trans_le h.nNodes)).trans (h.nodePath n hn)
  path n hl ha := by
    obtain ⟨hp, hl'⟩ := h.path n hl ha
    obtain ⟨hp', hl''⟩ := h'.path n hl' (by rwa [h.attached n])
    exact ⟨hp'.trans hp, hl''⟩

section newNode
variable {b : ObjBus} {p : Str} {parent : Option Nat}

theorem newNode_node (hq : parent ≠ some b.nNodes) (k : Nat) :
    ((b.newNode p parent).1.node k) =
      if k = b.nNodes then { live := true, path := p, parent := parent }
      else if some k = parent then { b.node k with child := b.nNodes :: (b.node k).child }
      else b.node k := by
  rcases parent with _ | q
  · simp [ObjBus.newNode]
  · have hqn : q ≠ b.nNodes := fun he => hq (by rw [he])
    by_cases hk : k = q
    · subst hk
      simp [ObjBus.newNode, hqn]
    · simp [ObjBus.newNode, hk]

theorem newNode_rest (b : ObjBus) (p : Str) (parent : Option Nat) :
    (b.newNode p parent).2 = b.nNodes ∧ (b.newNode p parent).1.nNodes = b.nNodes + 1 ∧
    (b.newNode p parent).1.nodes = (p, b.nNodes) :: b.nodes ∧
    (b.newNode p parent).1.slot = b.slot ∧ (b.newNode p parent).1.nSlots = b.nSlots ∧
    (b.newNode p parent).1.members = b.members := by
  rcases parent with _ | q <;> exact ⟨rfl, rfl, rfl, rfl, rfl, rfl⟩

def IsParent (b : ObjBus) (p : Str) (parent : Option Nat) : Prop :=
  (p = rootPath ∧ parent = none) ∨
    (p ≠ rootPath ∧ ∃ q, parent = some q ∧ (b.node q).live = true ∧
      (b.node q).path = parentPath p)

theorem Shape.newNode (h : Shape b parent) (hp : ∃ r, p = charSlash :: r)
    (hg : b.getNode p = none) (hq : IsParent b p parent) :
    Shape (b.newNode p parent).1 (some b.nNodes) ∧ SameAttached b (b.newNode p parent).1 := by
  have hf : ∀ n, (b.node n).live = true → (b.node n).path ≠ p := by
    intro n hn hpn
    rw [h.getNode.mpr ⟨hn, hpn⟩] at hg
    simp at hg
  have hfresh : (b.node b.nNodes).live = false := by
    by_contra hl
    exact lt_irrefl _ (h.bound _ (by simpa using hl))
  have hne : parent ≠ some b.nNodes := by
    rcases hq with ⟨-, rfl⟩ | ⟨-, q, rfl, hl, -⟩
    · simp
    · intro he
      rw [Option.some.inj he, hfresh] at hl
      simp at hl
  obtain ⟨-, hn, hm, hs, hns, hmem⟩ := newNode_rest b p parent
  set b' := (b.newNode p parent).1
  have hnew : b'.node b.nNodes = { live := true, path := p, parent := parent } := by
    rw [newNode_node hne, if_pos rfl]
  -- An old node keeps everything but its children.
  have hold : ∀ k, k ≠ b.nNodes → (b'.node k).live = (b.node k).live ∧
      (b'.node k).path = (b.node k).path ∧ (b'.node k).parent = (b.node k).parent ∧
      (b'.node k).attached = (b.node k).attached ∧
      (b'.node k).child = if some k = parent then b.nNodes :: (b.node k).child
        else (b.node k).child := by
    intro k hk
    rw [newNode_node hne, if_neg hk]
    split <;> exact ⟨rfl, rfl, rfl, rfl, rfl⟩
  have hlive : ∀ k, (b.node k).live = true → k ≠ b.nNodes := by
    rintro k hk rfl
    rw [hfresh] at hk
    simp at hk
  refine ⟨⟨?_, ?_, ?_, ?_, ?_, ?_, ?_, ?_, ?_, ?_⟩, hs, hns, hmem, ?_, by omega,
    fun k hk => (hold k hk.ne).2.1, ?_⟩
  · rw [hm]
    refine List.nodup_cons.mpr ⟨fun hin => ?_, h.keyed⟩
    obtain ⟨⟨p', n⟩, hpn, hp'⟩ := List.mem_map.mp hin
    obtain ⟨hl, hpa⟩ := (h.mem_nodes _ _).mp hpn
    exact hf n hl (hpa.trans hp')
  · intro p' n
    rw [hm, List.mem_cons, Prod.mk.injEq]
    by_cases hk : n = b.nNodes
    · subst hk
      have hno : (p', b.nNodes) ∉ b.nodes := fun hin => hlive _ ((h.mem_nodes _ _).mp hin).1 rfl
      simp [hnew, hno, eq_comm]
    · obtain ⟨hl, hpa, -⟩ := hold n hk
      rw [hl, hpa, ← h.mem_nodes]
      simp [hk]
  · intro n hl
    by_cases hk : n = b.nNodes
    · omega
    · have := h.bound n ((hold n hk).1 ▸ hl)
      omega
  · intro n hl
    by_cases hk : n = b.nNodes
    · simpa [hk, hnew] using hp
    · rw [(hold n hk).2.1]
      exact h.slash n ((hold n hk).1 ▸ hl)
  · intro n hl hr
    by_cases hk : n = b.nNodes
    · subst hk
      rw [hnew] at hr ⊢
      rcases hq with ⟨-, hno⟩ | ⟨hpr, -⟩
      · exact hno
      · exact absurd hr hpr
    · obtain ⟨hl', hpa, hpar, -⟩ := hold n hk
      rw [hpar]
      exact h.root n (hl' ▸ hl) (hpa ▸ hr)
  · intro n hl hr
    by_cases hk : n = b.nNodes
    · subst hk
      rw [hnew] at hr ⊢
      rcases hq with ⟨hpr, -⟩ | ⟨-, q, hq, hlq, hpq⟩
      · exact absurd hpr hr
      · obtain ⟨hlq', hpq', -⟩ := hold q (hlive q hlq)
        exact ⟨q, hq, hlq' ▸ hlq, hpq' ▸ hpq⟩
    · obtain ⟨hl', hpa, hpar, -⟩ := hold n hk
      obtain ⟨q, hq, hlq, hpq⟩ := h.parent n (hl' ▸ hl) (hpa ▸ hr)
      obtain ⟨hlq', hpq', -⟩ := hold q (hlive q hlq)
      exact ⟨q, hpar.trans hq, hlq'.trans hlq, by rw [hpq', hpq, hpa]⟩
  · intro n hl
    by_cases hk : n = b.nNodes
    · simp [hk, hnew]
    · obtain ⟨hl', -, -, -, hc⟩ := hold n hk
      rw [hl'] at hl
      rw [hc]
      split
      · refine List.nodup_cons.mpr ⟨fun hin => ?_, h.childNodup n hl⟩
        exact hlive _ ((h.mem_child n _ hl).mp hin).1 rfl
      · exact h.childNodup n hl
  · intro n c hl
    -- The new node is a child of its parent only.
    have hc' : c = b.nNodes → ((b'.node c).live = true ∧ (b'.node c).parent = some n ↔
        parent = some n) := by
      rintro rfl
      simp [hnew]
    by_cases hk : n = b.nNodes
    · have hno : ¬ ((b'.node c).live = true ∧ (b'.node c).parent = some n) := by
        intro hcn
        by_cases hck : c = b.nNodes
        · exact hne (by rw [(hc' hck).mp hcn, hk])
        · obtain ⟨hlc, hpc, hparc, -⟩ := hold c hck
          rw [hlc, hparc, hk] at hcn
          by_cases hroot : (b.node c).path = rootPath
          · rw [h.root c hcn.1 hroot] at hcn
            simp at hcn
          · obtain ⟨q, hq, hlq, -⟩ := h.parent c hcn.1 hroot
            rw [hcn.2] at hq
            exact hlive q hlq (Option.some.inj hq).symm
      have hempty : (b'.node n).child = [] := by simp [hk, hnew]
      simp only [hempty, List.not_mem_nil, hno]
    · obtain ⟨hl', -, -, -, hc⟩ := hold n hk
      rw [hl'] at hl
      have hin : b.nNodes ∉ (b.node n).child :=
        fun hin => hlive _ ((h.mem_child n _ hl).mp hin).1 rfl
      by_cases hck : c = b.nNodes
      · rw [hc' hck, hc, hck]
        split
        · next hpn => simp [← hpn]
        · next hpn => exact iff_of_false hin (fun he => hpn he.symm)
      · obtain ⟨hlc, -, hparc, -⟩ := hold c hck
        rw [hlc, hparc, ← h.mem_child n c hl, hc]
        split <;> simp [hck]
  · intro n hl hnx
    have hk : n ≠ b.nNodes := fun he => hnx (by rw [he])
    obtain ⟨hl', -, -, hat, hc⟩ := hold n hk
    rw [hl'] at hl
    rw [Bool.eq_false_iff]
    intro hbare
    obtain ⟨hch, ha⟩ := isBare_eq_true.mp hbare
    by_cases hpn : some n = parent
    · simp [hc, hpn] at hch
    · have hb := h.leaf n hl hpn
      rw [hc, if_neg hpn] at hch
      rw [isBare_eq_true.mpr ⟨hch, hat ▸ ha⟩] at hb
      simp at hb
  · intro n hl
    have hk : n ≠ b.nNodes := by
      rintro rfl
      simp [hnew] at hl
    obtain ⟨hl', -, -, hat, -⟩ := hold n hk
    rw [hat]
    exact h.dead n (hl' ▸ hl)
  · intro n
    by_cases hk : n = b.nNodes
    · rw [hk, hnew, h.dead _ hfresh]
    · exact (hold n hk).2.2.2.1
  · intro n hl _
    obtain ⟨hl', hpa, -⟩ := hold n (hlive n hl)
    exact ⟨hpa, hl'.trans hl⟩

end newNode

theorem newNode_getNode (b : ObjBus) (p : Str) (parent : Option Nat) {q : Str} (h : p ≠ q) :
    (b.newNode p parent).1.getNode q = b.getNode q := by
  obtain ⟨-, -, hm, -⟩ := newNode_rest b p parent
  simp only [ObjBus.getNode, hm, Table.get, List.find?_cons, h, decide_false]

theorem busNodeAllocate_getNode (fuel : Nat) : ∀ (b : ObjBus) (p : Str) {q : Str},
    p.length < q.length → (busNodeAllocate fuel b p).1.getNode q = b.getNode q := by
  induction fuel with
  | zero => exact fun _ _ _ _ => rfl
  | succ fuel ih =>
    intro b p q hl
    have hne : p ≠ q := by
      rintro rfl
      exact lt_irrefl _ hl
    have hle : (parentPath p).length ≤ p.length := by
      simp only [parentPath, List.length_take]
      omega
    unfold busNodeAllocate
    split
    · rfl
    · split
      · exact newNode_getNode b p none hne
      · rw [newNode_getNode _ p _ hne]
        exact ih b (parentPath p) (by omega)

theorem busNodeAllocate_shape (fuel : Nat) : ∀ {b : ObjBus} {p : Str}, Shape b none →
    (∃ r, p = charSlash :: r) → p.length ≤ fuel →
    Shape (busNodeAllocate fuel b p).1 (some (busNodeAllocate fuel b p).2) ∧
      SameAttached b (busNodeAllocate fuel b p).1 ∧
      ((busNodeAllocate fuel b p).1.node (busNodeAllocate fuel b p).2).live = true ∧
      ((busNodeAllocate fuel b p).1.node (busNodeAllocate fuel b p).2).path = p := by
  induction fuel with
  | zero =>
    rintro b p - ⟨r, rfl⟩ hl
    simp at hl
  | succ fuel ih =>
    intro b p h hp hl
    rcases hg : b.getNode p with _ | n
    · by_cases hr : p = rootPath
      · have hq : IsParent b p none := .inl ⟨hr, rfl⟩
        obtain ⟨hs, ha⟩ := h.newNode hp hg hq
        simp only [busNodeAllocate, hg, if_pos hr, (newNode_rest b p none).1]
        refine ⟨hs, ha, ?_, ?_⟩ <;> rw [newNode_node (by simp), if_pos rfl]
      · obtain ⟨r, hpr⟩ := hp
        obtain ⟨hlt, hpp⟩ := parentPath_cons hpr hr
        obtain ⟨hs, ha, hlive, hpath⟩ := ih h hpp (by omega)
        have hg' := busNodeAllocate_getNode fuel b (parentPath p) hlt
        simp only [busNodeAllocate, hg, if_neg hr]
        -- The parent is the leaf that may be bare until the new node hangs below it.
        generalize busNodeAllocate fuel b (parentPath p) = r' at *
        obtain ⟨c, q⟩ := r'
        have hq : IsParent c p (some q) := .inr ⟨hr, q, rfl, hlive, hpath⟩
        obtain ⟨hs', ha'⟩ := hs.newNode ⟨r, hpr⟩ (hg'.trans hg) hq
        have hne : some q ≠ some c.nNodes := by
          intro he
          have := hs.bound q hlive
          rw [Option.some.inj he] at this
          exact lt_irrefl _ this
        simp only [(newNode_rest c p (some q)).1]
        refine ⟨hs', ha.trans ha', ?_, ?_⟩ <;> rw [newNode_node hne, if_pos rfl]
    · obtain ⟨hn, hpn⟩ := h.getNode.mp hg
      simp only [busNodeAllocate, hg]
      exact ⟨h.weaken _, .refl b, hn, hpn⟩

section dropNode
variable {b : ObjBus} {n : Nat}

theorem dropNode_node (hq : (b.node n).parent ≠ some n) (k : Nat) :
    ((b.dropNode n).node k) =
      if k = n then { b.node n with live := false }
      else if some k = (b.node n).parent then { b.node k with child := (b.node k).child.erase n }
      else b.node k := by
  rcases hp : (b.node n).parent with _ | q
  · simp [ObjBus.dropNode, hp]
  · have hqn : q ≠ n := fun he => hq (by rw [hp, he])
    by_cases hk : k = q
    · subst hk
      simp [ObjBus.dropNode, hp, hqn]
    · simp [ObjBus.dropNode, hp, hk]

theorem dropNode_rest (b : ObjBus) (n : Nat) : (b.dropNode n).nNodes = b.nNodes ∧
    (b.dropNode n).nodes = Table.remove Prod.fst b.nodes (b.node n).path ∧
    (b.dropNode n).slot = b.slot ∧ (b.dropNode n).nSlots = b.nSlots ∧
    (b.dropNode n).members = b.members := by
  rcases h : (b.node n).parent with _ | q <;>
    simp only [ObjBus.dropNode, h, setNode_nNodes, setNode_nodes, setNode_slot, setNode_nSlots,
      setNode_members, and_self]

theorem Shape.dropNode (h : Shape b (some n)) (hl : (b.node n).live = true)
    (hb : (b.node n).isBare = true) :
    Shape (b.dropNode n) (b.node n).parent ∧ SameAttached b (b.dropNode n) := by
  obtain ⟨hch, hat⟩ := isBare_eq_true.mp hb
  have hnoChild : ∀ k, (b.node k).live = true → (b.node k).parent ≠ some n := by
    intro k hk hp
    have := (h.mem_child n k hl).mpr ⟨hk, hp⟩
    rw [hch] at this
    exact List.not_mem_nil this
  obtain ⟨hn, hm, hs, hns, hmem⟩ := dropNode_rest b n
  have hgone : (b.dropNode n).node n = { b.node n with live := false } := by
    rw [dropNode_node (hnoChild n hl), if_pos rfl]
  -- Every other node keeps everything but its children.
  have hold : ∀ k, k ≠ n → ((b.dropNode n).node k).live = (b.node k).live ∧
      ((b.dropNode n).node k).path = (b.node k).path ∧
      ((b.dropNode n).node k).parent = (b.node k).parent ∧
      ((b.dropNode n).node k).attached = (b.node k).attached ∧
      ((b.dropNode n).node k).child = if some k = (b.node n).parent then (b.node k).child.erase n
        else (b.node k).child := by
    intro k hk
    rw [dropNode_node (hnoChild n hl), if_neg hk]
    split <;> exact ⟨rfl, rfl, rfl, rfl, rfl⟩
  have hlive : ∀ k, ((b.dropNode n).node k).live = true → k ≠ n := by
    rintro k hk rfl
    simp [hgone] at hk
  refine ⟨⟨?_, ?_, ?_, ?_, ?_, ?_, ?_, ?_, ?_, ?_⟩, hs, hns, hmem, ?_, hn.ge, fun k _ => ?_, ?_⟩
  · rw [hm]
    exact h.keyed.remove _
  · intro p k
    rw [hm, Table.mem_remove, h.mem_nodes]
    by_cases hk : k = n
    · subst hk
      simp only [hgone, Bool.false_eq_true, false_and, iff_false]
      rintro ⟨⟨-, hp⟩, hne⟩
      exact hne hp.symm
    · obtain ⟨hl', hpa, -⟩ := hold k hk
      rw [hl', hpa]
      refine ⟨And.left, fun hkp => ⟨hkp, fun hp => hk ?_⟩⟩
      have hg := h.getNode.mpr hkp
      rw [show p = (b.node n).path from hp, h.getNode.mpr ⟨hl, rfl⟩] at hg
      exact (Option.some.inj hg).symm
  · intro k hk
    rw [hn]
    exact h.bound k ((hold k (hlive k hk)).1 ▸ hk)
  · intro k hk
    obtain ⟨hl', hpa, -⟩ := hold k (hlive k hk)
    rw [hpa]
    exact h.slash k (hl' ▸ hk)
  · intro k hk hr
    obtain ⟨hl', hpa, hpar, -⟩ := hold k (hlive k hk)
    rw [hpar]
    exact h.root k (hl' ▸ hk) (hpa ▸ hr)
  · intro k hk hr
    obtain ⟨hl', hpa, hpar, -⟩ := hold k (hlive k hk)
    rw [hl'] at hk
    obtain ⟨q, hq, hlq, hpq⟩ := h.parent k hk (hpa ▸ hr)
    have hqn : q ≠ n := by
      rintro rfl
      exact hnoChild k hk hq
    obtain ⟨hlq', hpq', -⟩ := hold q hqn
    exact ⟨q, hpar.trans hq, hlq'.trans hlq, by rw [hpq', hpq, hpa]⟩
  · intro k hk
    obtain ⟨hl', -, -, -, hc⟩ := hold k (hlive k hk)
    have hnd := h.childNodup k (hl' ▸ hk)
    rw [hc]
    split
    · exact hnd.erase n
    · exact hnd
  · intro k c hk
    obtain ⟨hl', -, -, -, hc⟩ := hold k (hlive k hk)
    rw [hl'] at hk
    by_cases hcn : c = n
    · refine iff_of_false (fun hin => ?_) (fun hcl => hlive c hcl.1 hcn)
      rw [hc, hcn] at hin
      split at hin
      · exact (h.childNodup k hk).not_mem_erase hin
      · next hkn => exact hkn ((h.mem_child k n hk).mp hin).2.symm
    · obtain ⟨hlc, -, hparc, -⟩ := hold c hcn
      rw [hlc, hparc, ← h.mem_child k c hk, hc]
      split
      · exact List.mem_erase_of_ne hcn
      · exact Iff.rfl
  · intro k hk hkn
    obtain ⟨hl', -, -, hat', hc⟩ := hold k (hlive k hk)
    have hbk := h.leaf k (hl' ▸ hk) (by simpa using hlive k hk)
    rw [if_neg hkn] at hc
    rw [Bool.eq_false_iff] at hbk ⊢
    intro hb'
    obtain ⟨hc', ha'⟩ := isBare_eq_true.mp hb'
    exact hbk (isBare_eq_true.mpr ⟨hc ▸ hc', hat' ▸ ha'⟩)
  · intro k hk
    by_cases hkn : k = n
    · rw [hkn, hgone]
      exact hat
    · obtain ⟨hl', -, -, hat', -⟩ := hold k hkn
      rw [hat']
      exact h.dead k (hl' ▸ hk)
  · intro k
    by_cases hkn : k = n
    · rw [hkn, hgone]
    · exact (hold k hkn).2.2.2.1
  · by_cases hkn : k = n
    · rw [hkn, hgone]
    · exact (hold k hkn).2.1
  · intro k hk ha
    have hkn : k ≠ n := by
      rintro rfl
      exact ha hat
    obtain ⟨hl', hpa, -⟩ := hold k hkn
    exact ⟨hpa, hl'.trans hk⟩

end dropNode

theorem busNodeGc_shape (fuel : Nat) : ∀ {b : ObjBus} {n : Nat}, Shape b (some n) →
    (b.node n).live = true → (b.node n).path.length ≤ fuel →
    Shape (busNodeGc fuel b n) none ∧ SameAttached b (busNodeGc fuel b n) := by
  induction fuel with
  | zero =>
    intro b n h hl hle
    obtain ⟨r, hr⟩ := h.slash n hl
    simp [hr] at hle
  | succ fuel ih =>
    intro b n h hl hle
    unfold busNodeGc
    split
    · next hb =>
      obtain ⟨hs, ha⟩ := h.dropNode hl hb
      by_cases hr : (b.node n).path = rootPath
      · rw [h.root n hl hr] at hs ⊢
        exact ⟨hs, ha⟩
      · obtain ⟨q, hq, hlq, hpq⟩ := h.parent n hl hr
        obtain ⟨r, hpr⟩ := h.slash n hl
        have hlt := (parentPath_cons hpr hr).1
        have hqn : q ≠ n := by
          rintro rfl
          rw [← hpq] at hlt
          exact lt_irrefl _ hlt
        have hnode := dropNode_node (b := b) (n := n) (by simpa [hq] using hqn) q
        rw [if_neg hqn, hq, if_pos rfl] at hnode
        rw [hq] at hs
        rw [hq]
        obtain ⟨hs', ha'⟩ := ih hs (by rw [hnode]; exact hlq) (by
          rw [hnode]
          show (b.node q).path.length ≤ fuel
          rw [hpq]
          omega)
        exact ⟨hs', ha.trans ha'⟩
    · next hb =>
      refine ⟨{ h with leaf := fun k hk _ => ?_ }, .refl b⟩
      by_cases hkn : k = n
      · simpa [hkn] using hb
      · exact h.leaf k hk (by simpa using hkn)

end Basu
