import Basu.Object.Rooted

/-! What a registration of a vtable that fails leaves behind: the nodes it allocated are collected
again and the slot is given back, but the members that it put into the tables stay there. -/

namespace Basu
open Lib
open Function

structure Restored (b c : ObjBus) : Prop where
  nodes : c.nodes = b.nodes
  node : ∀ k < b.nNodes, c.node k = b.node k

variable {b c : ObjBus} {n : Nat}

theorem Restored.refl (b : ObjBus) : Restored b b := ⟨rfl, fun _ _ => rfl⟩

theorem Restored.trans {d : ObjBus} (h : Restored b c) (h' : Restored c d)
    (hn : b.nNodes ≤ c.nNodes) : Restored b d :=
  ⟨h'.nodes.trans h.nodes, fun k hk => (h'.node k (hk.trans_le hn)).trans (h.node k hk)⟩

theorem newNode_dropNode {p : Str} {parent : Option Nat} (hg : b.getNode p = none)
    (hne : parent ≠ some b.nNodes) : Restored b ((b.newNode p parent).1.dropNode b.nNodes) := by
  obtain ⟨-, -, hm, -⟩ := newNode_rest b p parent
  have hnew := newNode_node (p := p) hne b.nNodes
  rw [if_pos rfl] at hnew
  have hkept : Table.remove Prod.fst b.nodes p = b.nodes := by
    refine List.filter_eq_self.mpr fun x hx => decide_eq_true fun hxp => ?_
    rw [ObjBus.getNode, Option.map_eq_none_iff] at hg
    exact Table.get_eq_none.mp hg x hx hxp
  constructor
  · obtain ⟨-, hd, -⟩ := dropNode_rest (b.newNode p parent).1 b.nNodes
    rw [hd, hm, hnew, Table.remove, List.filter_cons, decide_eq_false (not_not.mpr rfl)]
    exact hkept
  · intro k hk
    rw [dropNode_node (by rw [hnew]; exact hne), if_neg hk.ne, hnew, newNode_node hne,
      if_neg hk.ne]
    dsimp only
    split
    · rw [List.erase_cons_head]
    · rfl

theorem Restored.dropNode (h : Restored b c) (hn : n < b.nNodes) :
    Restored (b.dropNode n) (c.dropNode n) := by
  constructor
  · rw [(dropNode_rest b n).2.1, (dropNode_rest c n).2.1, h.nodes, h.node n hn]
  · intro k hk
    rw [(dropNode_rest b n).1] at hk
    unfold ObjBus.dropNode
    dsimp only
    rw [h.node n hn]
    rcases (b.node n).parent with _ | q
    · simp only [setNode_node]
      rw [h.node k hk]
    · simp only [setNode_node]
      by_cases hkq : k = q
      · subst hkq
        simp only [if_true]
        rw [h.node k hk]
      · simp only [if_neg hkq]
        rw [h.node k hk]

theorem Restored.gc (fuel : Nat) : ∀ {b c : ObjBus} {n : Nat}, Restored b c → Shape b (some n) →
    (b.node n).live = true → Restored (busNodeGc fuel b n) (busNodeGc fuel c n) := by
  induction fuel with
  | zero => exact fun h _ _ => h
  | succ fuel ih =>
    intro b c n h hs hl
    have hn := hs.bound n hl
    unfold busNodeGc
    rw [h.node n hn]
    split
    · next hb =>
      have hdrop := h.dropNode hn
      obtain ⟨hs', -⟩ := hs.dropNode hl hb
      by_cases hr : (b.node n).path = rootPath
      · rw [hs.root n hl hr]
        exact hdrop
      · obtain ⟨q, hq, hlq, hpq⟩ := hs.parent n hl hr
        rw [hq] at hs' ⊢
        refine ih hdrop hs' ?_
        obtain ⟨r, hpr⟩ := hs.slash n hl
        have hlt := (parentPath_cons hpr hr).1
        have hqn : q ≠ n := by
          rintro rfl
          rw [← hpq] at hlt
          exact lt_irrefl _ hlt
        rw [dropNode_node (by rw [hq]; exact fun he => hqn (Option.some.inj he)), if_neg hqn]
        split <;> exact hlq
    · exact h

theorem busNodeGc_newNode {p : Str} {parent : Option Nat} (hne : parent ≠ some b.nNodes)
    (fuel : Nat) : busNodeGc (fuel + 1) (b.newNode p parent).1 b.nNodes =
      parent.elim ((b.newNode p parent).1.dropNode b.nNodes)
        fun q => busNodeGc fuel ((b.newNode p parent).1.dropNode b.nNodes) q := by
  have hnew := newNode_node (p := p) hne b.nNodes
  rw [if_pos rfl] at hnew
  rw [busNodeGc, hnew, if_pos (isBare_eq_true.mpr ⟨rfl, rfl⟩)]
  cases parent <;> rfl

theorem busNodeGc_nNodes (fuel : Nat) : ∀ (b : ObjBus) (n : Nat),
    (busNodeGc fuel b n).nNodes = b.nNodes := by
  induction fuel with
  | zero => exact fun _ _ => rfl
  | succ fuel ih =>
    intro b n
    unfold busNodeGc
    split
    · split
      · exact (dropNode_rest b n).1
      · exact (ih _ _).trans (dropNode_rest b n).1
    · rfl

theorem busNodeAllocate_gc (fuel : Nat) : ∀ {b : ObjBus} {p : Str} {m : Nat}, Shape b none →
    (∃ r, p = charSlash :: r) → p.length ≤ fuel → p.length ≤ m →
    Restored b (busNodeGc m (busNodeAllocate fuel b p).1 (busNodeAllocate fuel b p).2) := by
  induction fuel with
  | zero =>
    rintro b p fuel' - ⟨r, rfl⟩ hl
    simp at hl
  | succ fuel ih =>
    rintro b p fuel' h ⟨r, hpr⟩ hl hl'
    obtain ⟨fuel', rfl⟩ : ∃ f, fuel' = f + 1 := by
      rw [hpr, List.length_cons] at hl'
      exact ⟨fuel' - 1, by omega⟩
    rcases hg : b.getNode p with _ | n
    · by_cases hr : p = rootPath
      · have hne : (none : Option Nat) ≠ some b.nNodes := (Option.some_ne_none _).symm
        simp only [busNodeAllocate, hg, if_pos hr, (newNode_rest b p none).1]
        rw [busNodeGc_newNode hne]
        exact newNode_dropNode hg hne
      · obtain ⟨hlt, hpp⟩ := parentPath_cons hpr hr
        obtain ⟨hs, ha, hlive, -⟩ := busNodeAllocate_shape fuel h hpp (by omega)
        have hg' := busNodeAllocate_getNode fuel b (parentPath p) hlt
        have hrestored := ih (m := fuel') h hpp (by omega) (by omega)
        simp only [busNodeAllocate, hg, if_neg hr]
        generalize busNodeAllocate fuel b (parentPath p) = r' at *
        obtain ⟨c, q⟩ := r'
        have hne : some q ≠ some c.nNodes := by
          intro he
          have hq := hs.bound q hlive
          rw [Option.some.inj he] at hq
          exact lt_irrefl _ hq
        simp only [(newNode_rest c p (some q)).1]
        rw [busNodeGc_newNode hne]
        -- Without the new node the collection comes to the parent, as it does in `c`.
        have hdropped := Restored.gc fuel' (newNode_dropNode (hg'.trans hg) hne) hs hlive
        refine hrestored.trans hdropped ?_
        rw [busNodeGc_nNodes]
        exact ha.nNodes
    · obtain ⟨hn, -⟩ := h.getNode.mp hg
      simp only [busNodeAllocate, hg, busNodeGc, h.leaf n hn (Option.some_ne_none n)]
      exact .refl b

/-- Nodes, slots and members are as before the call: the tables hold no member of the vtable that
was turned away, and every vtable may be registered that could have been. -/
structure Untouched (b b' : ObjBus) : Prop extends Restored b b' where
  slot : ∀ s < b.nSlots, b'.slot s = b.slot s
  members : ∀ k m, m ∈ b'.members k ↔ m ∈ b.members k
  unreachable : ∀ k, ∀ m ∈ b'.members k, m.parent < b.nSlots
  registers : ∀ path interface vtable fallback find,
    (addObjectVtableInternal b' path interface vtable fallback find).2.isOk =
      (addObjectVtableInternal b path interface vtable fallback find).2.isOk

theorem EntriesPut.ok_iff {path interface : Str} {s : Nat} {es : List VtableEntry}
    {r : ObjBus × Option Errno} (h : EntriesPut path interface s es b r) :
    r.2 = none ↔
      ∀ pre e post, es = pre ++ e :: post → ¬EntryRefused path interface b pre e := by
  obtain ⟨done, rest, rfl, hd, -, ⟨hnone, rfl⟩ | ⟨hsome, e, post, rfl, hx⟩⟩ := h
  · rw [List.append_nil]
    exact iff_of_true hnone hd
  · exact iff_of_false hsome fun hall => hall done e post rfl hx

def VtableAccepted (b : ObjBus) (path interface : Str) (vtable : Vtable) (fallback : Bool) : Prop :=
  objectPathIsValid path = true ∧ interfaceNameIsValid interface = true ∧
    vtable.hasStart = true ∧ interface ∉ reservedInterfaces ∧
    (∀ n, b.getNode path = some n → ∀ i ∈ b.vtables n,
      Compatible b interface vtable fallback i) ∧
    ∀ pre e post, vtable.entries = pre ++ e :: post → ¬EntryRefused path interface b pre e

theorem addVtableSlot_cases (c : ObjBus) (n : Nat) (p : Str) {y : ObjSlot} (hy : y.node = none)
    (after : Option Nat) :
    let r := addVtableSlot c n p y after
    (r.2.isOk = true ↔ ∀ pre e post, y.vtable.entries = pre ++ e :: post →
      ¬EntryRefused p y.interface c pre e) ∧
    (r.2.isOk = false → ∃ d : ObjBus, r.1 = d.gc n ∧ d.node = c.node ∧ d.nodes = c.nodes ∧
      d.nNodes = c.nNodes ∧ (∀ s < c.nSlots, d.slot s = c.slot s) ∧
      (EntriesClean p y.interface c y.vtable.entries ↔
        ∀ k m, m ∈ d.members k ↔ m ∈ c.members k)) := by
  have hput : EntriesPut p y.interface c.nSlots y.vtable.entries (c.slotAllocate y)
      (putMembers p y.interface c.nSlots y.vtable.entries (c.slotAllocate y)) :=
    putMembers_spec _ _
  have hok := hput.ok_iff
  have hclean : EntriesClean p y.interface c y.vtable.entries ↔ _ := hput.clean_iff
  obtain ⟨done, -, -, -, hp, -⟩ := hput
  dsimp only
  unfold addVtableSlot
  dsimp only
  generalize putMembers p y.interface c.nSlots y.vtable.entries (c.slotAllocate y) = r at *
  obtain ⟨d, _ | e⟩ := r <;> dsimp only at hp
  · exact ⟨iff_of_true rfl (hok.mp rfl), fun hf => Bool.noConfusion hf⟩
  refine ⟨iff_of_false Bool.false_ne_true fun hall => Option.some_ne_none e (hok.mpr hall),
    fun _ => ⟨d.slotDisconnect c.nSlots, rfl, ?_⟩⟩
  have hslots : d.slot = (c.slotAllocate y).slot := by rw [hp.rest]
  have hslot : d.slot c.nSlots = { y with connected := true } := by
    rw [hslots, slotAllocate_slot]
  -- The slot has no node yet, so its members are left where they are.
  have hd : d.slotDisconnect c.nSlots =
      d.setSlot c.nSlots { y with connected := false, interface := [] } := by
    simp only [ObjBus.slotDisconnect, hslot, hy, Bool.not_true, Bool.false_eq_true, if_false]
  rw [hd]
  refine ⟨?_, ?_, ?_, fun s hs => ?_, ?_⟩
  · rw [setSlot_node, hp.rest]
    rfl
  · rw [setSlot_nodes, hp.rest]
    rfl
  · rw [setSlot_nNodes, hp.rest]
    rfl
  · rw [setSlot_slot, if_neg hs.ne, hslots, ObjBus.slotAllocate, setSlot_slot, if_neg hs.ne]
  · rw [hclean, or_iff_right (Option.some_ne_none e)]
    rfl

variable {p i : Str} {vt : Vtable} {fb : Bool} {find : Option Nat}

theorem gc_untouched {d : ObjBus} (h : Rooted b) (hp : ∃ r, p = charSlash :: r)
    (hn : d.node = (busNodeAllocate p.length b p).1.node)
    (hm : d.nodes = (busNodeAllocate p.length b p).1.nodes)
    (hN : d.nNodes = (busNodeAllocate p.length b p).1.nNodes) :
    let n := (busNodeAllocate p.length b p).2
    Restored b (d.gc n) ∧ (d.gc n).slot = d.slot ∧ (d.gc n).members = d.members := by
  obtain ⟨hs, ha, hl, hpath⟩ := busNodeAllocate_shape p.length h.toShape hp le_rfl
  have hgone := busNodeAllocate_gc p.length (m := p.length) h.toShape hp le_rfl le_rfl
  dsimp only
  generalize busNodeAllocate p.length b p = r at *
  obtain ⟨c, n⟩ := r
  have hsd : Shape d (some n) := hs.congr hn hm hN
  have hld : (d.node n).live = true := by
    rw [hn]
    exact hl
  obtain ⟨-, had⟩ := busNodeGc_shape _ hsd hld le_rfl
  refine ⟨?_, had.slot, had.members⟩
  have hsame : Restored c d := ⟨hm, fun k _ => by rw [hn]⟩
  have hgc := hsame.gc p.length hs hl
  unfold ObjBus.gc
  rw [hn, hpath]
  refine hgone.trans hgc ?_
  rw [busNodeGc_nNodes]
  exact ha.nNodes

theorem addObjectVtableInternal_cases (h : Rooted b) (p i : Str) (vt : Vtable) (fb : Bool)
    (find : Option Nat) :
    let r := addObjectVtableInternal b p i vt fb find
    (r.2.isOk = true ↔ VtableAccepted b p i vt fb) ∧
    (r.2.isOk = false → Restored b r.1 ∧ (∀ s < b.nSlots, r.1.slot s = b.slot s) ∧
      (VtableClean b p i vt fb ↔ ∀ k m, m ∈ r.1.members k ↔ m ∈ b.members k)) := by
  dsimp only
  unfold addObjectVtableInternal VtableAccepted VtableClean
  split
  · next hv =>
    rw [Bool.not_eq_true'] at hv
    rw [hv]
    exact ⟨by simp [Except.isOk, Except.toBool], fun _ => ⟨.refl b, fun _ _ => rfl, by simp⟩⟩
  next hp =>
  split
  · next hv =>
    rw [Bool.not_eq_true'] at hv
    rw [hv]
    exact ⟨by simp [Except.isOk, Except.toBool], fun _ => ⟨.refl b, fun _ _ => rfl, by simp⟩⟩
  split
  · next hv =>
    rw [Bool.not_eq_true'] at hv
    rw [hv]
    exact ⟨by simp [Except.isOk, Except.toBool], fun _ => ⟨.refl b, fun _ _ => rfl, by simp⟩⟩
  split
  · next hv =>
    exact ⟨by simp [Except.isOk, Except.toBool, hv], fun _ => ⟨.refl b, fun _ _ => rfl, by simp [hv]⟩⟩
  next hi hs hr =>
  simp only [Bool.not_eq_true', Bool.not_eq_false] at hp hi hs
  simp only [hp, hi, hs, hr, not_false_eq_true, forall_const, true_and]
  have hslash := objectPathIsValid_cons hp
  obtain ⟨hsh, ha, hl, hpath⟩ := busNodeAllocate_shape p.length h.toShape hslash le_rfl
  have hcompat := ha.compatible_iff (i := i) (v := vt) (f := fb) h.toShape hsh hl hpath
  have hgone := fun d => gc_untouched (d := d) h hslash
  generalize busNodeAllocate p.length b p = r at *
  obtain ⟨c, n⟩ := r
  dsimp only at hsh ha hl hpath hcompat hgone ⊢
  rw [hcompat]
  have hclean : EntriesClean p i b vt.entries ↔ EntriesClean p i c vt.entries := by
    simp only [EntriesClean, EntryRefused, ha.members]
  have hrefused : ∀ pre e, EntryRefused p i b pre e ↔ EntryRefused p i c pre e := by
    simp only [EntryRefused, ha.members, implies_true]
  simp only [hclean, hrefused]
  rcases hf : findExisting c i vt fb (c.vtables n) none with e | ex
  · obtain ⟨hrest, hslot, hmem⟩ := hgone c rfl rfl rfl
    refine ⟨iff_of_false Bool.false_ne_true fun hall => findExisting_error hf hall.1, fun _ =>
      ⟨hrest, fun s _ => by rw [hslot, ha.slot], iff_of_true (fun hall =>
        absurd hall (findExisting_error hf)) fun k m => by rw [hmem, ha.members]⟩⟩
  · obtain ⟨hall, -⟩ := findExisting_ok hf
    obtain ⟨hok, hfail⟩ := addVtableSlot_cases c n p
      (y := ⟨p, false, .vtable, none, fb, 0, i, vt, find, 0⟩) rfl ex
    refine ⟨hok.trans (and_iff_right hall).symm, fun hf => ?_⟩
    obtain ⟨d, hd, hn, hm, hN, hslot, hmem⟩ := hfail hf
    obtain ⟨hrest, hslot', hmem'⟩ := hgone d hn hm hN
    dsimp only
    rw [hd]
    refine ⟨hrest, fun s hs => ?_, ?_⟩
    · rw [hslot', hslot s (by rw [ha.nSlots]; exact hs), ha.slot]
    · rw [hmem', ← ha.members]
      exact ⟨fun hc => hmem.mp (hc hall), fun hc _ => hmem.mpr hc⟩

theorem Untouched.of_restored (h : Rooted b) {b' : ObjBus} (hr : Rooted b') (hrest : Restored b b')
    (hslot : ∀ s < b.nSlots, b'.slot s = b.slot s)
    (hm : ∀ k m, m ∈ b'.members k ↔ m ∈ b.members k) : Untouched b b' where
  toRestored := hrest
  slot := hslot
  members := hm
  unreachable k m hmem := (h.memberPath k m ((hm k m).mp hmem)).2
  registers path interface vtable fallback find := by
    have hget : ∀ q, b'.getNode q = b.getNode q := fun q => by
      simp only [ObjBus.getNode, hrest.nodes]
    have hvtables : ∀ n, b.getNode path = some n → b'.vtables n = b.vtables n := by
      intro n hn
      have hlt := h.bound n (h.toShape.getNode.mp hn).1
      simp only [ObjBus.vtables, hrest.node n hlt]
    have hslots : ∀ n, ∀ j ∈ b.vtables n, b'.slot j = b.slot j := by
      intro n j hj
      exact hslot j (h.slotBound j ((h.mem_attached n .vtable j).mp hj).1)
    have hcompat : (∀ n, b'.getNode path = some n → ∀ j ∈ b'.vtables n,
        Compatible b' interface vtable fallback j) ↔
        ∀ n, b.getNode path = some n → ∀ j ∈ b.vtables n,
          Compatible b interface vtable fallback j := by
      refine forall_congr' fun n => ?_
      rw [hget]
      refine forall_congr' fun hn => ?_
      rw [hvtables n hn]
      refine forall₂_congr fun j hj => ?_
      unfold Compatible
      rw [hslots n j hj]
    rw [Bool.eq_iff_iff, (addObjectVtableInternal_cases hr path interface vtable fallback find).1,
      (addObjectVtableInternal_cases h path interface vtable fallback find).1]
    unfold VtableAccepted
    rw [hcompat]
    simp only [EntryRefused, hm]

/-- A call that fails leaves the tree as it was if and only if it fails before it comes to a method
or a property. -/
theorem addObjectVtableInternal_untouched (ops : List ObjectOp) (path interface : Str)
    (vtable : Vtable) (fallback : Bool) (find : Option Nat)
    (hfail : (addObjectVtableInternal (objectRun ops) path interface vtable fallback find).2.isOk =
      false) :
    Untouched (objectRun ops)
        (addObjectVtableInternal (objectRun ops) path interface vtable fallback find).1 ↔
      VtableClean (objectRun ops) path interface vtable fallback := by
  have h : Rooted (objectRun ops) := (Rooted.execAll ops rooted_nil).1
  obtain ⟨-, hleft⟩ := addObjectVtableInternal_cases h path interface vtable fallback find
  obtain ⟨hrest, hslot, hmem⟩ := hleft hfail
  rw [hmem]
  refine ⟨fun hu => hu.members, fun hm => ?_⟩
  exact .of_restored h (h.addObjectVtableInternal _ _ _ _ _).1 hrest hslot hm

def methodAdded : List ObjectOp :=
  [.addObjectVtable [47, 97] [97, 46, 98]
    { address := 0, entries := [.method 0 [77] [] [] (some 0)] }]

/-- The method is there already, and it is the first entry of the second vtable. -/
theorem addObjectVtableInternal_untouched_first :
    Untouched (objectRun methodAdded)
      (addObjectVtableInternal (objectRun methodAdded) [47, 97] [97, 46, 98]
        { address := 1, entries := [.method 0 [77] [] [] (some 1)] } false none).1 := by
  refine (addObjectVtableInternal_untouched methodAdded _ _ _ false none (by decide +kernel)).mpr ?_
  intro _ _ _ _ _
  refine .inr ⟨[], _, [], rfl, .inr ⟨.method, rfl, .inl ?_⟩, by simp⟩
  exact ⟨memberOf [47, 97] [97, 46, 98] 0 (.method 0 [77] [] [] (some 0)), by decide +kernel, rfl⟩

/-- The vtable with the methods `N` and `M` is refused, but `N` is in the table. -/
theorem not_addObjectVtableInternal_untouched :
    let r := addObjectVtableInternal (objectRun methodAdded) [47, 97] [97, 46, 98]
      { address := 1, entries := [.method 0 [78] [] [] (some 1), .method 0 [77] [] [] (some 1)] }
      false none
    r.2 = .error .eexist ∧ ¬Untouched (objectRun methodAdded) r.1 := by
  refine ⟨by decide +kernel, fun hu => ?_⟩
  have hm := hu.unreachable .method (memberOf [47, 97] [97, 46, 98] 1 (.method 0 [78] [] [] (some 1)))
    (by decide +kernel)
  have hn : (objectRun methodAdded).nSlots = 1 := by decide +kernel
  rw [hn] at hm
  exact lt_irrefl _ hm

end Basu
