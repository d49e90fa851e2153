import Basu.Object.Invariant

/-! The calls that register on the object tree and take registrations back keep it an
`ObjectTree`, with one exception: an `sd_bus_add_object_vtable` that fails at an entry behind a
method or a property leaves that method or property in its table. -/

namespace Basu
open Lib
open Function

section entries
variable (path interface : Str) (s : Nat)

/-- The entry is turned away when it comes behind `pre`: it is malformed, or its key is taken. -/
def EntryRefused (b : ObjBus) (pre : List VtableEntry) (e : VtableEntry) : Prop :=
  e.isValid = false ∨ ∃ k, e.kind = some k ∧
    ((∃ m ∈ b.members k, m.key = (path, interface, e.member)) ∨
      ∃ x ∈ pre, x.kind = some k ∧ x.member = e.member)

def EntriesClean (b : ObjBus) (es : List VtableEntry) : Prop :=
  (∀ pre e post, es = pre ++ e :: post → ¬ EntryRefused path interface b pre e) ∨
    ∃ pre e post, es = pre ++ e :: post ∧ EntryRefused path interface b pre e ∧
      ∀ x ∈ pre, x.kind = none

variable {path interface s} {b : ObjBus} {k : MemberKind} {e : VtableEntry}

theorem entryRefused_setMembers {e' : VtableEntry} {pre : List VtableEntry}
    (hk : e.kind = some k) : EntryRefused path interface
      (b.setMembers k (memberOf path interface s e :: b.members k)) pre e' ↔
    EntryRefused path interface b (e :: pre) e' := by
  unfold EntryRefused
  refine or_congr_right (exists_congr fun k' => and_congr_right fun hk' => ?_)
  by_cases he : k' = k
  · subst he
    simp only [ObjBus.setMembers, update_self, List.mem_cons, exists_eq_or_imp, hk,
      true_and, VtableMember.key, memberOf, Prod.mk.injEq]
    rw [or_assoc, or_left_comm]
  · have hne : e.kind ≠ some k' := fun h => he (Option.some.inj (h.symm.trans hk))
    simp only [ObjBus.setMembers, update_of_ne he, List.mem_cons, exists_eq_or_imp, hne,
      false_and, false_or]

theorem entryRefused_signal {e' : VtableEntry} {pre : List VtableEntry} (hk : e.kind = none) :
    EntryRefused path interface b (e :: pre) e' ↔ EntryRefused path interface b pre e' := by
  simp only [EntryRefused, List.mem_cons, exists_eq_or_imp, hk, reduceCtorEq, false_and, false_or]

structure MembersPut (path interface : Str) (s : Nat) (done : List VtableEntry) (b b' : ObjBus) :
    Prop where
  rest : b' = { b with members := b'.members }
  keyed : (∀ k, Table.Keyed VtableMember.key (b.members k)) →
    ∀ k, Table.Keyed VtableMember.key (b'.members k)
  mem : ∀ k m, m ∈ b'.members k ↔ m ∈ b.members k ∨
    ∃ e ∈ done, e.kind = some k ∧ m = memberOf path interface s e

theorem MembersPut.refl (b : ObjBus) : MembersPut path interface s [] b b :=
  ⟨rfl, id, by simp⟩

theorem MembersPut.signal (b : ObjBus) (hk : e.kind = none) :
    MembersPut path interface s [e] b b :=
  ⟨rfl, id, by simp [hk]⟩

theorem MembersPut.put (hk : e.kind = some k) {t : List VtableMember}
    (ht : Table.put VtableMember.key (b.members k) (memberOf path interface s e) = some t) :
    MembersPut path interface s [e] b (b.setMembers k t) where
  rest := rfl
  keyed h k' := by
    simp only [ObjBus.setMembers, update_apply]
    split
    · next he => exact (h k).put ht
    · exact h k'
  mem k' m := by
    obtain ⟨rfl, -⟩ := Table.put_eq_some ht
    by_cases he : k' = k
    · subst he
      simp [ObjBus.setMembers, hk, or_comm]
    · have hne : k ≠ k' := fun h => he h.symm
      simp [ObjBus.setMembers, he, hk, hne]

theorem MembersPut.trans {b' b'' : ObjBus} {done done' : List VtableEntry}
    (h : MembersPut path interface s done b b') (h' : MembersPut path interface s done' b' b'') :
    MembersPut path interface s (done ++ done') b b'' where
  rest := by
    rw [h'.rest, h.rest]
  keyed := fun hk => h'.keyed (h.keyed hk)
  mem k m := by
    rw [h'.mem, h.mem, or_assoc]
    simp only [List.mem_append, or_and_right, exists_or]

/-- What the loop makes of the entries: it puts them up to the first one that is turned away. -/
def EntriesPut (path interface : Str) (s : Nat) (es : List VtableEntry) (b : ObjBus)
    (r : ObjBus × Option Errno) : Prop :=
  ∃ done rest, es = done ++ rest ∧
    (∀ pre e post, done = pre ++ e :: post → ¬ EntryRefused path interface b pre e) ∧
    MembersPut path interface s done b r.1 ∧
    ((r.2 = none ∧ rest = []) ∨
      (r.2 ≠ none ∧ ∃ e post, rest = e :: post ∧ EntryRefused path interface b done e))

theorem EntriesPut.refused {es : List VtableEntry} {err : Errno}
    (h : EntryRefused path interface b [] e) :
    EntriesPut path interface s (e :: es) b (b, some err) :=
  ⟨[], e :: es, rfl, by simp, .refl b, .inr ⟨by simp, e, es, rfl, h⟩⟩

theorem EntriesPut.cons {b' : ObjBus} {es : List VtableEntry} {r : ObjBus × Option Errno}
    (h : EntriesPut path interface s es b' r) (he : ¬ EntryRefused path interface b [] e)
    (hp : MembersPut path interface s [e] b b')
    (hr : ∀ pre e', EntryRefused path interface b' pre e' ↔
      EntryRefused path interface b (e :: pre) e') :
    EntriesPut path interface s (e :: es) b r := by
  obtain ⟨done, rest, rfl, hd, hp', hrest⟩ := h
  refine ⟨e :: done, rest, rfl, ?_, hp.trans hp', ?_⟩
  · intro pre e' post hdone
    rcases pre with _ | ⟨x, pre⟩
    · obtain ⟨rfl, -⟩ := List.cons.inj hdone
      exact he
    · obtain ⟨rfl, hdone'⟩ := List.cons.inj hdone
      exact fun hx => hd pre e' post hdone' ((hr pre e').mpr hx)
  · refine hrest.imp_right ?_
    rintro ⟨hne, e', post, rfl, hx⟩
    exact ⟨hne, e', post, rfl, (hr done e').mp hx⟩

theorem putMembers_spec (es : List VtableEntry) : ∀ (b : ObjBus),
    EntriesPut path interface s es b (putMembers path interface s es b) := by
  induction es with
  | nil =>
    intro b
    exact ⟨[], [], rfl, by simp, .refl b, .inl ⟨rfl, rfl⟩⟩
  | cons e es ih =>
    intro b
    unfold putMembers
    split
    · next hv => exact .refused (.inl (by simpa using hv))
    · next hv =>
      rcases hk : e.kind with _ | k
      · refine (ih b).cons ?_ (.signal b hk) (fun _ _ => (entryRefused_signal hk).symm)
        rintro (hx | ⟨k, hx, -⟩)
        · exact hv (by simp [hx])
        · simp [hk] at hx
      · rcases ht : Table.put VtableMember.key (b.members k) (memberOf path interface s e)
          with _ | t
        · simp only [ht]
          exact .refused (.inr ⟨k, hk, .inl (Table.put_eq_none.mp ht)⟩)
        · simp only [ht]
          obtain ⟨rfl, hfresh⟩ := Table.put_eq_some ht
          refine (ih _).cons ?_ (.put hk ht) (fun _ _ => entryRefused_setMembers hk)
          rintro (hx | ⟨k', hx, ⟨m, hm, hmk⟩ | ⟨x, hx', -⟩⟩)
          · exact hv (by simp [hx])
          · rw [hk] at hx
            exact hfresh m (Option.some.inj hx ▸ hm) hmk
          · exact List.not_mem_nil hx'

theorem EntriesPut.clean_iff {es : List VtableEntry} {r : ObjBus × Option Errno}
    (h : EntriesPut path interface s es b r) : EntriesClean path interface b es ↔
      (r.2 = none ∨ ∀ k m, m ∈ r.1.members k ↔ m ∈ b.members k) := by
  obtain ⟨done, rest, rfl, hd, hp, hr⟩ := h
  constructor
  · intro hclean
    rcases hr with ⟨hnone, -⟩ | ⟨-, e, post, rfl, hx⟩
    · exact .inl hnone
    · rcases hclean with hno | ⟨pre, e', post', hes, hx', hsig⟩
      · exact absurd hx (hno done e post rfl)
      · -- The loop got no further than the entry `e'`, so it has seen signals only.
        have hdone : ∀ x ∈ done, x.kind = none := by
          rcases List.append_eq_append_iff.mp hes with ⟨c, hpre, -⟩ | ⟨c, hdone, hc⟩
          · exact fun x hxd => hsig x (hpre ▸ List.mem_append_left c hxd)
          · rcases c with _ | ⟨y, c⟩
            · simpa [hdone] using hsig
            · obtain ⟨rfl, -⟩ := List.cons.inj hc
              exact absurd hx' (hd pre _ c hdone)
        refine .inr fun k m => ?_
        rw [hp.mem]
        refine or_iff_left ?_
        rintro ⟨x, hxd, hk, -⟩
        rw [hdone x hxd] at hk
        simp at hk
  · rintro (hnone | hsame)
    · rcases hr with ⟨-, rfl⟩ | ⟨hne, -⟩
      · exact .inl (by simpa using hd)
      · exact absurd hnone hne
    · rcases hr with ⟨-, rfl⟩ | ⟨-, e, post, rfl, hx⟩
      · exact .inl (by simpa using hd)
      · refine .inr ⟨done, e, post, rfl, hx, fun x hxd => ?_⟩
        rcases hk : x.kind with _ | k
        · rfl
        · -- A member that the loop put would have been in the table before.
          obtain ⟨pre, post', hdone⟩ := List.append_of_mem hxd
          have hm : memberOf path interface s x ∈ b.members k :=
            (hsame k _).mp ((hp.mem k _).mpr (.inr ⟨x, hxd, hk, rfl⟩))
          exact absurd (.inr ⟨k, hk, .inl ⟨_, hm, rfl⟩⟩) (hd pre x post' hdone)

end entries

section steps
variable {b b' : ObjBus} {n s : Nat} {x : Option Nat}

theorem Shape.congr (h : Shape b x) (hn : b'.node = b.node) (hm : b'.nodes = b.nodes)
    (hN : b'.nNodes = b.nNodes) : Shape b' x :=
  h.reattach hm hN (fun k => ⟨_, by rw [hn]⟩) (by rw [hn]; exact h.leaf) (by rw [hn]; exact h.dead)

theorem Hung.congr (h : Hung b) (hn : b'.node = b.node) (hs : b'.slot = b.slot)
    (hN : b.nSlots ≤ b'.nSlots) : Hung b' where
  nodup := by
    rw [hn]
    exact h.nodup
  mem_attached := by
    rw [hn, hs]
    exact h.mem_attached
  slotBound i hc := by
    rw [hs] at hc
    exact (h.slotBound i hc).trans_le hN

theorem VtableOrder.congr (h : VtableOrder b) (hn : b'.node = b.node) (hs : b'.slot = b.slot) :
    VtableOrder b' := by
  refine ⟨?_, ?_⟩
  · simp only [ObjBus.vtables, hn, hs]
    exact h.grouped
  · simp only [ObjBus.vtables, hn, hs]
    exact h.fallback

theorem declares_congr (hn : b'.node = b.node) (hs : b'.slot = b.slot) (k : MemberKind)
    (m : VtableMember) : b'.Declares k m ↔ b.Declares k m := by
  simp only [ObjBus.Declares, ObjBus.vtables, hn, hs]

theorem ObjectTree.gc (hs : Shape b (some n)) (hl : (b.node n).live = true) (hh : Hung b)
    (ho : VtableOrder b) (ht : MemberTables b) : ObjectTree (b.gc n) := by
  obtain ⟨hs', ha⟩ := busNodeGc_shape _ hs hl le_rfl
  exact ⟨hs', ha.hung hh, ha.vtableOrder ho, ha.memberTables hs ht⟩

theorem Hung.loose_nSlots (h : Hung b) : (b.slot b.nSlots).Loose := by
  right
  by_contra hc
  exact lt_irrefl _ (h.slotBound _ (by simpa using hc))

theorem Hung.slotAllocate (h : Hung b) {y : ObjSlot} (hy : y.node = none) :
    Hung (b.slotAllocate y) := by
  have h' : Hung { b with nSlots := b.nSlots + 1 } := h.congr rfl rfl (Nat.le_succ _)
  exact h'.setLoose h.loose_nSlots (.inl hy) (fun _ => Nat.lt_succ_self _)

theorem VtableOrder.slotAllocate (h : VtableOrder b) (hh : Hung b) (y : ObjSlot) :
    VtableOrder (b.slotAllocate y) := by
  have ho : VtableOrder { b with nSlots := b.nSlots + 1 } := h.congr rfl rfl
  have hh' : Hung { b with nSlots := b.nSlots + 1 } := hh.congr rfl rfl (Nat.le_succ _)
  exact ho.setLoose hh' hh.loose_nSlots

theorem MemberTables.slotAllocate (h : MemberTables b) (hh : Hung b) (y : ObjSlot) :
    MemberTables (b.slotAllocate y) := by
  have ht : MemberTables { b with nSlots := b.nSlots + 1 } := ⟨h.memberKeyed, h.declares⟩
  have hh' : Hung { b with nSlots := b.nSlots + 1 } := hh.congr rfl rfl (Nat.le_succ _)
  exact ht.setLoose hh' hh.loose_nSlots

theorem slotAllocate_slot (b : ObjBus) (y : ObjSlot) :
    (b.slotAllocate y).slot b.nSlots = { y with connected := true } := by
  simp only [ObjBus.slotAllocate, setSlot_slot, if_true]

theorem ObjectTree.addNodeSlot (h : ObjectTree b) (p : Str) {y : ObjSlot} (hy : y.node = none)
    (ht : y.type ≠ .vtable) : ObjectTree (addNodeSlot b p y).1 := by
  unfold Basu.addNodeSlot
  split
  · exact h
  · next hp =>
    obtain ⟨hs, ha, hl, -⟩ := busNodeAllocate_shape p.length h.toShape
      (objectPathIsValid_cons (by simpa using hp)) le_rfl
    have hh := ha.hung h.toHung
    have ho := ha.vtableOrder h.toVtableOrder
    have hm := ha.memberTables h.toShape h.toMemberTables
    generalize busNodeAllocate p.length b p = r at *
    obtain ⟨c, n⟩ := r
    have hslot := slotAllocate_slot c { y with path := p }
    have hs' : Shape (c.slotAllocate { y with path := p }) (some n) := hs.congr rfl rfl rfl
    have hh' := hh.slotAllocate (y := { y with path := p }) hy
    have hm' := hm.slotAllocate hh { y with path := p }
    refine ⟨hs'.attach hl, hh'.attach ?_ ?_, (ho.slotAllocate hh _).attach ?_, ?_, ?_⟩
    · rw [hslot]
    · rw [hslot]
      exact hy
    · rw [hslot]
      exact fun he => absurd he ht
    · exact hm'.memberKeyed
    · intro k m
      rw [declares_attach, hslot]
      simp only [ht, false_and, or_false]
      exact hm'.declares k m

theorem removeMembers_rest (p i : Str) (es : List VtableEntry) : ∀ (b : ObjBus),
    (b.removeMembers p i es).node = b.node ∧ (b.removeMembers p i es).nodes = b.nodes ∧
      (b.removeMembers p i es).nNodes = b.nNodes ∧ (b.removeMembers p i es).slot = b.slot ∧
      (b.removeMembers p i es).nSlots = b.nSlots := by
  induction es with
  | nil => exact fun _ => ⟨rfl, rfl, rfl, rfl, rfl⟩
  | cons e es ih =>
    intro b
    obtain ⟨h₁, h₂, h₃, h₄, h₅⟩ := ih (b.removeMember p i e)
    refine ⟨h₁.trans ?_, h₂.trans ?_, h₃.trans ?_, h₄.trans ?_, h₅.trans ?_⟩ <;>
      · unfold ObjBus.removeMember
        split <;> rfl

theorem mem_removeMembers (p i : Str) (es : List VtableEntry) : ∀ (b : ObjBus) (k : MemberKind)
    (m : VtableMember), m ∈ (b.removeMembers p i es).members k ↔
      m ∈ b.members k ∧ ∀ e ∈ es, e.kind = some k → m.key ≠ (p, i, e.member) := by
  induction es with
  | nil =>
    intro b k m
    simp [ObjBus.removeMembers]
  | cons e es ih =>
    intro b k m
    have he : m ∈ (b.removeMember p i e).members k ↔
        m ∈ b.members k ∧ (e.kind = some k → m.key ≠ (p, i, e.member)) := by
      unfold ObjBus.removeMember
      split
      · next hk => simp [hk]
      · next k' hk =>
        simp only [ObjBus.setMembers, update_apply, hk, Option.some.injEq]
        split
        · next hkk => simp [hkk, Table.mem_remove]
        · next hkk => simp [Ne.symm hkk]
    show m ∈ ((b.removeMember p i e).removeMembers p i es).members k ↔ _
    rw [ih, he, and_assoc, List.forall_mem_cons]

theorem removeMembers_keyed (p i : Str) (es : List VtableEntry) : ∀ (b : ObjBus),
    (∀ k, Table.Keyed VtableMember.key (b.members k)) →
    ∀ k, Table.Keyed VtableMember.key ((b.removeMembers p i es).members k) := by
  induction es with
  | nil => exact fun _ h => h
  | cons e es ih =>
    intro b h
    refine ih _ fun k => ?_
    show Table.Keyed VtableMember.key ((b.removeMember p i e).members k)
    unfold ObjBus.removeMember
    split
    · exact h k
    · simp only [ObjBus.setMembers, update_apply]
      split
      · next hk => exact (h _).remove _
      · exact h k

theorem MemberTables.detach (h : MemberTables b) (hh : Hung b)
    (hc : (b.slot s).connected = true) (ht : (b.slot s).type = .vtable)
    (hn : (b.slot s).node = some n) : MemberTables
      ((b.removeMembers (b.node n).path (b.slot s).interface (b.slot s).vtable.entries).detach
        n s) := by
  set c := b.removeMembers (b.node n).path (b.slot s).interface (b.slot s).vtable.entries with hcdef
  obtain ⟨hnode, -, -, hslot, hnSlots⟩ := removeMembers_rest (b.node n).path
    (b.slot s).interface (b.slot s).vtable.entries b
  rw [← hcdef] at hnode hslot hnSlots
  have hhc : Hung c := hh.congr hnode hslot hnSlots.ge
  refine ⟨removeMembers_keyed _ _ _ b h.memberKeyed, fun k m => ?_⟩
  rw [declares_detach hhc (by rw [hslot]; exact hn), declares_congr hnode hslot, h.declares]
  show _ ↔ ∃ i, { m with lastIteration := i } ∈ c.members k
  simp only [hcdef, mem_removeMembers]
  show _ ↔ ∃ i, _ ∧ ∀ e : VtableEntry, e ∈ _ → e.kind = some k → m.key ≠ _
  rw [exists_and_right]
  refine and_congr_right fun ⟨i, hi⟩ => ?_
  have hmem : s ∈ b.vtables n := (hh.mem_attached n .vtable s).mpr ⟨hc, ht, hn⟩
  constructor
  · -- A member with the key of one of the entries is that entry's.
    intro hne e he hk hkey
    have hd : b.Declares k (memberOf (b.node n).path (b.slot s).interface s e) :=
      ⟨n, hmem, rfl, rfl, he, hk, rfl⟩
    obtain ⟨j, hj⟩ := (h.declares k _).mp hd
    exact hne (congrArg VtableMember.parent ((h.memberKeyed k).inj hi hj hkey))
  · rintro hno hps
    obtain ⟨n', hm, hp, hin, he, hk, hmem'⟩ := (h.declares k m).mpr ⟨i, hi⟩
    rw [hps] at hm hin he
    have hnn : n' = n := by
      have := ((hh.mem_attached n' .vtable s).mp hm).2.2
      rw [hn] at this
      exact (Option.some.inj this).symm
    exact hno m.entry he hk (by simp only [VtableMember.key, hp, hnn, hin, hmem'])

theorem ObjectTree.slotDisconnect (h : ObjectTree b) (s : Nat) :
    ObjectTree (b.slotDisconnect s) := by
  by_cases hc : (b.slot s).connected = true
  swap
  · simpa only [ObjBus.slotDisconnect, hc, Bool.not_false, if_true] using h
  rcases hn : (b.slot s).node with _ | n
  · have hloose : (b.slot s).Loose := .inl hn
    simp only [ObjBus.slotDisconnect, hc, hn, Bool.not_true, Bool.false_eq_true, if_false]
    exact ⟨h.toShape.congr rfl rfl rfl,
      h.toHung.setLoose hloose (.inr rfl) (fun hf => absurd hf (by simp)),
      h.toVtableOrder.setLoose h.toHung hloose, h.toMemberTables.setLoose h.toHung hloose⟩
  · have hlive := h.toShape.live_of_mem ((h.mem_attached n _ s).mpr ⟨hc, rfl, hn⟩)
    by_cases ht : (b.slot s).type = .vtable
    · simp only [ObjBus.slotDisconnect, hc, hn, ht, Bool.not_true, Bool.false_eq_true, if_false,
        if_true]
      obtain ⟨hnode, hnodes, hnN, hslot, hnS⟩ := removeMembers_rest (b.node n).path
        (b.slot s).interface (b.slot s).vtable.entries b
      have hm := h.toMemberTables.detach h.toHung hc ht hn
      generalize b.removeMembers (b.node n).path (b.slot s).interface
        (b.slot s).vtable.entries = c at *
      have hhc : Hung c := h.toHung.congr hnode hslot hnS.ge
      have hnc : (c.slot s).node = some n := by rw [hslot, hn]
      refine ObjectTree.gc (h.toShape.congr hnode hnodes hnN).detach
        ?_ (hhc.detach hnc) ((h.toVtableOrder.congr hnode hslot).detach hhc hnc) hm
      rw [detach_node, if_pos rfl, hnode]
      exact hlive
    · simp only [ObjBus.slotDisconnect, hc, hn, ht, Bool.not_true, Bool.false_eq_true, if_false]
      refine ObjectTree.gc h.toShape.detach ?_ (h.toHung.detach hn)
        (h.toVtableOrder.detach h.toHung hn) ⟨h.memberKeyed, fun k m => ?_⟩
      · rw [detach_node, if_pos rfl]
        exact hlive
      · rw [declares_detach h.toHung hn, h.declares]
        show _ ↔ ∃ i, { m with lastIteration := i } ∈ b.members k
        refine and_iff_left_of_imp fun hm hps => ?_
        obtain ⟨n', hm', -⟩ := (h.declares k m).mpr hm
        exact ht (hps ▸ ((h.mem_attached n' .vtable _).mp hm').2.1)

def Compatible (b : ObjBus) (interface : Str) (vtable : Vtable) (fallback : Bool) (i : Nat) : Prop :=
  (b.slot i).isFallback = fallback ∧
    ¬ ((b.slot i).interface = interface ∧ (b.slot i).vtable.address = vtable.address)

theorem findExisting_error {p : Str} {vt : Vtable} {fb : Bool} {l : List Nat}
    {ex : Option Nat} {e : Errno} (h : findExisting b p vt fb l ex = .error e) :
    ¬ ∀ i ∈ l, Compatible b p vt fb i := by
  induction l generalizing ex with
  | nil => simp [findExisting] at h
  | cons i l ih =>
    rw [List.forall_mem_cons]
    rintro ⟨⟨hf, hne⟩, hl⟩
    unfold findExisting at h
    rw [if_neg (fun hne => hne hf)] at h
    split at h
    · next hi =>
      rw [if_neg (fun ha => hne ⟨hi, ha⟩)] at h
      exact ih h hl
    · exact ih h hl

theorem findExisting_ok {p : Str} {vt : Vtable} {fb : Bool} {l : List Nat}
    {ex r : Option Nat} (h : findExisting b p vt fb l ex = .ok r) :
    (∀ i ∈ l, Compatible b p vt fb i) ∧
      ((r = ex ∧ ∀ i ∈ l, (b.slot i).interface ≠ p) ∨
        ∃ a, r = some a ∧ a ∈ l ∧ (b.slot a).interface = p) := by
  induction l generalizing ex with
  | nil =>
    obtain rfl : ex = r := by simpa [findExisting] using h
    exact ⟨by simp, .inl ⟨rfl, by simp⟩⟩
  | cons i l ih =>
    unfold findExisting at h
    split at h
    · exact absurd h (by simp)
    · next hf =>
      split at h
      · next hi =>
        split at h
        · exact absurd h (by simp)
        · next ha =>
          obtain ⟨hl, hr⟩ := ih h
          refine ⟨List.forall_mem_cons.mpr ⟨⟨by simpa using hf, fun hia => ha hia.2⟩, hl⟩, .inr ?_⟩
          rcases hr with ⟨rfl, -⟩ | ⟨a, hra, ham, hia⟩
          · exact ⟨i, rfl, List.mem_cons_self, hi⟩
          · exact ⟨a, hra, List.mem_cons_of_mem i ham, hia⟩
      · next hi =>
        obtain ⟨hl, hr⟩ := ih h
        refine ⟨List.forall_mem_cons.mpr ⟨⟨by simpa using hf, fun hia => hi hia.1⟩, hl⟩, ?_⟩
        rcases hr with ⟨hre, hno⟩ | ⟨a, hra, ham, hia⟩
        · exact .inl ⟨hre, List.forall_mem_cons.mpr ⟨hi, hno⟩⟩
        · exact .inr ⟨a, hra, List.mem_cons_of_mem i ham, hia⟩

theorem exists_memberOf {p i : Str} {k : MemberKind} {es : List VtableEntry} (m : VtableMember) :
    (∃ j, ∃ e ∈ es, e.kind = some k ∧ { m with lastIteration := j } = memberOf p i s e) ↔
      m.parent = s ∧ m.path = p ∧ m.interface = i ∧ m.entry ∈ es ∧ m.entry.kind = some k ∧
        m.member = m.entry.member := by
  constructor
  · rintro ⟨j, e, he, hk, hm⟩
    simp only [memberOf, VtableMember.mk.injEq] at hm
    obtain ⟨hp, hi, hmem, hs, rfl, -⟩ := hm
    exact ⟨hs, hp, hi, he, hk, hmem⟩
  · rintro ⟨hs, hp, hi, he, hk, hmem⟩
    exact ⟨0, m.entry, he, hk, by rw [← hs, ← hp, ← hi, memberOf, hmem]⟩

/-- What `addVtableSlot` finds: the node is there and may be bare, and the vtable may be put into
its list at `after`. -/
structure ReadyFor (b : ObjBus) (n : Nat) (p : Str) (y : ObjSlot) (after : Option Nat) : Prop where
  shape : Shape b (some n)
  live : (b.node n).live = true
  path : (b.node n).path = p
  hung : Hung b
  order : VtableOrder b
  tables : MemberTables b
  type : y.type = .vtable
  node : y.node = none
  fallback : ∀ i ∈ b.vtables n, (b.slot i).isFallback = y.isFallback
  place : (after = none ∧ ∀ i ∈ b.vtables n, (b.slot i).interface ≠ y.interface) ∨
    ∃ a, after = some a ∧ a ∈ b.vtables n ∧ (b.slot a).interface = y.interface

section ready
variable {p : Str} {y : ObjSlot} {after : Option Nat} {c : ObjBus} {done : List VtableEntry}

theorem ReadyFor.slot_eq (h : ReadyFor b n p y after) {k i : Nat} (hi : i ∈ b.vtables k) :
    (b.slotAllocate y).slot i = b.slot i := by
  simp only [ObjBus.slotAllocate, setSlot_slot]
  rw [if_neg]
  rintro rfl
  exact h.hung.notMem h.hung.loose_nSlots k _ hi

theorem ReadyFor.attach (h : ReadyFor b n p y after)
    (hp : MembersPut p y.interface b.nSlots y.vtable.entries (b.slotAllocate y) c) :
    ObjectTree (c.attach n b.nSlots after) := by
  have hnode : c.node = b.node := by rw [hp.rest]; rfl
  have hslots : c.slot = (b.slotAllocate y).slot := by rw [hp.rest]
  have hslot : c.slot b.nSlots = { y with connected := true } := by
    rw [hslots, slotAllocate_slot]
  have hs : Shape c (some n) := h.shape.congr hnode (by rw [hp.rest]; rfl) (by rw [hp.rest]; rfl)
  have hh : Hung c := (h.hung.slotAllocate h.node).congr hnode hslots (by rw [hp.rest])
  have ho : VtableOrder c := (h.order.slotAllocate h.hung y).congr hnode hslots
  have hm := h.tables.slotAllocate h.hung y
  refine ⟨hs.attach (by rw [hnode]; exact h.live), hh.attach (by rw [hslot])
    (by rw [hslot]; exact h.node), ho.attach fun _ => ?_, hp.keyed hm.memberKeyed, fun k m => ?_⟩
  · have hv : c.vtables n = b.vtables n := by rw [ObjBus.vtables, hnode]; rfl
    have hsame : ∀ i ∈ b.vtables n, c.slot i = b.slot i := fun i hi => by
      rw [hslots, h.slot_eq hi]
    unfold PlaceFor
    rw [hv, hslot]
    refine ⟨fun i hi => ?_, h.place.imp (And.imp_right fun hno i hi => ?_) ?_⟩
    · rw [hsame i hi]
      exact h.fallback i hi
    · rw [hsame i hi]
      exact hno i hi
    · rintro ⟨a, rfl, ha, hia⟩
      exact ⟨a, rfl, ha, by rw [hsame a ha]; exact hia⟩
  · show _ ↔ ∃ i, { m with lastIteration := i } ∈ c.members k
    simp only [hp.mem, exists_or]
    rw [declares_attach, hslot, hnode, h.path, declares_congr (b := b.slotAllocate y) hnode hslots,
      hm.declares, exists_memberOf]
    refine or_congr_right ?_
    simp only [h.type, true_and]

theorem ReadyFor.fail (h : ReadyFor b n p y after)
    (hp : MembersPut p y.interface b.nSlots done (b.slotAllocate y) c) :
    ObjectTree ((c.slotDisconnect b.nSlots).gc n) ↔
      ∀ k m, m ∈ c.members k ↔ m ∈ b.members k := by
  have hnode : c.node = b.node := by rw [hp.rest]; rfl
  have hslots : c.slot = (b.slotAllocate y).slot := by rw [hp.rest]
  have hslot : c.slot b.nSlots = { y with connected := true } := by
    rw [hslots, slotAllocate_slot]
  have hs : Shape c (some n) := h.shape.congr hnode (by rw [hp.rest]; rfl) (by rw [hp.rest]; rfl)
  have hh : Hung c := (h.hung.slotAllocate h.node).congr hnode hslots (by rw [hp.rest])
  have ho : VtableOrder c := (h.order.slotAllocate h.hung y).congr hnode hslots
  have hm := h.tables.slotAllocate h.hung y
  have hloose : (c.slot b.nSlots).Loose := .inl (by rw [hslot]; exact h.node)
  have hd : c.slotDisconnect b.nSlots =
      c.setSlot b.nSlots { y with connected := false, interface := [] } := by
    simp only [ObjBus.slotDisconnect, hslot, h.node, Bool.not_true, Bool.false_eq_true, if_false]
  rw [hd]
  have hs' : Shape (c.setSlot b.nSlots { y with connected := false, interface := [] }) (some n) :=
    hs.congr rfl rfl rfl
  have hh' := hh.setLoose (y := { y with connected := false, interface := [] }) hloose (.inr rfl)
    (fun hf => absurd hf (by simp))
  obtain ⟨-, ha⟩ := busNodeGc_shape _ hs' (by rw [setSlot_node, hnode]; exact h.live) le_rfl
  constructor
  · -- The slot is gone, so a member of it would belong to no vtable.
    intro ht k m
    refine (hp.mem k m).trans (or_iff_left ?_)
    rintro ⟨e, he, hk, rfl⟩
    have hmem : memberOf p y.interface b.nSlots e ∈
        ((c.setSlot b.nSlots { y with connected := false, interface := [] }).gc n).members k := by
      rw [ObjBus.gc, ha.members]
      exact (hp.mem k _).mpr (.inr ⟨e, he, hk, rfl⟩)
    obtain ⟨n', hn', -⟩ := (ht.declares k (memberOf p y.interface b.nSlots e)).mpr ⟨0, hmem⟩
    have hcon := ((ht.mem_attached n' .vtable _).mp hn').1
    rw [ObjBus.gc, ha.slot, setSlot_slot] at hcon
    simp [memberOf] at hcon
  · intro hsame
    refine .gc hs' (by rw [setSlot_node, hnode]; exact h.live) hh' (ho.setLoose hh hloose) ?_
    have hmc : MemberTables c := by
      refine ⟨hp.keyed hm.memberKeyed, fun k m => ?_⟩
      simp only [hsame]
      rw [declares_congr (b := b.slotAllocate y) hnode hslots, hm.declares]
      rfl
    exact hmc.setLoose hh hloose

theorem ReadyFor.addVtableSlot (h : ReadyFor b n p y after) :
    ObjectTree (addVtableSlot b n p y after).1 ↔
      EntriesClean p y.interface b y.vtable.entries := by
  have hput : EntriesPut p y.interface b.nSlots y.vtable.entries (b.slotAllocate y)
      (putMembers p y.interface b.nSlots y.vtable.entries (b.slotAllocate y)) :=
    putMembers_spec _ _
  have hclean : EntriesClean p y.interface b y.vtable.entries ↔ _ := hput.clean_iff
  obtain ⟨done, rest, hes, -, hp, hr⟩ := hput
  simp only [Basu.addVtableSlot]
  generalize putMembers p y.interface b.nSlots y.vtable.entries (b.slotAllocate y) = r at *
  obtain ⟨c, _ | e⟩ := r
  · obtain rfl : rest = [] := by simpa using hr
    rw [List.append_nil] at hes
    exact iff_of_true (h.attach (hes ▸ hp)) (hclean.mpr (.inl rfl))
  · rw [hclean]
    exact (h.fail hp).trans (or_iff_right (by simp)).symm

end ready

/-- Every entry of the vtable is accepted, or the first one that is turned away stands before every
method and property; a call that fails before it comes to the entries meets this too. -/
def VtableClean (b : ObjBus) (path interface : Str) (vtable : Vtable) (fallback : Bool) : Prop :=
  objectPathIsValid path = true → interfaceNameIsValid interface = true →
    vtable.hasStart = true → interface ∉ reservedInterfaces →
    (∀ n, b.getNode path = some n → ∀ i ∈ b.vtables n,
      Compatible b interface vtable fallback i) →
    EntriesClean path interface b vtable.entries

def entriesFree (b : ObjBus) (path interface : Str) (es : List VtableEntry) : Bool :=
  es.all (fun e => e.isValid && match e.kind with
    | none => true
    | some k => (b.members k).all fun m => m.key ≠ (path, interface, e.member)) &&
  decide (es.map fun e => (e.kind, e.member)).Nodup

theorem vtableClean_of_free {b : ObjBus} {path interface : Str} {vtable : Vtable} {fallback : Bool}
    (h : entriesFree b path interface vtable.entries = true) :
    VtableClean b path interface vtable fallback := by
  obtain ⟨hall, hnodup⟩ := Bool.and_eq_true_iff.mp h
  intro _ _ _ _ _
  refine Or.inl fun pre e post he hr => ?_
  rw [he] at hall hnodup
  simp only [List.all_append, List.all_cons, Bool.and_eq_true] at hall
  obtain ⟨-, ⟨hv, hfree⟩, -⟩ := hall
  rcases hr with hr | ⟨k, hk, ⟨m, hm, hkey⟩ | ⟨x, hx, hxk, hxm⟩⟩
  · exact absurd (hv.symm.trans hr) nofun
  · simp only [hk, List.all_eq_true, decide_eq_true_eq] at hfree
    exact hfree m hm hkey
  · have hnd := of_decide_eq_true hnodup
    rw [List.map_append, List.nodup_append] at hnd
    refine hnd.2.2 _ (List.mem_map_of_mem hx) _ List.mem_cons_self ?_
    simp only [hxk, hk, hxm]

theorem SameAttached.compatible_iff {c : ObjBus} {p i : Str} {v : Vtable} {f : Bool}
    (ha : SameAttached b c) (h : Shape b none) (hs : Shape c (some n))
    (hl : (c.node n).live = true) (hpath : (c.node n).path = p) :
    (∀ n, b.getNode p = some n → ∀ j ∈ b.vtables n, Compatible b i v f j) ↔
      ∀ j ∈ c.vtables n, Compatible c i v f j := by
  have hne : ∀ {k j : Nat}, j ∈ b.vtables k → (b.node k).attached ≠ fun _ => [] := by
    intro k j hj he
    rw [ObjBus.vtables, he] at hj
    exact List.not_mem_nil hj
  simp only [Compatible, ha.slot, ha.vtables]
  constructor
  · intro hall j hj
    have hl' := h.live_of_mem hj
    exact hall n (h.getNode.mpr ⟨hl', (ha.path n hl' (hne hj)).1.symm.trans hpath⟩) j hj
  · intro hall n' hn' j hj
    obtain ⟨hl', hp'⟩ := h.getNode.mp hn'
    obtain ⟨hpc, hlc⟩ := ha.path n' hl' (hne hj)
    have he := hs.getNode.mpr ⟨hlc, hpc.trans hp'⟩
    rw [hs.getNode.mpr ⟨hl, hpath⟩] at he
    exact hall j (Option.some.inj he ▸ hj)

theorem ObjectTree.addObjectVtableInternal (h : ObjectTree b) (p i : Str) (vt : Vtable)
    (fb : Bool) (find : Option Nat) :
    ObjectTree (addObjectVtableInternal b p i vt fb find).1 ↔ VtableClean b p i vt fb := by
  unfold Basu.addObjectVtableInternal VtableClean
  split
  · next hv => exact iff_of_true h (fun hp => absurd hp (by simpa using hv))
  next hp =>
  split
  · next hv => exact iff_of_true h (fun _ hi => absurd hi (by simpa using hv))
  split
  · next hv => exact iff_of_true h (fun _ _ hs => absurd hs (by simpa using hv))
  split
  · next hv => exact iff_of_true h (fun _ _ _ hr => absurd hv hr)
  next hi hs hr =>
  obtain ⟨hsh, ha, hl, hpath⟩ := busNodeAllocate_shape p.length h.toShape
    (objectPathIsValid_cons (by simpa using hp)) le_rfl
  have hh := ha.hung h.toHung
  have ho := ha.vtableOrder h.toVtableOrder
  have hm := ha.memberTables h.toShape h.toMemberTables
  simp only [Bool.not_eq_true', Bool.not_eq_false] at hp hi hs
  simp only [hp, hi, hs, hr, not_false_eq_true, forall_const]
  generalize busNodeAllocate p.length b p = r at *
  obtain ⟨c, n⟩ := r
  dsimp only at hsh ha hl hpath hh ho hm ⊢
  have hcompat := ha.compatible_iff (i := i) (v := vt) (f := fb) h.toShape hsh hl hpath
  rw [hcompat]
  have hclean : EntriesClean p i b vt.entries ↔ EntriesClean p i c vt.entries := by
    simp only [EntriesClean, EntryRefused, ha.members]
  rw [hclean]
  rcases hf : findExisting c i vt fb (c.vtables n) none with e | ex
  · exact iff_of_true (.gc hsh hl hh ho hm) (fun hall => absurd hall (findExisting_error hf))
  · obtain ⟨hall, hex⟩ := findExisting_ok hf
    rw [ReadyFor.addVtableSlot (b := c)
      ⟨hsh, hl, hpath, hh, ho, hm, rfl, rfl, fun j hj => (hall j hj).1, hex⟩]
    exact ⟨fun hc _ => hc, fun hc => hc hall⟩

end steps

def ObjectOp.LeavesNothing (b : ObjBus) : ObjectOp → Prop
  | .addObjectVtable path interface vtable => VtableClean b path interface vtable false
  | .addFallbackVtable path interface vtable _ => VtableClean b path interface vtable true
  | _ => True

theorem ObjectTree.exec {b : ObjBus} (h : ObjectTree b) (op : ObjectOp) :
    ObjectTree (op.exec b) ↔ op.LeavesNothing b := by
  cases op with
  | addObject p callback =>
    rcases callback with _ | f
    · exact iff_of_true h trivial
    · exact iff_of_true (h.addNodeSlot p rfl (by simp)) trivial
  | addFallback p callback =>
    rcases callback with _ | f
    · exact iff_of_true h trivial
    · exact iff_of_true (h.addNodeSlot p rfl (by simp)) trivial
  | addObjectVtable p i vt => exact h.addObjectVtableInternal p i vt false none
  | addFallbackVtable p i vt find => exact h.addObjectVtableInternal p i vt true find
  | addNodeEnumerator p callback =>
    rcases callback with _ | f
    · exact iff_of_true h trivial
    · exact iff_of_true (h.addNodeSlot p rfl (by simp)) trivial
  | addObjectManager p => exact iff_of_true (h.addNodeSlot p rfl (by simp)) trivial
  | slotDisconnect s => exact iff_of_true (h.slotDisconnect s) trivial

theorem objectTree_nil : ObjectTree {} := by
  refine ⟨⟨?_, ?_, ?_, ?_, ?_, ?_, ?_, ?_, ?_, ?_⟩, ⟨?_, ?_, ?_⟩, ⟨?_, ?_⟩, ⟨?_, ?_⟩⟩
  all_goals simp [Table.Keyed, ObjBus.vtables, grouped_nil, ObjBus.Declares]

theorem objectRun_append (ops : List ObjectOp) (op : ObjectOp) :
    objectRun (ops ++ [op]) = op.exec (objectRun ops) := by
  simp only [objectRun, List.foldl_append, List.foldl_cons, List.foldl_nil]

/-- The object tree stays one through a run exactly if no call of the run fails at an entry of a
vtable behind a method or a property. -/
theorem objectRun_tree (ops : List ObjectOp) : (∀ pre, pre <+: ops → ObjectTree (objectRun pre)) ↔
    ∀ pre op post, ops = pre ++ op :: post → op.LeavesNothing (objectRun pre) := by
  constructor
  · rintro h pre op post rfl
    have hop : ObjectTree (objectRun (pre ++ [op])) := h _ ⟨post, by simp⟩
    rw [objectRun_append] at hop
    exact ((h pre ⟨op :: post, rfl⟩).exec op).mp hop
  · intro h pre
    induction pre using List.reverseRecOn with
    | nil => exact fun _ => objectTree_nil
    | append_singleton pre op ih =>
      rintro ⟨post, hpost⟩
      have hsplit : ops = pre ++ op :: post := by rw [← hpost]; simp
      rw [objectRun_append]
      exact ((ih ⟨op :: post, hsplit.symm⟩).exec op).mpr (h pre op post hsplit)

def secondVtableRefused : List ObjectOp :=
  [.addObjectVtable [47, 97] [97, 46, 98]
      { address := 0, entries := [.method 0 [77] [] [] (some 0)] },
    .addObjectVtable [47, 97] [97, 46, 98]
      { address := 1, entries := [.method 0 [78] [] [] (some 1), .method 0 [77] [] [] (some 1)] }]

/-- The method `N` of the refused vtable stays in the table. -/
theorem not_objectTree_secondVtableRefused : ¬ ObjectTree (objectRun secondVtableRefused) := by
  intro h
  have hm : memberOf [47, 97] [97, 46, 98] 1 (.method 0 [78] [] [] (some 1)) ∈
      (objectRun secondVtableRefused).members .method := by decide +kernel
  obtain ⟨n, hn, -⟩ :=
    (h.declares .method (memberOf [47, 97] [97, 46, 98] 1 (.method 0 [78] [] [] (some 1)))).mpr
      ⟨0, hm⟩
  have hc := ((h.mem_attached n .vtable 1).mp hn).1
  exact absurd hc (by decide +kernel)

end Basu
