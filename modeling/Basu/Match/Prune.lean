import Basu.Match.Grow

/-! Removing a rule from the match tree. A node goes with the last node below it, and the loop that
prunes the tree stops where something is left. What was made for the rule added last goes with
it. -/

namespace Basu
open Lib
open Function

namespace MatchTree

variable {T T' T₀ : MatchTree} {w : Option Nat} {p i : Nat} {pn n : MatchNode}
  {c : MatchComponent}

def unlink (pn n : MatchNode) (i : Nat) : MatchNode :=
  { pn with payload := pn.payload.without n.payload, child := pn.child.erase i }

theorem without_of_table {p q : MatchPayload} (h : ∀ t table, p ≠ .compare t (some table)) :
    p.without q = p := by
  unfold MatchPayload.without
  split
  · rename_i t table _ _
    exact absurd rfl (h t table)
  · rfl

theorem without_kind (p q : MatchPayload) : (p.without q).kind = p.kind := by
  unfold MatchPayload.without
  split
  · split <;> rfl
  · rfl

theorem without_table (p q : MatchPayload) : ∀ e ∈ (p.without q).table, e ∈ p.table := by
  intro e he
  unfold MatchPayload.without at he
  split at he
  · split at he
    · exact (Table.mem_remove.mp he).1
    · exact he
  · exact he

theorem Shape.unlink_members (h : Shape w T) (hi : T.node i = some n) (hn : n.parent = some p)
    (hp : T.node p = some pn) : (i :: (unlink pn n i).members).Perm pn.members := by
  have hmem : i ∈ pn.members := by
    obtain ⟨-, pn', hpn', hmem⟩ := h.linked.up hi hn
    rw [Option.some.inj (hp.symm.trans hpn')]
    exact hmem
  have hfits := h.fits hp hi hn
  have hlisted : (∀ t table, pn.payload ≠ .compare t (some table)) → pn.payload.table = [] →
      (i :: (unlink pn n i).members).Perm pn.members := by
    intro hpay htable
    rw [members_of_table htable] at hmem ⊢
    rw [members_of_table (by rw [unlink, without_of_table hpay]; exact htable)]
    exact (List.perm_cons_erase hmem).symm
  cases hpay : pn.payload with
  | compare t children =>
    cases children with
    | none => exact hlisted (by simp [hpay]) (by rw [hpay]; rfl)
    | some table =>
      have hsound := h.compare hp hpay
      have hchild := hsound.unlisted rfl
      rw [hpay] at hfits
      cases hval : n.payload with
      | value u8 str =>
        rw [hval] at hfits
        have hcond : t = .messageType ∨ busMatchCanHash t = true ∧ str.isSome = true := by
          rw [MatchPayload.holds, Bool.or_eq_true, decide_eq_true_iff] at hfits
          exact hfits.imp_right fun hs => ⟨hsound.hashed.symm, hs⟩
        have hkey : T.keyOf t i = some (matchKey t u8 str) := by
          rw [keyOf, hi, Option.bind_some, hval]
          rfl
        have htable : pn.payload.table = table := by rw [hpay]; rfl
        have hunlink : (unlink pn n i).members =
            (Table.remove Prod.fst table (matchKey t u8 str)).map Prod.snd := by
          rw [unlink, hchild, hpay, hval, MatchPayload.without, if_pos hcond]
          rfl
        rw [hunlink, members_of_child hchild, htable]
        rw [members_of_child hchild, htable] at hmem
        obtain ⟨e, he, rfl⟩ := List.mem_map.mp hmem
        have hentry : e.1 = matchKey t u8 str := by
          have hold := hsound.entries e (htable ▸ he)
          exact Option.some.inj (hold.symm.trans hkey)
        have hkeyed : Table.Keyed Prod.fst table := htable ▸ hsound.keyed (h.linked.nodup hp)
        rw [← hentry]
        exact (hkeyed.perm_remove he).map Prod.snd
      | _ =>
        rw [hval] at hfits
        exact absurd hfits (by simp [MatchPayload.holds])
  | _ => exact hlisted (by simp [hpay]) (by rw [hpay]; rfl)

theorem Shape.busMatchNodeFree (h : Shape w T) (hw : w = none ∨ w = some i)
    (hi : T.node i = some n) (hroot : n.payload ≠ .root) (hempty : n.members = []) :
    ∃ p pn, n.parent = some p ∧ T.node p = some pn ∧
      T.busMatchNodeFree i = some (T.dropNode i p (unlink pn n i)) ∧
      Shape (some p) (T.dropNode i p (unlink pn n i)) := by
  obtain ⟨p, hn⟩ := Option.ne_none_iff_exists'.mp (mt (h.root hi).mpr hroot)
  obtain ⟨-, pn, hp, hmem⟩ := h.linked.up hi hn
  obtain ⟨hchild, htable⟩ := List.append_eq_nil_iff.mp hempty
  have htable := List.map_eq_nil_iff.mp htable
  refine ⟨p, pn, hn, hp, ?_, ?_⟩
  · unfold MatchTree.busMatchNodeFree
    have hlisted : ¬(pn.child ≠ [] ∧ i ∉ pn.child) := by
      rintro ⟨hne, hnot⟩
      -- a table would mean an empty list
      have hintable := (List.mem_append.mp hmem).resolve_left hnot
      cases hpay : pn.payload with
      | compare t children =>
        cases children with
        | none =>
          rw [hpay] at hintable
          exact absurd hintable (by simp [MatchPayload.table])
        | some table => exact hne ((h.compare hp hpay).unlisted rfl)
      | _ =>
        rw [hpay] at hintable
        exact absurd hintable (by simp [MatchPayload.table])
    simp only [hi, hn, hp, hchild, hroot, ne_eq, not_true_eq_false, or_self, if_false,
      if_neg hlisted, htable]
    rfl
  · refine h.dropNode hw hi hn hempty hp rfl (without_kind _ _) (h.unlink_members hi hn hp) ?_
      (without_table _ _)
    intro hnil
    rw [unlink, hnil]
    rfl

theorem Shape.setMatchNode (h : Shape w T) (m : Nat → Option Nat) :
    Shape w { T with matchNode := m } :=
  ⟨h.linked, h.root, h.fits, h.order, fun hi hn => (h.compare hi hn).congr fun _ _ => rfl,
    h.nonempty⟩

theorem Leaves.dropNode {pn' : MatchNode} (h : Leaves T) (hi : T.node i = some n)
    (hleaf : ∀ cb, n.payload ≠ .leaf cb) (hp : T.node p = some pn)
    (hparent : pn'.parent = pn.parent) (hkind : pn'.payload.kind = pn.payload.kind) :
    Leaves (T.dropNode i p pn') := by
  constructor
  · intro j m cb hj hm
    obtain ⟨-, m', hm', -, hkind', -⟩ := dropNode_cases hp hparent hkind hj
    exact h.leaf hm' ((MatchPayload.leaf_congr hkind' cb).mp hm)
  · intro cb j hcb
    obtain ⟨m, hm, hleaf'⟩ := h.callback hcb
    have hji : j ≠ i := by
      rintro rfl
      obtain rfl := Option.some.inj (hi.symm.trans hm)
      exact hleaf cb hleaf'
    by_cases hjp : j = p
    · subst hjp
      obtain rfl := Option.some.inj (hp.symm.trans hm)
      exact ⟨pn', detach_parent hji, (MatchPayload.leaf_congr hkind cb).mpr hleaf'⟩
    · exact ⟨m, (detach_other hji hjp).trans hm, hleaf'⟩

theorem Leaves.dropLeaf {pn' : MatchNode} {cb : Nat} (h : Leaves T) (hcb : T.matchNode cb = some i)
    (hp : T.node p = some pn) (hparent : pn'.parent = pn.parent)
    (hkind : pn'.payload.kind = pn.payload.kind) :
    Leaves { T.dropNode i p pn' with matchNode := update T.matchNode cb none } := by
  constructor
  · intro j m cb' hj hm
    dsimp only
    obtain ⟨hji, m', hm', -, hkind', -⟩ := dropNode_cases hp hparent hkind hj
    have hcb' := h.leaf hm' ((MatchPayload.leaf_congr hkind' cb').mp hm)
    rw [update_of_ne]
    · exact hcb'
    · rintro rfl
      exact hji (Option.some.inj (hcb'.symm.trans hcb))
  · intro cb' j hcb'
    dsimp only at hcb' ⊢
    by_cases he : cb' = cb
    · subst he
      rw [update_self] at hcb'
      exact absurd hcb' (by simp)
    · rw [update_of_ne he] at hcb'
      obtain ⟨m, hm, hleaf'⟩ := h.callback hcb'
      have hji : j ≠ i := by
        rintro rfl
        obtain ⟨m', hm', hleaf⟩ := h.callback hcb
        obtain rfl := Option.some.inj (hm.symm.trans hm')
        exact he (MatchPayload.leaf.inj (hleaf'.symm.trans hleaf))
      by_cases hjp : j = p
      · subst hjp
        obtain rfl := Option.some.inj (hp.symm.trans hm)
        exact ⟨pn', detach_parent hji, (MatchPayload.leaf_congr hkind cb').mpr hleaf'⟩
      · exact ⟨m, (detach_other hji hjp).trans hm, hleaf'⟩

theorem busMatchNodeMaybeFree_cases (hi : T.node i = some n) :
    (n.payload = .root ∨ n.child ≠ []) ∧ T.busMatchNodeMaybeFree i = some (false, T) ∨
    n.payload ≠ .root ∧ n.members ≠ [] ∧ T.busMatchNodeMaybeFree i = some (true, T) ∨
    n.payload ≠ .root ∧ n.members = [] ∧
      T.busMatchNodeMaybeFree i = (T.busMatchNodeFree i).map fun T => (true, T) := by
  unfold busMatchNodeMaybeFree
  simp only [hi]
  split
  · rename_i hroot
    exact Or.inl ⟨Or.inl hroot, rfl⟩
  · rename_i hroot
    split
    · rename_i hchild
      exact Or.inl ⟨Or.inr hchild, rfl⟩
    · rename_i hchild
      have hchild := not_ne_iff.mp hchild
      rw [members_of_child hchild]
      split
      · rename_i htable
        exact Or.inr (Or.inl ⟨hroot, mt List.map_eq_nil_iff.mp htable, rfl⟩)
      · rename_i htable
        exact Or.inr (Or.inr ⟨hroot, by rw [not_ne_iff.mp htable]; rfl, rfl⟩)

theorem prune_step {fuel : Nat} (hi : T.node i = some n)
    (h : T.busMatchNodeMaybeFree i = some (true, T')) :
    prune (fuel + 1) (some i) T = prune fuel n.parent T' := by
  simp only [prune, hi, h]

theorem prune_stop {fuel : Nat} (hi : T.node i = some n)
    (h : T.busMatchNodeMaybeFree i = some (false, T)) : prune (fuel + 1) (some i) T = some T := by
  simp only [prune, hi, h]

theorem Shape.parent_not_leaf (h : Shape w T) (hi : T.node i = some n) (hn : n.parent = some p)
    (hp : T.node p = some pn) (cb : Nat) : pn.payload ≠ .leaf cb := by
  intro hleaf
  have hfits := h.fits hp hi hn
  rw [hleaf] at hfits
  exact absurd hfits (by simp [MatchPayload.holds])

theorem prune_shape (fuel : Nat) : ∀ {T : MatchTree} {w : Option Nat} {i : Nat} {n : MatchNode},
    i < fuel → Shape w T → (w = none ∨ w = some i) → Leaves T → T.node i = some n →
    (∀ cb, n.payload ≠ .leaf cb) →
      ∃ T', prune fuel (some i) T = some T' ∧ Shape none T' ∧ Leaves T' ∧
        T'.matchNode = T.matchNode := by
  induction fuel with
  | zero => exact fun hlt => absurd hlt (Nat.not_lt_zero _)
  | succ fuel ih =>
    intro T w i n hlt h hw hleaves hi hleaf
    have hclose : (n.payload = .root ∨ n.members ≠ []) → Shape none T := by
      intro hn
      have h' : Shape (some i) T := by
        rcases hw with rfl | rfl
        · exact h.weaken _
        · exact h
      refine h'.close (fun hi' hneeds => ?_) none
      obtain rfl := Option.some.inj (hi.symm.trans hi')
      refine hn.resolve_left fun hroot => ?_
      rw [hroot] at hneeds
      exact absurd hneeds (by simp [MatchPayload.needsMembers])
    rcases busMatchNodeMaybeFree_cases hi with ⟨hn, hfree⟩ | ⟨hroot, hne, hfree⟩ |
      ⟨hroot, hempty, hfree⟩
    · refine ⟨T, prune_stop hi hfree, hclose (hn.imp_right fun hc hnil => ?_), hleaves, rfl⟩
      exact hc (List.append_eq_nil_iff.mp hnil).1
    · obtain ⟨p, hn⟩ := Option.ne_none_iff_exists'.mp (mt (h.root hi).mpr hroot)
      obtain ⟨hpi, pn, hp, -⟩ := h.linked.up hi hn
      rw [prune_step hi hfree, hn]
      exact ih (by omega) (hclose (Or.inr hne)) (Or.inl rfl) hleaves hp
        (h.parent_not_leaf hi hn hp)
    · obtain ⟨p, pn, hn, hp, hfreed, hshape⟩ := h.busMatchNodeFree hw hi hroot hempty
      have hpi := (h.linked.up hi hn).1
      have hkind := without_kind pn.payload n.payload
      rw [hfreed] at hfree
      rw [prune_step hi hfree, hn]
      refine ih (n := unlink pn n i) (by omega) hshape (Or.inr rfl)
        (hleaves.dropNode hi hleaf hp rfl hkind) (detach_parent (ne_of_lt hpi)) ?_
      exact fun cb he => h.parent_not_leaf hi hn hp cb
        ((MatchPayload.leaf_congr (without_kind pn.payload n.payload) cb).mp he)

theorem Shape.busMatchRemove (h : Shape none T) (hleaves : Leaves T) (cb : Nat) :
    ∃ T', T.busMatchRemove cb = some T' ∧ Shape none T' ∧ Leaves T' ∧
      T'.matchNode = update T.matchNode cb none := by
  unfold MatchTree.busMatchRemove
  cases hcb : T.matchNode cb with
  | none => exact ⟨T, rfl, h, hleaves, by rw [← hcb, update_eq_self]⟩
  | some i =>
    obtain ⟨n, hi, hleaf⟩ := hleaves.callback hcb
    have h' := h.setMatchNode (update T.matchNode cb none)
    obtain ⟨p, pn, hn, hp, hfreed, hshape⟩ := h'.busMatchNodeFree (Or.inl rfl) hi
      (by rw [hleaf]; simp) (h.leaf_members hi hleaf)
    have hpi := (h.linked.up hi hn).1
    have hkind := without_kind pn.payload n.payload
    obtain ⟨T', hT', hshape', hleaves', hmatch⟩ := prune_shape i (n := unlink pn n i) hpi hshape
      (Or.inr rfl) (hleaves.dropLeaf hcb hp (rfl : (unlink pn n i).parent = pn.parent) hkind)
      (detach_parent (ne_of_lt hpi)) fun cb' he => h.parent_not_leaf hi hn hp cb'
        ((MatchPayload.leaf_congr hkind cb').mp he)
    refine ⟨T', ?_, hshape', hleaves', hmatch⟩
    obtain ⟨payload, parent, child⟩ := n
    simp only at hleaf hn
    subst hleaf hn
    simp only [hi, hfreed, Option.bind_some, hT']

def Undoes (T₀ T : MatchTree) (i : Nat) : Prop :=
  ∀ U : MatchTree, U.node = T.node → ∀ fuel, i < fuel →
    ∃ U', prune fuel (some i) U = some U' ∧ U'.node = T₀.node ∧ U'.matchNode = U.matchNode

theorem maybeFree_stop (hi : T.node i = some n) (hn : n.payload = .root ∨ n.child ≠ []) :
    T.busMatchNodeMaybeFree i = some (false, T) := by
  rcases busMatchNodeMaybeFree_cases hi with ⟨-, hfree⟩ | ⟨hroot, hne, hfree⟩ |
    ⟨hroot, hempty, -⟩
  · exact hfree
  · unfold busMatchNodeMaybeFree
    simp only [hi, hroot, if_false]
    rw [if_pos (hn.resolve_left hroot)]
  · exact absurd (List.append_eq_nil_iff.mp hempty).1 (hn.resolve_left hroot)

theorem Undoes.stop (hi : T.node i = some n) (hn : n.payload = .root ∨ n.child ≠ [])
    (hT : T.node = T₀.node) : Undoes T₀ T i := by
  intro U hU fuel hlt
  obtain ⟨fuel, rfl⟩ := Nat.exists_eq_succ_of_ne_zero (Nat.ne_zero_of_lt hlt)
  have hi' : U.node i = some n := by rw [hU, hi]
  exact ⟨U, prune_stop hi' (maybeFree_stop hi' hn), hU.trans hT, rfl⟩

theorem Undoes.eq (h : Undoes T₀ T i) (hi : T.node i = some n)
    (hn : n.payload = .root ∨ n.child ≠ []) : T.node = T₀.node := by
  obtain ⟨U', hU', hnode, -⟩ := h T rfl (i + 1) (Nat.lt_succ_self i)
  rw [prune_stop hi (maybeFree_stop hi hn)] at hU'
  rw [← Option.some.inj hU'] at hnode
  exact hnode

theorem Undoes.below (h : Undoes T₀ T p) (hp : T.node p = some pn) (hchild : pn.child ≠ [])
    (hi : T.node i = some n) (hn : n.parent = some p) (hpi : p < i) (hne : n.members ≠ []) :
    Undoes T₀ T i := by
  intro U hU fuel hlt
  obtain ⟨fuel, rfl⟩ := Nat.exists_eq_succ_of_ne_zero (Nat.ne_zero_of_lt hlt)
  have hi' : U.node i = some n := by rw [hU, hi]
  rcases busMatchNodeMaybeFree_cases hi' with ⟨-, hfree⟩ | ⟨-, -, hfree⟩ | ⟨-, hempty, -⟩
  · exact ⟨U, prune_stop hi' hfree, hU.trans (h.eq hp (Or.inr hchild)), rfl⟩
  · rw [prune_step hi' hfree, hn]
    exact h U hU fuel (by omega)
  · exact absurd hempty hne

theorem busMatchNodeFree_newNode {pn' : MatchNode} {payload : MatchPayload}
    (hp : T.node p = some pn) (hunused : T.node T.fresh = none) (hlt : p < T.fresh)
    (hroot : payload ≠ .root) (htable : payload.table = [])
    (hin : pn'.child = [] ∨ T.fresh ∈ pn'.child)
    (hunlink : unlink pn' { payload := payload, parent := some p } T.fresh = pn) {U : MatchTree}
    (hU : U.node = (T.newNode p pn' payload).node) :
    ∃ U', U.busMatchNodeFree T.fresh = some U' ∧ U'.node = T.node ∧
      U'.matchNode = U.matchNode := by
  have hi : U.node T.fresh = some { payload := payload, parent := some p } := by
    rw [hU, newNode_fresh]
  have hp' : U.node p = some pn' := by rw [hU, newNode_parent (ne_of_lt hlt)]
  have hin' : ¬(pn'.child ≠ [] ∧ T.fresh ∉ pn'.child) := fun hnot =>
    hin.elim hnot.1 hnot.2
  refine ⟨U.dropNode T.fresh p pn, ?_, ?_, rfl⟩
  · unfold MatchTree.busMatchNodeFree
    simp only [hi, hp', hroot, ne_eq, not_true_eq_false, or_self, if_false, htable]
    rw [if_neg hin', ← hunlink]
    rfl
  · simp only [MatchTree.dropNode, hU]
    exact detach_attach hp hunused

theorem Undoes.newNode {pn' : MatchNode} {payload : MatchPayload} (h : Undoes T₀ T p)
    (hp : T.node p = some pn) (hunused : T.node T.fresh = none) (hlt : p < T.fresh)
    (hroot : payload ≠ .root) (htable : payload.table = [])
    (hin : pn'.child = [] ∨ T.fresh ∈ pn'.child)
    (hunlink : unlink pn' { payload := payload, parent := some p } T.fresh = pn) :
    Undoes T₀ (T.newNode p pn' payload) T.fresh := by
  intro U hU fuel hfuel
  obtain ⟨fuel, rfl⟩ := Nat.exists_eq_succ_of_ne_zero (Nat.ne_zero_of_lt hfuel)
  obtain ⟨U', hfreed, hnode, hmatch⟩ :=
    busMatchNodeFree_newNode hp hunused hlt hroot htable hin hunlink hU
  have hi : U.node T.fresh = some { payload := payload, parent := some p } := by
    rw [hU, newNode_fresh]
  have hempty : MatchNode.members { payload := payload, parent := some p } = [] := by
    rw [MatchNode.members, htable]
    rfl
  rcases busMatchNodeMaybeFree_cases hi with ⟨hstop, -⟩ | ⟨-, hne, -⟩ | ⟨-, -, hfree⟩
  · exact absurd hstop (not_or.mpr ⟨hroot, fun hne => hne rfl⟩)
  · exact absurd hempty hne
  · rw [hfreed] at hfree
    rw [prune_step hi hfree]
    obtain ⟨U'', hU'', hnode', hmatch'⟩ := h U' hnode fuel (by omega)
    exact ⟨U'', hU'', hnode', hmatch'.trans hmatch⟩

theorem unlink_linkValue {children : Option (List (MatchKey × Nat))} (hp : T.node p = some n)
    (hn : n.payload = .compare c.type children) (h : T.CompareSound n c.type children)
    (hstr : c.type = .messageType ∨ c.valueStr.isSome = true)
    (hnew : ∀ j ∈ n.members, T.keyOf c.type j ≠ some c.key) :
    unlink (T.linkValue n c) { payload := .value c.valueU8 c.valueStr, parent := some p }
      T.fresh = n := by
  obtain ⟨payload, parent, child⟩ := n
  simp only at hn
  subst hn
  cases children with
  | none =>
    unfold linkValue unlink
    simp only [MatchPayload.without, List.erase_cons_head]
  | some table =>
    have hcond : c.type = .messageType ∨
        busMatchCanHash c.type = true ∧ c.valueStr.isSome = true :=
      hstr.imp_right fun hs => ⟨h.hashed.symm, hs⟩
    have hremove : Table.remove Prod.fst ((c.key, T.fresh) :: table) c.key = table := by
      rw [Table.remove, List.filter_cons_of_neg (by simp), List.filter_eq_self]
      intro e he
      refine decide_eq_true fun hkey => ?_
      refine hnew e.2 (List.mem_append_right _ (List.mem_map_of_mem he)) ?_
      rw [h.entries e he, hkey]
    have hchild : child = [] := h.unlisted rfl
    unfold linkValue unlink
    simp only [MatchPayload.without, if_pos hcond, hchild, List.erase_nil]
    rw [← MatchComponent.key, hremove]

theorem unlink_linkChild (hinner : n.payload.isInner = true) (m : MatchNode) :
    unlink { n with child := T.fresh :: n.child } m T.fresh = n := by
  unfold unlink
  rw [without_of_table fun t table => not_compare_of_inner hinner t _, List.erase_cons_head]

end MatchTree

end Basu
