import Basu.Match.Prune
import Basu.Match.Rule

/-! The match tree over any sequence of rules added and removed. -/

namespace Basu
open Lib
open Function

/-- The components of a rule as the parser leaves them: sorted, one of a type, and with a string
unless they are message types. -/
def IsRule (components : List MatchComponent) : Prop :=
  components.Pairwise (fun a b => a.type.code < b.type.code) ∧
    ∀ c ∈ components, c.type = .messageType ∨ c.valueStr.isSome = true

instance : DecidablePred IsRule := fun components =>
  inferInstanceAs (Decidable (components.Pairwise (fun a b => a.type.code < b.type.code) ∧
    ∀ c ∈ components, c.type = .messageType ∨ c.valueStr.isSome = true))

namespace MatchTree

variable {T : MatchTree} {w : Option Nat} {p i : Nat} {pn n : MatchNode} {c : MatchComponent}

theorem linkValue_listed {children : Option (List (MatchKey × Nat))}
    (hn : n.payload = .compare c.type children) (h : T.CompareSound n c.type children) :
    (T.linkValue n c).child = [] ∨ T.fresh ∈ (T.linkValue n c).child := by
  unfold linkValue
  split
  · rename_i t table ht
    rw [ht] at hn
    obtain ⟨-, rfl⟩ := MatchPayload.compare.inj hn
    exact Or.inl (h.unlisted rfl)
  · exact Or.inr List.mem_cons_self

theorem addValue_spec {children : Option (List (MatchKey × Nat))} (h : Shape w T)
    (hw : w = none ∨ w = some i) (hleaves : Leaves T) (hi : T.node i = some n)
    (hn : n.payload = .compare c.type children)
    (hstr : c.type = .messageType ∨ c.valueStr.isSome = true)
    (hnew : ∀ j ∈ n.members, T.keyOf c.type j ≠ some c.key) :
    ∃ T', T.addValue i c = some (T.fresh, T') ∧ Shape (some T.fresh) T' ∧ Leaves T' ∧
      T'.matchNode = T.matchNode ∧ T'.Placed T.fresh c.type ∧
      ∀ T₀, Undoes T₀ T i → Undoes T₀ T' T.fresh := by
  have hsound := h.compare hi hn
  have hlt := h.linked.lt_fresh hi
  have hunused := h.linked.unused T.fresh le_rfl
  refine ⟨_, addValue_eq hi hn hsound hnew, h.addValue hw hi hn hstr hnew,
    hleaves.newNode hunused hi (T.linkValue_parent n c) (T.linkValue_kind n c) (by simp), rfl,
    ⟨_, i, T.linkValue n c, newNode_fresh _ _ _ _, rfl, rfl, newNode_parent (ne_of_lt hlt) _ _, ?_⟩,
    fun T₀ hundo => hundo.newNode hi hunused hlt (by simp) rfl (linkValue_listed hn hsound)
      (unlink_linkValue hi hn hsound hstr hnew)⟩
  rw [MatchPayload.compareType_congr (T.linkValue_kind n c), hn]
  rfl

theorem busMatchAddCompareValue_spec {wn : MatchNode} (h : Shape w T)
    (hw : w = none ∨ w = some p) (hleaves : Leaves T) (hp : T.node p = some wn)
    (hinner : wn.payload.isInner = true)
    (hstr : c.type = .messageType ∨ c.valueStr.isSome = true)
    (horder : ∀ t, T.Above p t → t.code < c.type.code) :
    ∃ v T', T.busMatchAddCompareValue p c = some (v, T') ∧ Shape (some v) T' ∧ Leaves T' ∧
      T'.matchNode = T.matchNode ∧ T'.Placed v c.type ∧
      ∀ T₀, Undoes T₀ T p → Undoes T₀ T' v := by
  have hclose : wn.child ≠ [] → Shape none T := by
    intro hchild
    have h' : Shape (some p) T := by
      rcases hw with rfl | rfl
      · exact h.weaken _
      · exact h
    refine h'.close (fun hp' _ hnil => ?_) none
    obtain rfl := Option.some.inj (hp.symm.trans hp')
    exact hchild (List.append_eq_nil_iff.mp hnil).1
  rcases addCompareValue_cases h hp hinner c with ⟨i, n, children, v, hi, -, hmem, hn, hv, hadd⟩ |
    ⟨i, n, children, hi, hparent, hmem, hn, hnew, hadd⟩ | hadd
  · -- everything is there
    have hchild := List.ne_nil_of_mem hmem
    have hnone := hclose hchild
    have hplaced := h.placed hi hn hv
    refine ⟨v, T, hadd, hnone.weaken _, hleaves, rfl, hplaced, fun T₀ hundo => ?_⟩
    obtain ⟨vn, _, _, hvn, hvinner, hvparent, -⟩ := hplaced
    refine Undoes.stop hvn (Or.inr ?_) (hundo.eq hp (Or.inr hchild))
    rw [← members_of_table (MatchPayload.table_of_inner hvinner)]
    refine hnone.nonempty hvn ?_ (by simp)
    cases hpay : vn.payload with
    | root => exact absurd ((h.root hvn).mp hpay) (by rw [hvparent]; simp)
    | value u8 str => rfl
    | _ => exact absurd hvinner (by simp [hpay, MatchPayload.isInner])
  · -- the compare node is there
    have hchild := List.ne_nil_of_mem hmem
    have hnone := hclose hchild
    obtain ⟨T', hT', hshape, hleaves', hmatch, hplaced, hundo⟩ :=
      addValue_spec hnone (Or.inl rfl) hleaves hi hn hstr hnew
    refine ⟨T.fresh, T', hadd.trans hT', hshape, hleaves', hmatch, hplaced, fun T₀ h₀ => ?_⟩
    refine hundo T₀ (h₀.below hp hchild hi hparent (h.linked.up hi hparent).1 ?_)
    exact hnone.nonempty hi (by rw [hn]; rfl) (by simp)
  · -- both nodes are made
    have hlt := h.linked.lt_fresh hp
    have hunused := h.linked.unused T.fresh le_rfl
    generalize hchildren : (if busMatchCanHash c.type then some [] else none :
      Option (List (MatchKey × Nat))) = children at hadd
    have htable : (MatchPayload.compare c.type children).table = [] := by
      rw [← hchildren]
      split <;> rfl
    have hshape : Shape (some T.fresh) (T.prepend p wn (.compare c.type children)) := by
      refine h.prepend hw hp hinner htable (Or.inl (by simp [MatchPayload.compareType])) ?_ ?_
      · intro t children' he
        obtain ⟨rfl, rfl⟩ := MatchPayload.compare.inj he
        rw [← hchildren]
        split <;> simp [*]
      · intro t t' ht' habove
        rw [← Option.some.inj ht']
        exact horder t habove
    obtain ⟨T', hT', hshape', hleaves', hmatch, hplaced, hundo⟩ :=
      addValue_spec (n := { payload := .compare c.type children, parent := some p }) hshape
        (Or.inr rfl) (hleaves.newNode hunused hp (rfl : (T.linkChild wn).parent = wn.parent) rfl (by simp))
        (newNode_fresh _ _ _ _) rfl
        hstr (by
          intro j hj
          rw [MatchNode.members, htable] at hj
          exact absurd hj (by simp))
    refine ⟨_, T', hadd.trans hT', hshape', hleaves', hmatch, hplaced, fun T₀ h₀ => ?_⟩
    exact hundo T₀ (h₀.newNode hp hunused hlt (by simp) htable (Or.inr List.mem_cons_self)
      (unlink_linkChild hinner _))

theorem busMatchAddLeaf_spec (h : Shape w T) (hw : w = none ∨ w = some p) (hleaves : Leaves T)
    (hp : T.node p = some pn) (hinner : pn.payload.isInner = true) {cb : Nat}
    (hcb : T.matchNode cb = none) :
    ∃ T', T.busMatchAddLeaf p cb = some T' ∧ Shape none T' ∧ Leaves T' ∧
      T'.matchNode = update T.matchNode cb (some T.fresh) ∧
      ∀ T₀, Undoes T₀ T p → ∃ T'', T'.busMatchRemove cb = some T'' ∧ T''.node = T₀.node ∧
        T''.matchNode = T.matchNode := by
  have hlt := h.linked.lt_fresh hp
  have hunused := h.linked.unused T.fresh le_rfl
  have hshape : Shape (some T.fresh) (T.prepend p pn (.leaf cb)) :=
    h.prepend hw hp hinner rfl (Or.inr ⟨cb, rfl⟩) (by simp) (by simp [MatchPayload.compareType])
  have hnode : (T.prepend p pn (.leaf cb)).node T.fresh =
      some { payload := .leaf cb, parent := some p } := newNode_fresh _ _ _ _
  have hclosed : Shape none (T.prepend p pn (.leaf cb)) := by
    refine hshape.close (fun hn hneeds => ?_) none
    rw [← Option.some.inj (hnode.symm.trans hn)] at hneeds
    exact absurd hneeds (by simp [MatchPayload.needsMembers])
  refine ⟨_, by
    simp only [busMatchAddLeaf, hp, hinner, Bool.not_true, Bool.false_eq_true, if_false],
    hclosed.setMatchNode _,
    hleaves.newLeaf hunused hp (rfl : (T.linkChild pn).parent = pn.parent) rfl hcb, rfl, ?_⟩
  intro T₀ hundo
  have hadded : ({ T.prepend p pn (.leaf cb) with
      matchNode := update (update T.matchNode cb (some T.fresh)) cb none } : MatchTree).node =
        (T.newNode p (T.linkChild pn) (.leaf cb)).node := rfl
  obtain ⟨U, hfreed, hU, hmatch⟩ := busMatchNodeFree_newNode hp hunused hlt (by simp) rfl
    (Or.inr List.mem_cons_self) (unlink_linkChild hinner _) hadded
  obtain ⟨T'', hT'', hnode'', hmatch''⟩ := hundo U hU T.fresh hlt
  refine ⟨T'', ?_, hnode'', ?_⟩
  · simp only [busMatchRemove, update_self, hnode, hfreed, Option.bind_some, hT'']
  · rw [hmatch'', hmatch]
    simp only [update_idem]
    rw [← hcb, update_eq_self]

theorem busMatchAddFrom_spec {cb : Nat} (cs : List MatchComponent) : ∀ {T : MatchTree}
    {w : Option Nat} {p : Nat} {pn : MatchNode}, Shape w T → (w = none ∨ w = some p) → Leaves T →
    T.node p = some pn → pn.payload.isInner = true → T.matchNode cb = none → IsRule cs →
    (∀ c ∈ cs, ∀ t, T.Above p t → t.code < c.type.code) →
      ∃ T', busMatchAddFrom cb cs p T = some T' ∧ Shape none T' ∧ Leaves T' ∧
        (∃ i, T'.matchNode = update T.matchNode cb (some i)) ∧
        ∀ T₀, Undoes T₀ T p → ∃ T'', T'.busMatchRemove cb = some T'' ∧ T''.node = T₀.node ∧
          T''.matchNode = T.matchNode := by
  induction cs with
  | nil =>
    intro T w p pn h hw hleaves hp hinner hcb _ _
    obtain ⟨T', hT', hshape, hleaves', hmatch, hundo⟩ :=
      busMatchAddLeaf_spec h hw hleaves hp hinner hcb
    exact ⟨T', hT', hshape, hleaves', ⟨_, hmatch⟩, hundo⟩
  | cons c cs ih =>
    intro T w p pn h hw hleaves hp hinner hcb hrule horder
    obtain ⟨hsorted, hstrs⟩ := hrule
    obtain ⟨hfirst, hsorted⟩ := List.pairwise_cons.mp hsorted
    obtain ⟨v, T₁, hT₁, hshape₁, hleaves₁, hmatch₁, hplaced, hundo₁⟩ :=
      busMatchAddCompareValue_spec h hw hleaves hp hinner (hstrs c List.mem_cons_self)
        (horder c List.mem_cons_self)
    have hplaced' := hplaced
    obtain ⟨vn, _, _, hvn, hvinner, -⟩ := hplaced'
    obtain ⟨T', hT', hshape, hleaves', ⟨i, hmatch⟩, hundo⟩ := ih hshape₁ (Or.inr rfl) hleaves₁ hvn
      hvinner (hmatch₁ ▸ hcb) ⟨hsorted, fun c' hc' => hstrs c' (List.mem_cons_of_mem _ hc')⟩
      fun c' hc' t habove => (hplaced.above habove).symm ▸ hfirst c' hc'
    rw [hmatch₁] at hmatch hundo
    exact ⟨T', by rw [busMatchAddFrom, hT₁]; exact hT', hshape, hleaves', ⟨i, hmatch⟩,
      fun T₀ h₀ => hundo T₀ (hundo₁ T₀ h₀)⟩

theorem busMatchAdd_spec (h : Shape none T) (hleaves : Leaves T) {cs : List MatchComponent}
    (hcs : IsRule cs) {cb : Nat} (hcb : T.matchNode cb = none) :
    ∃ T', T.busMatchAdd cs cb = some T' ∧ Shape none T' ∧ Leaves T' ∧
      (∃ i, T'.matchNode = update T.matchNode cb (some i)) ∧
      ∃ T'', T'.busMatchRemove cb = some T'' ∧ T''.node = T.node ∧
        T''.matchNode = T.matchNode := by
  obtain ⟨r, hr, hroot⟩ := h.linked.root
  have hpay := (h.root hr).mpr hroot
  have habove : ∀ t, ¬T.Above 0 t := by
    rintro t ⟨pn, c, cn, hpn, hc, -⟩
    rw [← Option.some.inj (hr.symm.trans hpn), hroot] at hc
    exact absurd hc (by simp)
  obtain ⟨T', hT', hshape, hleaves', hmatch, hundo⟩ := busMatchAddFrom_spec cs h (Or.inl rfl)
    hleaves hr (by rw [hpay]; rfl) hcb hcs fun c _ t ht => absurd ht (habove t)
  exact ⟨T', hT', hshape, hleaves', hmatch, hundo T (Undoes.stop hr (Or.inl hpay) rfl)⟩

end MatchTree

end Basu
