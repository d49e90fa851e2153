import Basu.Match.Node

/-! The shape of the match tree: what stands below what, in the list or in the table, and that no
node stays with nothing below it. While a rule is added or removed one node may be without. -/

namespace Basu
open Lib
open Function

namespace MatchPayload

def kind : MatchPayload → MatchPayload
  | .compare t children => .compare t (children.map fun _ => [])
  | p => p

def holds : MatchPayload → MatchPayload → Bool
  | .root, .compare .. | .root, .leaf _ | .value .., .compare .. | .value .., .leaf _ => true
  | .compare t _, .value _ str => t = .messageType || str.isSome
  | _, _ => false

def compareType : MatchPayload → Option NodeType
  | .compare t _ => some t
  | _ => none

def needsMembers : MatchPayload → Bool
  | .value .. | .compare .. => true
  | .root | .leaf _ => false

def keyFor (t : NodeType) : MatchPayload → Option MatchKey
  | .value u8 str => some (matchKey t u8 str)
  | _ => none

variable {p p' q q' : MatchPayload}

theorem holds_root (p : MatchPayload) : p.holds .root = false := by
  cases p <;> rfl

theorem holds_congr (hp : p.kind = p'.kind) (hq : q.kind = q'.kind) : p.holds q = p'.holds q' := by
  cases p <;> cases p' <;> simp only [kind, reduceCtorEq, compare.injEq, value.injEq] at hp <;>
    cases q <;> cases q' <;> simp only [kind, reduceCtorEq, compare.injEq, value.injEq] at hq <;>
    simp only [holds, hp, hq]

theorem compareType_congr (hp : p.kind = p'.kind) : p.compareType = p'.compareType := by
  cases p <;> cases p' <;> simp only [kind, reduceCtorEq, compare.injEq] at hp <;>
    simp only [compareType, hp]

theorem root_congr (hp : p.kind = p'.kind) : p = .root ↔ p' = .root := by
  cases p <;> cases p' <;> simp_all [kind]

theorem leaf_congr (hp : p.kind = p'.kind) (cb : Nat) : p = .leaf cb ↔ p' = .leaf cb := by
  cases p <;> cases p' <;> simp_all [kind]

theorem keyFor_congr (hp : p.kind = p'.kind) (t : NodeType) : p.keyFor t = p'.keyFor t := by
  cases p <;> cases p' <;> simp_all [kind, keyFor]

theorem table_of_inner (h : p.isInner = true) : p.table = [] := by
  cases p with
  | compare t children => exact absurd h (by simp [isInner])
  | _ => rfl

end MatchPayload

namespace MatchTree

def keyOf (T : MatchTree) (t : NodeType) (i : Nat) : Option MatchKey :=
  (T.node i).bind (·.payload.keyFor t)

/-- A compare node has a table exactly if its type can be hashed, and then nothing in its list; its
value nodes are in the table under their keys, and have different ones. -/
structure CompareSound (T : MatchTree) (n : MatchNode) (t : NodeType)
    (children : Option (List (MatchKey × Nat))) : Prop where
  hashed : children.isSome = busMatchCanHash t
  unlisted : children.isSome = true → n.child = []
  entries : ∀ e ∈ n.payload.table, T.keyOf t e.2 = some e.1
  distinct : ∀ i ∈ n.members, ∀ j ∈ n.members, T.keyOf t i = T.keyOf t j → i = j

structure Shape (w : Option Nat) (T : MatchTree) : Prop where
  linked : Linked MatchNode.parent MatchNode.members T.node T.fresh
  root : ∀ {i n}, T.node i = some n → (n.payload = .root ↔ n.parent = none)
  fits : ∀ {p pn i n}, T.node p = some pn → T.node i = some n → n.parent = some p →
    pn.payload.holds n.payload = true
  order : ∀ {i n v vn c cn t t'}, T.node i = some n → n.payload.compareType = some t' →
    n.parent = some v → T.node v = some vn → vn.parent = some c → T.node c = some cn →
    cn.payload.compareType = some t → t.code < t'.code
  compare : ∀ {i n t children}, T.node i = some n → n.payload = .compare t children →
    T.CompareSound n t children
  nonempty : ∀ {i n}, T.node i = some n → n.payload.needsMembers = true → w ≠ some i →
    n.members ≠ []

structure Leaves (T : MatchTree) : Prop where
  leaf : ∀ {i n cb}, T.node i = some n → n.payload = .leaf cb → T.matchNode cb = some i
  callback : ∀ {cb i}, T.matchNode cb = some i → ∃ n, T.node i = some n ∧ n.payload = .leaf cb

variable {T T' : MatchTree} {w : Option Nat} {p i : Nat} {pn pn' n : MatchNode}

theorem Shape.close {i : Nat} (h : Shape (some i) T)
    (hi : ∀ {n}, T.node i = some n → n.payload.needsMembers = true → n.members ≠ [])
    (w : Option Nat) : Shape w T := by
  refine ⟨h.linked, h.root, h.fits, h.order, h.compare, ?_⟩
  intro j n hj hneeds _
  by_cases hij : i = j
  · subst hij
    exact hi hj hneeds
  · exact h.nonempty hj hneeds fun he => hij (Option.some.inj he)

theorem Shape.weaken (h : Shape none T) (w : Option Nat) : Shape w T :=
  ⟨h.linked, h.root, h.fits, h.order, h.compare, fun hj hneeds _ => h.nonempty hj hneeds (by simp)⟩

theorem Shape.fits_member (h : Shape w T) (hp : T.node p = some pn) (hi : T.node i = some n)
    (hmem : i ∈ pn.members) : pn.payload.holds n.payload = true := by
  obtain ⟨m, hm, hparent⟩ := h.linked.down hp hmem
  obtain rfl := Option.some.inj (hi.symm.trans hm)
  exact h.fits hp hi hparent

theorem Shape.leaf_members (h : Shape w T) (hi : T.node i = some n) {cb : Nat}
    (hleaf : n.payload = .leaf cb) : n.members = [] := by
  apply List.eq_nil_iff_forall_not_mem.mpr
  intro j hj
  obtain ⟨m, hm, -⟩ := h.linked.down hi hj
  have hfits := h.fits_member hi hm hj
  rw [hleaf] at hfits
  exact absurd hfits (by simp [MatchPayload.holds])

theorem members_of_table (h : pn.payload.table = []) : pn.members = pn.child := by
  rw [MatchNode.members, h]
  exact List.append_nil _

theorem members_of_child (h : pn.child = []) :
    pn.members = pn.payload.table.map Prod.snd := by
  rw [MatchNode.members, h]
  rfl

def Kept (T : MatchTree) (p j : Nat) (m' : MatchNode) : Prop :=
  ∃ m, T.node j = some m ∧ m'.parent = m.parent ∧ m'.payload.kind = m.payload.kind ∧
    (j ≠ p → m' = m)

theorem newNode_cases (hp : T.node p = some pn) (hparent : pn'.parent = pn.parent)
    (hkind : pn'.payload.kind = pn.payload.kind) {payload : MatchPayload} {j : Nat}
    {m' : MatchNode} (h : (T.newNode p pn' payload).node j = some m') :
    j = T.fresh ∧ m' = { payload := payload, parent := some p } ∨
      j ≠ T.fresh ∧ T.Kept p j m' := by
  rcases attach_cases h with ⟨hj, hm⟩ | ⟨hj, hjp, rfl⟩ | ⟨hj, hjp, hm⟩
  · exact Or.inl ⟨hj, hm⟩
  · exact Or.inr ⟨hj, pn, hjp ▸ hp, hparent, hkind, fun hne => absurd hjp hne⟩
  · exact Or.inr ⟨hj, m', hm, rfl, rfl, fun _ => rfl⟩

theorem dropNode_cases (hp : T.node p = some pn) (hparent : pn'.parent = pn.parent)
    (hkind : pn'.payload.kind = pn.payload.kind) {j : Nat} {m' : MatchNode}
    (h : (T.dropNode i p pn').node j = some m') : j ≠ i ∧ T.Kept p j m' := by
  rcases detach_cases h with ⟨hj, ⟨hjp, rfl⟩ | ⟨hjp, hm⟩⟩
  · exact ⟨hj, pn, hjp ▸ hp, hparent, hkind, fun hne => absurd hjp hne⟩
  · exact ⟨hj, m', hm, rfl, rfl, fun _ => rfl⟩

theorem newNode_fresh (T : MatchTree) (p : Nat) (pn : MatchNode) (payload : MatchPayload) :
    (T.newNode p pn payload).node T.fresh = some { payload := payload, parent := some p } :=
  attach_new

theorem newNode_parent (hp : p ≠ T.fresh) (pn : MatchNode) (payload : MatchPayload) :
    (T.newNode p pn payload).node p = some pn :=
  attach_parent hp

theorem newNode_keyOf (hp : T.node p = some pn) (hkind : pn'.payload.kind = pn.payload.kind)
    {payload : MatchPayload} {j : Nat} (hj : j ≠ T.fresh) (t : NodeType) :
    (T.newNode p pn' payload).keyOf t j = T.keyOf t j := by
  unfold keyOf newNode
  by_cases hjp : j = p
  · subst hjp
    simp only [attach_parent hj, hp, Option.bind_some]
    exact MatchPayload.keyFor_congr hkind t
  · simp only [attach_other hj hjp]

theorem dropNode_keyOf (hp : T.node p = some pn) (hkind : pn'.payload.kind = pn.payload.kind)
    {j : Nat} (hj : j ≠ i) (t : NodeType) : (T.dropNode i p pn').keyOf t j = T.keyOf t j := by
  unfold keyOf dropNode
  by_cases hjp : j = p
  · subst hjp
    simp only [detach_parent hj, hp, Option.bind_some]
    exact MatchPayload.keyFor_congr hkind t
  · simp only [detach_other hj hjp]

section Kept

variable {j : Nat} {m m' : MatchNode}

theorem Shape.fits_kept (h : Shape w T) {k : Nat} {k' : MatchNode} (hj : T.Kept p j m')
    (hk : T.Kept p k k') (hparent : k'.parent = some j) : m'.payload.holds k'.payload = true := by
  obtain ⟨m, hm, -, hkind, -⟩ := hj
  obtain ⟨n, hn, hpar, hkind', -⟩ := hk
  rw [MatchPayload.holds_congr hkind hkind']
  exact h.fits hm hn (hpar.symm.trans hparent)

theorem Shape.order_kept (h : Shape w T) {v c : Nat} {vn cn : MatchNode} {t t' : NodeType}
    (hi : T.Kept p j m') (ht' : m'.payload.compareType = some t') (hv : m'.parent = some v)
    (hvn : T.Kept p v vn) (hc : vn.parent = some c) (hcn : T.Kept p c cn)
    (ht : cn.payload.compareType = some t) : t.code < t'.code := by
  obtain ⟨m, hm, hpar, hkind, -⟩ := hi
  obtain ⟨vm, hvm, hvpar, -, -⟩ := hvn
  obtain ⟨cm, hcm, -, hckind, -⟩ := hcn
  rw [MatchPayload.compareType_congr hkind] at ht'
  rw [MatchPayload.compareType_congr hckind] at ht
  exact h.order hm ht' (hpar.symm.trans hv) hvm (hvpar.symm.trans hc) hcm ht

theorem Shape.root_kept (h : Shape w T) (hj : T.Kept p j m') :
    m'.payload = .root ↔ m'.parent = none := by
  obtain ⟨m, hm, hpar, hkind, -⟩ := hj
  rw [MatchPayload.root_congr hkind, hpar]
  exact h.root hm

end Kept

theorem CompareSound.congr {t : NodeType} {children : Option (List (MatchKey × Nat))}
    (h : T.CompareSound n t children) (hkey : ∀ j ∈ n.members, T'.keyOf t j = T.keyOf t j) :
    T'.CompareSound n t children := by
  refine ⟨h.hashed, h.unlisted, fun e he => ?_, fun i hi j hj hij => ?_⟩
  · rw [hkey e.2 (List.mem_append_right _ (List.mem_map_of_mem he))]
    exact h.entries e he
  · rw [hkey i hi, hkey j hj] at hij
    exact h.distinct i hi j hj hij

theorem Shape.newNode (h : Shape w T) (hw : w = none ∨ w = some p) (hp : T.node p = some pn)
    (hparent : pn'.parent = pn.parent) (hkind : pn'.payload.kind = pn.payload.kind)
    (hmem : pn'.members.Perm (T.fresh :: pn.members)) {payload : MatchPayload}
    (htable : payload.table = []) (hholds : pn.payload.holds payload = true)
    (hhash : ∀ t children, payload = .compare t children → children.isSome = busMatchCanHash t)
    (horder : ∀ t t' c cn, payload.compareType = some t' → pn.parent = some c →
      T.node c = some cn → cn.payload.compareType = some t → t.code < t'.code)
    (hcompare : ∀ t children, pn'.payload = .compare t children →
      (T.newNode p pn' payload).CompareSound pn' t children) :
    Shape (some T.fresh) (T.newNode p pn' payload) := by
  have hempty : MatchNode.members { payload := payload, parent := some p } = [] := by
    rw [MatchNode.members, htable]
    rfl
  have hlinked := h.linked.attach hp hparent hmem (n := { payload := payload, parent := some p })
    rfl hempty
  have hpne : p ≠ T.fresh := ne_of_lt (h.linked.lt_fresh hp)
  -- the new node is nobody's parent
  have hpar : ∀ {j m q qn}, (T.newNode p pn' payload).node j = some m → m.parent = some q →
      (T.newNode p pn' payload).node q = some qn → T.Kept p q qn := by
    intro j m q qn hj hq hqn
    rcases newNode_cases hp hparent hkind hqn with ⟨rfl, rfl⟩ | ⟨-, hkept⟩
    · obtain ⟨-, qn', hqn', hmem'⟩ := hlinked.up hj hq
      obtain rfl := Option.some.inj (hqn.symm.trans hqn')
      rw [hempty] at hmem'
      exact absurd hmem' (by simp)
    · exact hkept
  refine ⟨hlinked, ?_, ?_, ?_, ?_, ?_⟩
  · intro j m hj
    rcases newNode_cases hp hparent hkind hj with ⟨-, rfl⟩ | ⟨-, hkept⟩
    · refine iff_of_false (fun he => ?_) (by simp)
      simp only at he
      rw [he, MatchPayload.holds_root] at hholds
      exact absurd hholds (by simp)
    · exact h.root_kept hkept
  · intro q qn j m hq hj hjq
    have hqkept := hpar hj hjq hq
    rcases newNode_cases hp hparent hkind hj with ⟨-, rfl⟩ | ⟨-, hkept⟩
    · obtain rfl := Option.some.inj hjq
      obtain ⟨qm, hqm, -, hqkind, -⟩ := hqkept
      obtain rfl := Option.some.inj (hp.symm.trans hqm)
      rw [MatchPayload.holds_congr hqkind rfl]
      exact hholds
    · exact h.fits_kept hqkept hkept hjq
  · intro j m v vn c cn t t' hj ht' hv hvn hc hcn ht
    have hvkept := hpar hj hv hvn
    have hckept := hpar hvn hc hcn
    rcases newNode_cases hp hparent hkind hj with ⟨-, rfl⟩ | ⟨-, hkept⟩
    · obtain rfl := Option.some.inj hv
      obtain ⟨vm, hvm, hvpar, -, -⟩ := hvkept
      obtain rfl := Option.some.inj (hp.symm.trans hvm)
      obtain ⟨cm, hcm, -, hckind, -⟩ := hckept
      rw [MatchPayload.compareType_congr hckind] at ht
      exact horder t t' c cm ht' (hvpar.symm.trans hc) hcm ht
    · exact h.order_kept hkept ht' hv hvkept hc hckept ht
  · intro j m t children hj hm
    rcases newNode_cases hp hparent hkind hj with ⟨-, rfl⟩ | ⟨hjf, m', hm', -, -, hsame⟩
    · refine ⟨hhash t children hm, fun _ => rfl, fun e he => ?_, fun i hi => ?_⟩
      · simp only [htable, List.not_mem_nil] at he
      · rw [hempty] at hi
        exact absurd hi (by simp)
    · by_cases hjp : j = p
      · subst hjp
        obtain rfl := Option.some.inj ((newNode_parent hpne pn' payload).symm.trans hj)
        exact hcompare t children hm
      · obtain rfl := hsame hjp
        refine (h.compare hm' hm).congr fun k hk => newNode_keyOf hp hkind ?_ t
        obtain ⟨kn, hkn, -⟩ := h.linked.down hm' hk
        exact ne_of_lt (h.linked.lt_fresh hkn)
  · intro j m hj hneeds hne
    rcases newNode_cases hp hparent hkind hj with ⟨rfl, -⟩ | ⟨hjf, m', hm', -, -, hsame⟩
    · exact absurd rfl hne
    · by_cases hjp : j = p
      · subst hjp
        obtain rfl := Option.some.inj ((newNode_parent hpne pn' payload).symm.trans hj)
        intro hnil
        rw [hnil] at hmem
        exact absurd hmem.symm (List.not_perm_cons_nil)
      · obtain rfl := hsame hjp
        refine h.nonempty hm' hneeds fun he => ?_
        rcases hw with hw | hw
        · exact absurd (hw.symm.trans he) (by simp)
        · exact hjp (Option.some.inj (he.symm.trans hw))

theorem Shape.dropNode (h : Shape w T) (hw : w = none ∨ w = some i) (hi : T.node i = some n)
    (hn : n.parent = some p) (hempty : n.members = []) (hp : T.node p = some pn)
    (hparent : pn'.parent = pn.parent) (hkind : pn'.payload.kind = pn.payload.kind)
    (hmem : (i :: pn'.members).Perm pn.members)
    (hchild : pn.child = [] → pn'.child = [])
    (htable : ∀ e ∈ pn'.payload.table, e ∈ pn.payload.table) :
    Shape (some p) (T.dropNode i p pn') := by
  have hlinked := h.linked.detach hi hn hempty hp hparent hmem
  have hpi : p ≠ i := ne_of_lt (h.linked.up hi hn).1
  have hkept : ∀ {j m'}, (T.dropNode i p pn').node j = some m' → j ≠ i ∧ T.Kept p j m' :=
    fun hj => dropNode_cases hp hparent hkind hj
  refine ⟨hlinked, fun hj => h.root_kept (hkept hj).2, ?_, ?_, ?_, ?_⟩
  · intro q qn j m hq hj hjq
    exact h.fits_kept (hkept hq).2 (hkept hj).2 hjq
  · intro j m v vn c cn t t' hj ht' hv hvn hc hcn ht
    exact h.order_kept (hkept hj).2 ht' hv (hkept hvn).2 hc (hkept hcn).2 ht
  · intro j m t children hj hm
    obtain ⟨hji, m', hm', -, hkind', hsame⟩ := hkept hj
    have hkey : ∀ k ∈ m.members, (T.dropNode i p pn').keyOf t k = T.keyOf t k := by
      intro k hk
      refine dropNode_keyOf hp hkind ?_ t
      rintro rfl
      obtain ⟨kn, hkn, -⟩ := hlinked.down hj hk
      exact absurd (detach_self.symm.trans hkn) (by simp)
    refine CompareSound.congr ?_ hkey
    by_cases hjp : j = p
    · subst hjp
      obtain rfl := Option.some.inj (detach_parent hpi |>.symm.trans hj)
      obtain rfl := Option.some.inj (hp.symm.trans hm')
      have hkinds := hkind
      rw [hm] at hkinds
      cases hpay : pn.payload with
      | compare t₀ children₀ =>
        rw [hpay, MatchPayload.kind, MatchPayload.kind, MatchPayload.compare.injEq] at hkinds
        obtain ⟨rfl, hmap⟩ := hkinds
        have hsome : children.isSome = children₀.isSome := by
          have := congrArg Option.isSome hmap
          simpa only [Option.isSome_map] using this
        have hold := h.compare hp hpay
        refine ⟨hsome.trans hold.hashed, fun hs => hchild (hold.unlisted (hsome ▸ hs)), ?_, ?_⟩
        · exact fun e he => hold.entries e (htable e he)
        · intro k hk l hl
          exact hold.distinct k (hmem.mem_iff.mp (List.mem_cons_of_mem _ hk)) l
            (hmem.mem_iff.mp (List.mem_cons_of_mem _ hl))
      | _ =>
        rw [hpay] at hkinds
        simp only [MatchPayload.kind, reduceCtorEq] at hkinds
    · obtain rfl := hsame hjp
      exact h.compare hm' hm
  · intro j m hj hneeds hne
    obtain ⟨hji, m', hm', -, -, hsame⟩ := hkept hj
    have hjp : j ≠ p := fun he => hne (by rw [he])
    obtain rfl := hsame hjp
    refine h.nonempty hm' hneeds fun he => ?_
    rcases hw with hw | hw
    · exact absurd (hw.symm.trans he) (by simp)
    · exact hji (Option.some.inj (he.symm.trans hw))

end MatchTree

end Basu
