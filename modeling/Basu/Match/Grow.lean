import Basu.Match.Shape

/-! Adding a rule to the match tree. The nodes of a component are found or made one below the other,
so that at most the node reached last has nothing below it. -/

namespace Basu
open Lib
open Function

namespace MatchTree

variable {T T' : MatchTree} {w : Option Nat} {p i : Nat} {pn n : MatchNode} {c : MatchComponent}

def linkValue (T : MatchTree) (n : MatchNode) (c : MatchComponent) : MatchNode :=
  match n.payload with
  | .compare t (some table) => { n with payload := .compare t (some ((c.key, T.fresh) :: table)) }
  | _ => { n with child := T.fresh :: n.child }

def linkChild (T : MatchTree) (n : MatchNode) : MatchNode := { n with child := T.fresh :: n.child }

theorem linkValue_parent (T : MatchTree) (n : MatchNode) (c : MatchComponent) :
    (T.linkValue n c).parent = n.parent := by
  unfold linkValue
  split <;> rfl

theorem linkValue_kind (T : MatchTree) (n : MatchNode) (c : MatchComponent) :
    (T.linkValue n c).payload.kind = n.payload.kind := by
  unfold linkValue
  split
  · rename_i hn
    rw [hn]
    rfl
  · rfl

theorem linkValue_members (T : MatchTree) (n : MatchNode) (c : MatchComponent) :
    (T.linkValue n c).members.Perm (T.fresh :: n.members) := by
  unfold linkValue
  split
  · rename_i t table hn
    rw [MatchNode.members, MatchNode.members, hn]
    exact List.perm_middle
  · exact List.Perm.refl _

theorem CompareSound.members {t : NodeType} {children : Option (List (MatchKey × Nat))}
    (h : T.CompareSound n t children) (hn : n.payload = .compare t children) :
    n.members = if busMatchCanHash t then n.payload.table.map Prod.snd else n.child := by
  rw [← h.hashed]
  cases children with
  | none =>
    rw [MatchNode.members, hn]
    exact List.append_nil _
  | some table => exact members_of_child (h.unlisted rfl)

theorem valueNodeSame_iff {j : Nat} :
    T.valueNodeSame c j = true ↔ T.keyOf c.type j = some c.key := by
  unfold valueNodeSame keyOf
  cases hj : T.node j with
  | none => simp
  | some m =>
    obtain ⟨payload, parent, child⟩ := m
    cases payload <;> simp [MatchPayload.keyFor]

theorem CompareSound.keyed {t : NodeType} {children : Option (List (MatchKey × Nat))}
    (h : T.CompareSound n t children) (hnodup : n.members.Nodup) :
    Table.Keyed Prod.fst n.payload.table := by
  have hsnd : (n.payload.table.map Prod.snd).Nodup := (List.nodup_append.mp hnodup).2.1
  refine (List.nodup_map_iff_inj_on hsnd.of_map).mpr fun e he e' he' hkey => ?_
  have hkeys : T.keyOf t e.2 = T.keyOf t e'.2 := by
    rw [h.entries e he, h.entries e' he', hkey]
  have hnode := h.distinct e.2 (List.mem_append_right _ (List.mem_map_of_mem he)) e'.2
    (List.mem_append_right _ (List.mem_map_of_mem he')) hkeys
  exact Prod.ext hkey hnode

theorem findValue_some {children : Option (List (MatchKey × Nat))}
    (h : T.CompareSound n c.type children) (hn : n.payload = .compare c.type children) {v : Nat}
    (hv : T.findValue n c = some v) : v ∈ n.members ∧ T.keyOf c.type v = some c.key := by
  rw [h.members hn]
  unfold findValue at hv
  split at hv
  · rename_i hhash
    rw [if_pos hhash]
    obtain ⟨e, he, rfl⟩ := Option.map_eq_some_iff.mp hv
    obtain ⟨hmem, hkey⟩ := Table.mem_of_get he
    exact ⟨List.mem_map_of_mem hmem, hkey ▸ h.entries e hmem⟩
  · rename_i hhash
    rw [if_neg hhash]
    exact ⟨List.mem_of_find?_eq_some hv, valueNodeSame_iff.mp (List.find?_some hv)⟩

theorem findValue_none {children : Option (List (MatchKey × Nat))}
    (h : T.CompareSound n c.type children) (hn : n.payload = .compare c.type children)
    (hv : T.findValue n c = none) : ∀ j ∈ n.members, T.keyOf c.type j ≠ some c.key := by
  rw [h.members hn]
  unfold findValue at hv
  split at hv
  · rename_i hhash
    rw [if_pos hhash]
    intro j hj hkey
    obtain ⟨e, he, rfl⟩ := List.mem_map.mp hj
    rw [h.entries e he] at hkey
    exact Table.get_eq_none.mp (Option.map_eq_none_iff.mp hv) e he (Option.some.inj hkey)
  · rename_i hhash
    rw [if_neg hhash]
    intro j hj hkey
    exact List.find?_eq_none.mp hv j hj (valueNodeSame_iff.mpr hkey)

theorem addValue_eq {children : Option (List (MatchKey × Nat))} (hi : T.node i = some n)
    (hn : n.payload = .compare c.type children) (h : T.CompareSound n c.type children)
    (hnew : ∀ j ∈ n.members, T.keyOf c.type j ≠ some c.key) :
    T.addValue i c =
      some (T.fresh, T.newNode i (T.linkValue n c) (.value c.valueU8 c.valueStr)) := by
  obtain ⟨payload, parent, child⟩ := n
  simp only at hn
  subst hn
  unfold addValue linkValue
  simp only [hi]
  cases children with
  | none => rfl
  | some table =>
    have hput : Table.put Prod.fst table (c.key, T.fresh) = some ((c.key, T.fresh) :: table) := by
      rw [Table.put, Table.get_eq_none.mpr fun e he hkey => ?_]
      refine hnew e.2 (List.mem_append_right _ (List.mem_map_of_mem he)) ?_
      rw [h.entries e he, hkey]
    simp only [hput, Option.map_some]

theorem Shape.addValue {children : Option (List (MatchKey × Nat))} (h : Shape w T)
    (hw : w = none ∨ w = some i) (hi : T.node i = some n)
    (hn : n.payload = .compare c.type children)
    (hstr : c.type = .messageType ∨ c.valueStr.isSome = true)
    (hnew : ∀ j ∈ n.members, T.keyOf c.type j ≠ some c.key) :
    Shape (some T.fresh) (T.newNode i (T.linkValue n c) (.value c.valueU8 c.valueStr)) := by
  have hsound := h.compare hi hn
  have hkey : ∀ {j}, j ∈ n.members →
      (T.newNode i (T.linkValue n c) (.value c.valueU8 c.valueStr)).keyOf c.type j =
        T.keyOf c.type j := by
    intro j hj
    refine newNode_keyOf hi (T.linkValue_kind n c) ?_ _
    rintro rfl
    exact h.linked.not_member_fresh hi hj
  have hfresh : (T.newNode i (T.linkValue n c) (.value c.valueU8 c.valueStr)).keyOf c.type
      T.fresh = some c.key := by
    rw [keyOf, newNode_fresh]
    rfl
  refine h.newNode hw hi (T.linkValue_parent n c) (T.linkValue_kind n c)
    (T.linkValue_members n c) rfl ?_ (fun t children he => absurd he (by simp)) ?_ ?_
  · rw [hn]
    rcases hstr with hstr | hstr <;> simp [MatchPayload.holds, hstr]
  · exact fun t t' _ _ ht' => absurd ht' (by simp [MatchPayload.compareType])
  · intro t children' hpay
    have hkinds := T.linkValue_kind n c
    rw [hpay, hn, MatchPayload.kind, MatchPayload.kind, MatchPayload.compare.injEq] at hkinds
    obtain ⟨rfl, hmap⟩ := hkinds
    have hsome : children'.isSome = children.isSome := by
      simpa only [Option.isSome_map] using congrArg Option.isSome hmap
    refine ⟨hsome.trans hsound.hashed, fun hs => ?_, fun e he => ?_, fun j hj k hk hjk => ?_⟩
    · have hchild := hsound.unlisted (hsome ▸ hs)
      unfold linkValue at hpay ⊢
      split
      · exact hchild
      · rename_i hnot
        rw [hsome] at hs
        obtain ⟨table, rfl⟩ := Option.isSome_iff_exists.mp hs
        exact absurd hn (hnot _ table)
    · have hentries : e = (c.key, T.fresh) ∨ e ∈ n.payload.table := by
        unfold linkValue at he
        split at he
        · rename_i t table ht
          rw [ht]
          exact List.mem_cons.mp he
        · exact Or.inr he
      rcases hentries with rfl | he
      · exact hfresh
      · rw [hkey (List.mem_append_right _ (List.mem_map_of_mem he))]
        exact hsound.entries e he
    · rcases List.mem_cons.mp ((T.linkValue_members n c).mem_iff.mp hj) with rfl | hj <;>
        rcases List.mem_cons.mp ((T.linkValue_members n c).mem_iff.mp hk) with rfl | hk
      · rfl
      · rw [hfresh, hkey hk] at hjk
        exact absurd hjk.symm (hnew k hk)
      · rw [hfresh, hkey hj] at hjk
        exact absurd hjk (hnew j hj)
      · rw [hkey hj, hkey hk] at hjk
        exact hsound.distinct j hj k hk hjk

def Above (T : MatchTree) (p : Nat) (t : NodeType) : Prop :=
  ∃ pn c cn, T.node p = some pn ∧ pn.parent = some c ∧ T.node c = some cn ∧
    cn.payload.compareType = some t

theorem not_compare_of_inner {payload : MatchPayload} (h : payload.isInner = true) (t : NodeType)
    (children : Option (List (MatchKey × Nat))) : payload ≠ .compare t children := by
  rintro rfl
  exact absurd h (by simp [MatchPayload.isInner])

theorem holds_of_inner {payload q : MatchPayload} (h : payload.isInner = true)
    (hq : q.compareType ≠ none ∨ ∃ cb, q = .leaf cb) : payload.holds q = true := by
  rcases hq with hq | ⟨cb, rfl⟩
  · cases q <;> cases payload <;>
      simp_all [MatchPayload.compareType, MatchPayload.isInner, MatchPayload.holds]
  · cases payload <;> simp_all [MatchPayload.isInner, MatchPayload.holds]

theorem Shape.prepend (h : Shape w T) (hw : w = none ∨ w = some p) (hp : T.node p = some pn)
    (hinner : pn.payload.isInner = true) {payload : MatchPayload} (htable : payload.table = [])
    (hkind : payload.compareType ≠ none ∨ ∃ cb, payload = .leaf cb)
    (hhash : ∀ t children, payload = .compare t children → children.isSome = busMatchCanHash t)
    (horder : ∀ t t', payload.compareType = some t' → T.Above p t → t.code < t'.code) :
    Shape (some T.fresh) (T.prepend p pn payload) := by
  refine h.newNode hw hp (rfl : (T.linkChild pn).parent = pn.parent) rfl (List.Perm.refl _) htable
    (holds_of_inner hinner hkind) hhash ?_ ?_
  · intro t t' k kn ht' hk hkn ht
    exact horder t t' ht' ⟨pn, k, kn, hp, hk, hkn, ht⟩
  · exact fun t children he => absurd he (not_compare_of_inner hinner t children)

theorem Leaves.newNode {pn' : MatchNode} (h : Leaves T) (hunused : T.node T.fresh = none)
    (hp : T.node p = some pn) (hparent : pn'.parent = pn.parent)
    (hkind : pn'.payload.kind = pn.payload.kind) {payload : MatchPayload}
    (hleaf : ∀ cb, payload ≠ .leaf cb) : Leaves (T.newNode p pn' payload) := by
  constructor
  · intro i n cb hi hn
    rcases newNode_cases hp hparent hkind hi with ⟨-, rfl⟩ | ⟨-, m, hm, -, hkind', -⟩
    · exact absurd hn (hleaf cb)
    · exact h.leaf hm ((MatchPayload.leaf_congr hkind' cb).mp hn)
  · intro cb i hcb
    obtain ⟨n, hn, hleaf'⟩ := h.callback hcb
    have hif : i ≠ T.fresh := by
      rintro rfl
      rw [hunused] at hn
      exact absurd hn (by simp)
    by_cases hip : i = p
    · subst hip
      obtain rfl := Option.some.inj (hp.symm.trans hn)
      exact ⟨pn', newNode_parent hif pn' payload, (MatchPayload.leaf_congr hkind cb).mpr hleaf'⟩
    · exact ⟨n, (attach_other hif hip).trans hn, hleaf'⟩

theorem Leaves.newLeaf {pn' : MatchNode} {cb : Nat} (h : Leaves T)
    (hunused : T.node T.fresh = none) (hp : T.node p = some pn) (hparent : pn'.parent = pn.parent)
    (hkind : pn'.payload.kind = pn.payload.kind) (hcb : T.matchNode cb = none) :
    Leaves { T.newNode p pn' (.leaf cb) with
      matchNode := update T.matchNode cb (some T.fresh) } := by
  constructor
  · intro i n cb' hi hn
    dsimp only
    rcases newNode_cases hp hparent hkind hi with ⟨rfl, rfl⟩ | ⟨-, m, hm, -, hkind', -⟩
    · obtain rfl := MatchPayload.leaf.inj hn
      exact update_self ..
    · have hcb' := h.leaf hm ((MatchPayload.leaf_congr hkind' cb').mp hn)
      rw [update_of_ne]
      · exact hcb'
      · rintro rfl
        rw [hcb] at hcb'
        exact absurd hcb' (by simp)
  · intro cb' i hcb'
    dsimp only at hcb' ⊢
    by_cases he : cb' = cb
    · subst he
      rw [update_self] at hcb'
      obtain rfl := Option.some.inj hcb'
      exact ⟨_, newNode_fresh T p pn' _, rfl⟩
    · rw [update_of_ne he] at hcb'
      obtain ⟨n, hn, hleaf'⟩ := h.callback hcb'
      have hif : i ≠ T.fresh := by
        rintro rfl
        rw [hunused] at hn
        exact absurd hn (by simp)
      by_cases hip : i = p
      · subst hip
        obtain rfl := Option.some.inj (hp.symm.trans hn)
        exact ⟨pn', newNode_parent hif pn' _, (MatchPayload.leaf_congr hkind cb').mpr hleaf'⟩
      · exact ⟨n, (attach_other hif hip).trans hn, hleaf'⟩

def Placed (T : MatchTree) (v : Nat) (t : NodeType) : Prop :=
  ∃ vn i n, T.node v = some vn ∧ vn.payload.isInner = true ∧ vn.parent = some i ∧
    T.node i = some n ∧ n.payload.compareType = some t

theorem Placed.above {v : Nat} {t t' : NodeType} (h : T.Placed v t) (habove : T.Above v t') :
    t' = t := by
  obtain ⟨vn, i, n, hv, -, hi, hn, ht⟩ := h
  obtain ⟨vn', i', n', hv', hi', hn', ht'⟩ := habove
  obtain rfl := Option.some.inj (hv.symm.trans hv')
  obtain rfl := Option.some.inj (hi.symm.trans hi')
  obtain rfl := Option.some.inj (hn.symm.trans hn')
  exact Option.some.inj (ht'.symm.trans ht)

theorem Shape.placed {t : NodeType} {children : Option (List (MatchKey × Nat))} {v : Nat}
    (h : Shape w T) (hi : T.node i = some n) (hn : n.payload = .compare t children)
    (hv : v ∈ n.members) : T.Placed v t := by
  obtain ⟨vn, hvn, hparent⟩ := h.linked.down hi hv
  have hfits := h.fits_member hi hvn hv
  refine ⟨vn, i, n, hvn, ?_, hparent, hi, by rw [hn]; rfl⟩
  rw [hn] at hfits
  cases hpay : vn.payload <;> simp_all [MatchPayload.holds, MatchPayload.isInner]

theorem addCompareValue_cases {wn : MatchNode} (h : Shape w T) (hp : T.node p = some wn)
    (hinner : wn.payload.isInner = true) (c : MatchComponent) :
    (∃ i n children v, T.node i = some n ∧ n.parent = some p ∧ i ∈ wn.child ∧
      n.payload = .compare c.type children ∧ v ∈ n.members ∧
      T.busMatchAddCompareValue p c = some (v, T)) ∨
    (∃ i n children, T.node i = some n ∧ n.parent = some p ∧ i ∈ wn.child ∧
      n.payload = .compare c.type children ∧
      (∀ j ∈ n.members, T.keyOf c.type j ≠ some c.key) ∧
      T.busMatchAddCompareValue p c = T.addValue i c) ∨
    T.busMatchAddCompareValue p c =
      (T.prepend p wn (.compare c.type
        (if busMatchCanHash c.type then some [] else none))).addValue T.fresh c := by
  unfold busMatchAddCompareValue
  simp only [hp, hinner, Bool.not_true, Bool.false_eq_true, if_false]
  cases hfind : wn.child.find? (T.isCompareOf c.type) with
  | none => exact Or.inr (Or.inr rfl)
  | some i =>
    have hmem := List.mem_of_find?_eq_some hfind
    obtain ⟨n, hi, hparent⟩ := h.linked.down hp (List.mem_append_left _ hmem)
    have hcompare : ∃ children, n.payload = .compare c.type children := by
      have hof := List.find?_some hfind
      unfold isCompareOf at hof
      rw [hi] at hof
      obtain ⟨payload, parent, child⟩ := n
      cases payload with
      | compare t children => exact ⟨children, by rw [of_decide_eq_true hof]⟩
      | _ => exact absurd hof (by simp)
    obtain ⟨children, hn⟩ := hcompare
    have hsound := h.compare hi hn
    simp only [hi]
    cases hv : T.findValue n c with
    | some v =>
      obtain ⟨hmemv, -⟩ := findValue_some hsound hn hv
      exact Or.inl ⟨i, n, children, v, hi, hparent, hmem, hn, hmemv, rfl⟩
    | none =>
      exact Or.inr (Or.inl ⟨i, n, children, hi, hparent, hmem, hn, findValue_none hsound hn hv,
        rfl⟩)

end MatchTree

end Basu
