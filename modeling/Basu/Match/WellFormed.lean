import Basu.Match.Installed

/-! What holds of the match tree after any sequence of rules added and removed. -/

namespace Basu
open Lib
open Function

namespace MatchTree

variable {T : MatchTree} {i j : Nat} {n m : MatchNode}

def compareTypes (T : MatchTree) (l : List Nat) : List NodeType :=
  l.filterMap fun i => (T.node i).bind (·.payload.compareType)

def lastType (T : MatchTree) (i : Nat) : Option NodeType :=
  (T.node i).bind fun n =>
    match n.payload.compareType with
    | some t => some t
    | none => n.parent.bind fun p => (T.node p).bind (·.payload.compareType)

theorem Shape.lastType_step (h : Shape none T) (hi : T.node i = some n) (hj : T.node j = some m)
    (hparent : m.parent = some i) (hleaf : ∀ cb, m.payload ≠ .leaf cb) :
    m.payload.compareType = none ∧ T.lastType j = T.lastType i ∨
    ∃ t, m.payload.compareType = some t ∧ T.lastType j = some t ∧
      ∀ t₀ ∈ T.lastType i, t₀.code < t.code := by
  have hfits := h.fits hi hj hparent
  have hlasti : T.lastType i = match n.payload.compareType with
      | some t => some t
      | none => n.parent.bind fun p => (T.node p).bind (·.payload.compareType) := by
    rw [lastType, hi]
    rfl
  have hlastj : T.lastType j = match m.payload.compareType with
      | some t => some t
      | none => n.payload.compareType := by
    rw [lastType, hj, Option.bind_some, hparent, Option.bind_some, hi]
    rfl
  rw [hlasti, hlastj]
  cases hm : m.payload with
  | root =>
    rw [hm, MatchPayload.holds_root] at hfits
    exact absurd hfits (by simp)
  | leaf cb => exact absurd hm (hleaf cb)
  | value u8 str =>
    cases hn : n.payload with
    | compare t children => exact Or.inl ⟨rfl, rfl⟩
    | _ =>
      rw [hn, hm] at hfits
      exact absurd hfits (by simp [MatchPayload.holds])
  | compare t' children =>
    refine Or.inr ⟨t', rfl, rfl, fun t₀ ht₀ => ?_⟩
    cases hn : n.payload with
    | root =>
      rw [hn, (h.root hi).mp hn] at ht₀
      exact absurd ht₀ (by simp [MatchPayload.compareType])
    | value u8 str =>
      rw [hn] at ht₀
      obtain ⟨c, hc, hcn⟩ := Option.bind_eq_some_iff.mp ht₀
      obtain ⟨cn, hcn, ht⟩ := Option.bind_eq_some_iff.mp hcn
      exact h.order hj (by rw [hm]; rfl) hparent hi hc hcn ht
    | _ =>
      rw [hn, hm] at hfits
      exact absurd hfits (by simp [MatchPayload.holds])

theorem compareTypes_concat (l : List Nat) (hj : T.node j = some m) :
    T.compareTypes (l ++ [j]) = T.compareTypes l ++ m.payload.compareType.toList := by
  unfold compareTypes
  rw [List.filterMap_append, List.filterMap_cons, hj, Option.bind_some]
  cases m.payload.compareType <;> rfl

theorem Shape.path_types (h : Shape none T) (l : List Nat) : ∀ {i n},
    IsPath MatchNode.members T.node (l ++ [i]) → T.node i = some n →
      (T.compareTypes (l ++ [i])).Pairwise (fun a b => a.code < b.code) ∧
      ((∀ cb, n.payload ≠ .leaf cb) →
        ∀ t ∈ T.compareTypes (l ++ [i]), ∃ t₀ ∈ T.lastType i, t.code ≤ t₀.code) := by
  induction l using List.reverseRecOn with
  | nil =>
    intro i n hpath hi
    have h0 : i = 0 := Option.some.inj hpath.1
    obtain ⟨r, hr, hroot⟩ := h.linked.root
    obtain rfl := Option.some.inj (hi.symm.trans (h0 ▸ hr))
    have hnil : T.compareTypes ([] ++ [i]) = [] := by
      rw [compareTypes_concat [] hi, (h.root hi).mpr hroot]
      rfl
    rw [hnil]
    exact ⟨List.Pairwise.nil, fun _ t ht => absurd ht (by simp)⟩
  | append_singleton l p ih =>
    intro j m hpath hj
    rw [List.append_assoc] at hpath
    obtain ⟨hpath, n, hp, hmem⟩ := isPath_concat.mp hpath
    obtain ⟨m', hm', hparent⟩ := h.linked.down hp hmem
    obtain rfl := Option.some.inj (hj.symm.trans hm')
    obtain ⟨hsorted, hlast⟩ := ih hpath hp
    have hlast := hlast fun cb hleaf => by
      rw [h.leaf_members hp hleaf] at hmem
      exact absurd hmem (by simp)
    rw [compareTypes_concat _ hj]
    by_cases hleaf : ∃ cb, m.payload = .leaf cb
    · obtain ⟨cb, hleaf⟩ := hleaf
      rw [hleaf]
      refine ⟨?_, fun hnot => absurd rfl (hnot cb)⟩
      simpa only [MatchPayload.compareType, Option.toList_none, List.append_nil] using hsorted
    · rcases h.lastType_step hp hj hparent (not_exists.mp hleaf) with ⟨hnone, hstay⟩ |
        ⟨t, hsome, hstep, hgrow⟩
      · rw [hnone, Option.toList_none, List.append_nil, hstay]
        exact ⟨hsorted, fun _ => hlast⟩
      · rw [hsome, Option.toList_some, hstep]
        constructor
        · refine List.pairwise_append.mpr ⟨hsorted, List.pairwise_singleton _ _, ?_⟩
          intro a ha b hb
          obtain ⟨t₀, ht₀, hle⟩ := hlast a ha
          rw [List.mem_singleton.mp hb]
          exact hle.trans_lt (hgrow t₀ ht₀)
        · intro _ a ha
          refine ⟨t, rfl, ?_⟩
          rcases List.mem_append.mp ha with ha | ha
          · obtain ⟨t₀, ht₀, hle⟩ := hlast a ha
            exact (hle.trans_lt (hgrow t₀ ht₀)).le
          · rw [List.mem_singleton.mp ha]

def HasValue (T : MatchTree) (i : Nat) (t : NodeType) (j : Nat) : Prop :=
  ∃ n m, T.node i = some n ∧ n.payload.compareType = some t ∧ T.node j = some m ∧
    m.parent = some i

def InTable (T : MatchTree) (i : Nat) (t : NodeType) (j : Nat) : Prop :=
  ∃ n k, T.node i = some n ∧ T.keyOf t j = some k ∧
    (Table.get Prod.fst n.payload.table k).map Prod.snd = some j

structure WellFormed (installed : List Nat) (T : MatchTree) : Prop where
  reachable : ∀ {i n}, T.node i = some n → ∃ l, IsPath MatchNode.members T.node (l ++ [i])
  increasing : ∀ {l}, IsPath MatchNode.members T.node l →
    (T.compareTypes l).Pairwise fun a b => a.code < b.code
  nonempty : ∀ {i n t}, T.node i = some n → n.payload.compareType = some t → ∃ j, T.HasValue i t j
  value : ∀ {i t j}, T.HasValue i t j → ∃ m u8 str, T.node j = some m ∧ m.payload = .value u8 str
  distinct : ∀ {i t j k}, T.HasValue i t j → T.HasValue i t k → T.keyOf t j = T.keyOf t k → j = k
  hashed : ∀ {i t j}, T.HasValue i t j → (T.InTable i t j ↔ busMatchCanHash t = true)
  leaves : ∀ {cb}, cb ∈ installed ↔ ∃ i n, T.node i = some n ∧ n.payload = .leaf cb
  single : ∀ {i n j m cb}, T.node i = some n → n.payload = .leaf cb → T.node j = some m →
    m.payload = .leaf cb → i = j

theorem compare_of_type {p : MatchPayload} {t : NodeType} (h : p.compareType = some t) :
    ∃ children, p = .compare t children := by
  cases p with
  | compare t' children => exact ⟨children, by rw [Option.some.inj h]⟩
  | _ => exact absurd h (by simp [MatchPayload.compareType])

theorem HasValue.member {t : NodeType} (hvalue : T.HasValue i t j) {w : Option Nat}
    (h : Shape w T) : ∃ n children, T.node i = some n ∧ n.payload = .compare t children ∧
      j ∈ n.members := by
  obtain ⟨n, m, hi, ht, hj, hparent⟩ := hvalue
  obtain ⟨children, hn⟩ := compare_of_type ht
  obtain ⟨-, n', hn', hmem⟩ := h.linked.up hj hparent
  rw [← Option.some.inj (hi.symm.trans hn')] at hmem
  exact ⟨n, children, hi, hn, hmem⟩

theorem Shape.wellFormed (h : Shape none T) (hleaves : Leaves T) {installed : List Nat}
    (hinstalled : ∀ cb, cb ∈ installed ↔ T.matchNode cb ≠ none) : WellFormed installed T := by
  refine ⟨fun hi => h.linked.exists_path _ hi, ?_, ?_, ?_, ?_, ?_, ?_, ?_⟩
  · intro l hpath
    rcases List.eq_nil_or_concat' l with rfl | ⟨l, i, rfl⟩
    · exact List.Pairwise.nil
    · have hlive : ∃ n, T.node i = some n := by
        rcases List.eq_nil_or_concat' l with rfl | ⟨l, p, rfl⟩
        · obtain ⟨r, hr, -⟩ := h.linked.root
          exact ⟨r, Option.some.inj hpath.1 ▸ hr⟩
        · rw [List.append_assoc] at hpath
          obtain ⟨-, pn, hp, hmem⟩ := isPath_concat.mp hpath
          obtain ⟨n, hn, -⟩ := h.linked.down hp hmem
          exact ⟨n, hn⟩
      obtain ⟨n, hi⟩ := hlive
      exact (h.path_types l hpath hi).1
  · intro i n t hi ht
    obtain ⟨children, hn⟩ := compare_of_type ht
    obtain ⟨j, hj⟩ := List.exists_mem_of_ne_nil _
      (h.nonempty hi (by rw [hn]; rfl) (by simp))
    obtain ⟨m, hm, hparent⟩ := h.linked.down hi hj
    exact ⟨j, n, m, hi, ht, hm, hparent⟩
  · intro i t j hvalue
    obtain ⟨n, m, hi, ht, hj, hparent⟩ := hvalue
    obtain ⟨children, hn⟩ := compare_of_type ht
    have hfits := h.fits hi hj hparent
    rw [hn] at hfits
    cases hm : m.payload with
    | value u8 str => exact ⟨m, u8, str, hj, hm⟩
    | _ =>
      rw [hm] at hfits
      exact absurd hfits (by simp [MatchPayload.holds])
  · intro i t j k hvalue hvalue' hkey
    obtain ⟨n, children, hi, hn, hj⟩ := hvalue.member h
    obtain ⟨n', -, hi', -, hk⟩ := hvalue'.member h
    obtain rfl := Option.some.inj (hi.symm.trans hi')
    exact (h.compare hi hn).distinct j hj k hk hkey
  · intro i t j hvalue
    obtain ⟨n, children, hi, hn, hj⟩ := hvalue.member h
    have hsound := h.compare hi hn
    constructor
    · rintro ⟨n', k, hi', -, hget⟩
      obtain rfl := Option.some.inj (hi.symm.trans hi')
      obtain ⟨e, he, -⟩ := Option.map_eq_some_iff.mp hget
      have hmem := (Table.mem_of_get he).1
      rw [← hsound.hashed]
      cases children with
      | some table => rfl
      | none =>
        rw [hn] at hmem
        exact absurd hmem (by simp [MatchPayload.table])
    · intro hhash
      rw [hsound.members hn, if_pos hhash] at hj
      obtain ⟨e, he, rfl⟩ := List.mem_map.mp hj
      refine ⟨n, e.1, hi, hsound.entries e he, ?_⟩
      have hkeyed := hsound.keyed (h.linked.nodup hi)
      rw [hkeyed.get_eq_some.mpr ⟨he, rfl⟩]
      rfl
  · intro cb
    rw [hinstalled, Option.ne_none_iff_exists']
    constructor
    · rintro ⟨i, hcb⟩
      exact ⟨i, hleaves.callback hcb⟩
    · rintro ⟨i, n, hi, hn⟩
      exact ⟨i, hleaves.leaf hi hn⟩
  · intro i n j m cb hi hn hj hm
    exact Option.some.inj ((hleaves.leaf hi hn).symm.trans (hleaves.leaf hj hm))

end MatchTree

def MatchOp.installed (installed : List Nat) : MatchOp → List Nat
  | .add _ cb => cb :: installed
  | .remove cb => installed.filter (· ≠ cb)

/-- Rules are what the parser returns, and a callback is not added while it is installed. -/
def MatchOp.Allowed (installed : List Nat) : MatchOp → Prop
  | .add components cb => IsRule components ∧ cb ∉ installed
  | .remove _ => True

def AllowedOps : List Nat → List MatchOp → Prop
  | _, [] => True
  | installed, op :: ops => op.Allowed installed ∧ AllowedOps (op.installed installed) ops

instance (installed : List Nat) : DecidablePred (MatchOp.Allowed installed)
  | .add components cb => inferInstanceAs (Decidable (IsRule components ∧ cb ∉ installed))
  | .remove _ => inferInstanceAs (Decidable True)

instance decidableAllowedOps : (installed : List Nat) → (ops : List MatchOp) →
    Decidable (AllowedOps installed ops)
  | _, [] => inferInstanceAs (Decidable True)
  | installed, op :: ops =>
    have := decidableAllowedOps (op.installed installed) ops
    inferInstanceAs (Decidable (op.Allowed installed ∧ AllowedOps (op.installed installed) ops))

namespace MatchTree

theorem apply_spec {T : MatchTree} (h : Shape none T) (hleaves : Leaves T) {installed : List Nat}
    (hinstalled : ∀ cb, cb ∈ installed ↔ T.matchNode cb ≠ none) {op : MatchOp}
    (hop : op.Allowed installed) :
    ∃ T', T.apply op = some T' ∧ Shape none T' ∧ Leaves T' ∧
      ∀ cb, cb ∈ op.installed installed ↔ T'.matchNode cb ≠ none := by
  cases op with
  | add components cb =>
    have hcb : T.matchNode cb = none := not_not.mp (mt (hinstalled cb).mpr hop.2)
    obtain ⟨T', hT', hshape, hleaves', ⟨i, hmatch⟩, -⟩ := busMatchAdd_spec h hleaves hop.1 hcb
    refine ⟨T', hT', hshape, hleaves', fun cb' => ?_⟩
    rw [MatchOp.installed, List.mem_cons, hmatch]
    by_cases he : cb' = cb
    · subst he
      simp
    · rw [update_of_ne he, ← hinstalled cb']
      exact or_iff_right he
  | remove cb =>
    obtain ⟨T', hT', hshape, hleaves', hmatch⟩ := h.busMatchRemove hleaves cb
    refine ⟨T', hT', hshape, hleaves', fun cb' => ?_⟩
    rw [MatchOp.installed, List.mem_filter, hmatch, hinstalled cb']
    by_cases he : cb' = cb
    · subst he
      simp
    · rw [update_of_ne he]
      simp [he]

theorem run_spec (ops : List MatchOp) : ∀ {T : MatchTree} {installed : List Nat}, Shape none T →
    Leaves T → (∀ cb, cb ∈ installed ↔ T.matchNode cb ≠ none) → AllowedOps installed ops →
      ∃ T', run ops T = some T' ∧ Shape none T' ∧ Leaves T' ∧
        ∀ cb, cb ∈ ops.foldl MatchOp.installed installed ↔ T'.matchNode cb ≠ none := by
  induction ops with
  | nil => exact fun h hleaves hinstalled _ => ⟨_, rfl, h, hleaves, hinstalled⟩
  | cons op ops ih =>
    intro T installed h hleaves hinstalled hops
    obtain ⟨T₁, hT₁, h₁, hleaves₁, hinstalled₁⟩ := apply_spec h hleaves hinstalled hops.1
    obtain ⟨T', hT', hrest⟩ := ih h₁ hleaves₁ hinstalled₁ hops.2
    exact ⟨T', by rw [run, hT₁]; exact hT', hrest⟩

theorem empty_shape : Shape none empty := by
  have hnode : ∀ {i n}, empty.node i = some n → i = 0 ∧ n = { payload := .root } := by
    intro i n hi
    simp only [empty] at hi
    split at hi
    · rename_i h0
      exact ⟨h0, (Option.some.inj hi).symm⟩
    · exact absurd hi (by simp)
  refine ⟨⟨?_, ⟨_, rfl, rfl⟩, ?_, ?_, ?_, ?_⟩, ?_, ?_, ?_, ?_, ?_⟩
  · intro i hi
    exact if_neg (Nat.ne_of_gt hi)
  · exact fun hi _ => (hnode hi).1
  · intro i n p hi hp
    obtain ⟨-, rfl⟩ := hnode hi
    exact absurd hp (by simp)
  · intro p pn i hp hmem
    obtain ⟨-, rfl⟩ := hnode hp
    exact absurd hmem (by simp [MatchNode.members, MatchPayload.table])
  · intro i n hi
    obtain ⟨-, rfl⟩ := hnode hi
    exact List.nodup_nil
  · intro i n hi
    obtain ⟨-, rfl⟩ := hnode hi
    exact iff_of_true rfl rfl
  · intro p pn i n _ hi hparent
    obtain ⟨-, rfl⟩ := hnode hi
    exact absurd hparent (by simp)
  · intro i n v vn c cn t t' hi ht'
    obtain ⟨-, rfl⟩ := hnode hi
    exact absurd ht' (by simp [MatchPayload.compareType])
  · intro i n t children hi hn
    obtain ⟨-, rfl⟩ := hnode hi
    exact absurd hn (by simp)
  · intro i n hi hneeds
    obtain ⟨-, rfl⟩ := hnode hi
    exact absurd hneeds (by simp [MatchPayload.needsMembers])

theorem empty_leaves : Leaves empty := by
  refine ⟨fun hi hn => ?_, fun hcb => absurd hcb (by simp [empty])⟩
  simp only [empty] at hi
  split at hi
  · rw [← Option.some.inj hi] at hn
    exact absurd hn (by simp)
  · exact absurd hi (by simp)

/-- After any sequence of rules added and removed the tree is there and well formed, and a rule
that is added next and removed at once leaves it as it is. -/
theorem run_wellFormed (ops : List MatchOp) (hops : AllowedOps [] ops) :
    ∃ T, run ops empty = some T ∧ WellFormed (ops.foldl MatchOp.installed []) T ∧
      ∀ components cb, MatchOp.Allowed (ops.foldl MatchOp.installed []) (.add components cb) →
        ∃ T₁ T₂, T.busMatchAdd components cb = some T₁ ∧ T₁.busMatchRemove cb = some T₂ ∧
          T₂.node = T.node ∧ T₂.matchNode = T.matchNode := by
  obtain ⟨T, hT, h, hleaves, hinstalled⟩ := run_spec ops empty_shape empty_leaves
    (by simp [empty]) hops
  refine ⟨T, hT, h.wellFormed hleaves hinstalled, fun components cb hadd => ?_⟩
  have hcb : T.matchNode cb = none := not_not.mp (mt (hinstalled cb).mpr hadd.2)
  obtain ⟨T₁, hT₁, -, -, -, T₂, hT₂, hnode, hmatch⟩ := busMatchAdd_spec h hleaves hadd.1 hcb
  exact ⟨T₁, T₂, hT₁, hT₂, hnode, hmatch⟩

def sharedOps : List MatchOp :=
  [.add [⟨.messageType, 4, none⟩, ⟨.interface, 0, some [97]⟩] 1,
    .add [⟨.messageType, 4, none⟩, ⟨.pathNamespace, 0, some [47]⟩] 2,
    .add [⟨.messageType, 4, none⟩, ⟨.interface, 0, some [98]⟩] 3,
    .remove 1]

theorem run_wellFormed_shared :
    AllowedOps [] sharedOps ∧
    ∃ T, run sharedOps empty = some T ∧ WellFormed (sharedOps.foldl MatchOp.installed []) T ∧
      ∀ components cb,
        MatchOp.Allowed (sharedOps.foldl MatchOp.installed []) (.add components cb) →
        ∃ T₁ T₂, T.busMatchAdd components cb = some T₁ ∧ T₁.busMatchRemove cb = some T₂ ∧
          T₂.node = T.node ∧ T₂.matchNode = T.matchNode :=
  ⟨by decide, run_wellFormed sharedOps (by decide)⟩

end MatchTree

end Basu
