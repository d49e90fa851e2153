import Mathlib.Data.List.Chain
import Mathlib.Data.List.Nodup
import Mathlib.Logic.Function.Basic

/-! Trees of nodes that are numbered as they are made and point to each other: up to the parent,
down to the members. Nodes come and go without members, one at a time. -/

namespace Lib
open Function

variable {α : Type*}

structure Linked (parent : α → Option Nat) (members : α → List Nat) (node : Nat → Option α)
    (fresh : Nat) : Prop where
  unused : ∀ i, fresh ≤ i → node i = none
  root : ∃ n, node 0 = some n ∧ parent n = none
  orphan : ∀ {i n}, node i = some n → parent n = none → i = 0
  up : ∀ {i n p}, node i = some n → parent n = some p →
    p < i ∧ ∃ pn, node p = some pn ∧ i ∈ members pn
  down : ∀ {p pn i}, node p = some pn → i ∈ members pn → ∃ n, node i = some n ∧ parent n = some p
  nodup : ∀ {i n}, node i = some n → (members n).Nodup

def attach (node : Nat → Option α) (p i : Nat) (pn n : α) : Nat → Option α :=
  update (update node p (some pn)) i (some n)

def detach (node : Nat → Option α) (p i : Nat) (pn : α) : Nat → Option α :=
  update (update node p (some pn)) i none

section Lookup

variable {node : Nat → Option α} {p i j : Nat} {pn n m : α}

theorem attach_new : attach node p i pn n i = some n := update_self ..

theorem attach_parent (h : p ≠ i) : attach node p i pn n p = some pn := by
  rw [attach, update_of_ne h, update_self]

theorem attach_other (hi : j ≠ i) (hp : j ≠ p) : attach node p i pn n j = node j := by
  rw [attach, update_of_ne hi, update_of_ne hp]

theorem attach_cases (h : attach node p i pn n j = some m) :
    j = i ∧ m = n ∨ j ≠ i ∧ j = p ∧ m = pn ∨ j ≠ i ∧ j ≠ p ∧ node j = some m := by
  by_cases hi : j = i
  · rw [hi, attach_new] at h
    exact Or.inl ⟨hi, (Option.some.inj h).symm⟩
  · by_cases hp : j = p
    · subst hp
      rw [attach_parent hi] at h
      exact Or.inr (Or.inl ⟨hi, rfl, (Option.some.inj h).symm⟩)
    · rw [attach_other hi hp] at h
      exact Or.inr (Or.inr ⟨hi, hp, h⟩)

theorem detach_self : detach node p i pn i = none := update_self ..

theorem detach_parent (h : p ≠ i) : detach node p i pn p = some pn := by
  rw [detach, update_of_ne h, update_self]

theorem detach_other (hi : j ≠ i) (hp : j ≠ p) : detach node p i pn j = node j := by
  rw [detach, update_of_ne hi, update_of_ne hp]

theorem detach_cases (h : detach node p i pn j = some m) :
    j ≠ i ∧ (j = p ∧ m = pn ∨ j ≠ p ∧ node j = some m) := by
  by_cases hi : j = i
  · rw [hi, detach_self] at h
    exact absurd h (by simp)
  · by_cases hp : j = p
    · subst hp
      rw [detach_parent hi] at h
      exact ⟨hi, Or.inl ⟨rfl, (Option.some.inj h).symm⟩⟩
    · rw [detach_other hi hp] at h
      exact ⟨hi, Or.inr ⟨hp, h⟩⟩

theorem detach_attach {pn' : α} (hp : node p = some pn) (hi : node i = none) :
    detach (attach node p i pn' n) p i pn = node := by
  funext j
  by_cases hji : j = i
  · rw [hji, detach_self, hi]
  · by_cases hjp : j = p
    · rw [hjp, detach_parent (hjp ▸ hji), hp]
    · rw [detach_other hji hjp, attach_other hji hjp]

end Lookup

namespace Linked

variable {parent : α → Option Nat} {members : α → List Nat} {node : Nat → Option α} {fresh : Nat}
  {p i : Nat} {pn pn' n : α}

theorem lt_fresh (h : Linked parent members node fresh) (hi : node i = some n) : i < fresh := by
  by_contra hge
  rw [h.unused i (not_lt.mp hge)] at hi
  exact absurd hi (by simp)

theorem not_member_fresh (h : Linked parent members node fresh) (hp : node p = some pn) :
    fresh ∉ members pn := by
  intro hmem
  obtain ⟨n, hn, -⟩ := h.down hp hmem
  exact absurd (h.lt_fresh hn) (lt_irrefl _)

theorem attach (h : Linked parent members node fresh) (hp : node p = some pn)
    (hparent : parent pn' = parent pn) (hmem : (members pn').Perm (fresh :: members pn))
    (hn : parent n = some p) (hempty : members n = []) :
    Linked parent members (attach node p fresh pn' n) (fresh + 1) := by
  have hlt := h.lt_fresh hp
  have hne : p ≠ fresh := ne_of_lt hlt
  -- a node that was there is there, with the same parent and no fewer members
  have hkeep : ∀ {j m}, node j = some m → ∃ m', Lib.attach node p fresh pn' n j = some m' ∧
      parent m' = parent m ∧ ∀ k ∈ members m, k ∈ members m' := by
    intro j m hj
    by_cases hjp : j = p
    · subst hjp
      obtain rfl := Option.some.inj (hp.symm.trans hj)
      exact ⟨pn', attach_parent hne, hparent, fun k hk =>
        hmem.mem_iff.mpr (List.mem_cons_of_mem _ hk)⟩
    · exact ⟨m, by rw [attach_other (ne_of_lt (h.lt_fresh hj)) hjp, hj], rfl, fun _ hk => hk⟩
  refine ⟨?_, ?_, ?_, ?_, ?_, ?_⟩
  · intro j hj
    rw [attach_other (by omega) (by omega)]
    exact h.unused j (by omega)
  · obtain ⟨r, hr, hroot⟩ := h.root
    obtain ⟨r', hr', hparent', -⟩ := hkeep hr
    exact ⟨r', hr', hparent'.trans hroot⟩
  · intro j m hj horphan
    rcases attach_cases hj with ⟨-, rfl⟩ | ⟨-, rfl, rfl⟩ | ⟨-, -, hj⟩
    · rw [hn] at horphan
      exact absurd horphan (by simp)
    · exact h.orphan hp (hparent.symm.trans horphan)
    · exact h.orphan hj horphan
  · intro j m q hj hq
    have hold : ∀ {m}, node j = some m → parent m = some q →
        q < j ∧ ∃ qn, Lib.attach node p fresh pn' n q = some qn ∧ j ∈ members qn := by
      intro m hj hq
      obtain ⟨hlt, qn, hqn, hmemq⟩ := h.up hj hq
      obtain ⟨qn', hqn', -, hsub⟩ := hkeep hqn
      exact ⟨hlt, qn', hqn', hsub j hmemq⟩
    rcases attach_cases hj with ⟨rfl, rfl⟩ | ⟨-, rfl, rfl⟩ | ⟨-, -, hj⟩
    · obtain rfl := Option.some.inj (hn.symm.trans hq)
      exact ⟨hlt, pn', attach_parent hne, hmem.mem_iff.mpr List.mem_cons_self⟩
    · exact hold hp (hparent.symm.trans hq)
    · exact hold hj hq
  · intro q qn j hq hj
    have hold : ∀ {qn}, node q = some qn → j ∈ members qn →
        ∃ m, Lib.attach node p fresh pn' n j = some m ∧ parent m = some q := by
      intro qn hq hj
      obtain ⟨m, hm, hpar⟩ := h.down hq hj
      obtain ⟨m', hm', hpar', -⟩ := hkeep hm
      exact ⟨m', hm', hpar'.trans hpar⟩
    rcases attach_cases hq with ⟨-, rfl⟩ | ⟨-, rfl, rfl⟩ | ⟨-, -, hq⟩
    · rw [hempty] at hj
      exact absurd hj (by simp)
    · rcases List.mem_cons.mp (hmem.mem_iff.mp hj) with rfl | hj
      · exact ⟨n, attach_new, hn⟩
      · exact hold hp hj
    · exact hold hq hj
  · intro j m hj
    rcases attach_cases hj with ⟨-, rfl⟩ | ⟨-, rfl, rfl⟩ | ⟨-, -, hj⟩
    · rw [hempty]
      exact List.nodup_nil
    · exact hmem.nodup_iff.mpr (List.nodup_cons.mpr ⟨h.not_member_fresh hp, h.nodup hp⟩)
    · exact h.nodup hj

theorem detach (h : Linked parent members node fresh) (hi : node i = some n)
    (hn : parent n = some p) (hempty : members n = []) (hp : node p = some pn)
    (hparent : parent pn' = parent pn) (hmem : (i :: members pn').Perm (members pn)) :
    Linked parent members (detach node p i pn') fresh := by
  have hpi : p ≠ i := ne_of_lt (h.up hi hn).1
  have hnodup := hmem.nodup_iff.mpr (h.nodup hp)
  rw [List.nodup_cons] at hnodup
  -- a node that stays has the same parent, and the same members without `i`
  have hkeep : ∀ {j m}, j ≠ i → node j = some m → ∃ m', Lib.detach node p i pn' j = some m' ∧
      parent m' = parent m ∧ ∀ k ∈ members m, k ≠ i → k ∈ members m' := by
    intro j m hji hj
    by_cases hjp : j = p
    · subst hjp
      obtain rfl := Option.some.inj (hp.symm.trans hj)
      exact ⟨pn', detach_parent hpi, hparent, fun k hk hki =>
        (List.mem_cons.mp (hmem.mem_iff.mpr hk)).resolve_left hki⟩
    · exact ⟨m, by rw [detach_other hji hjp, hj], rfl, fun _ hk _ => hk⟩
  refine ⟨?_, ?_, ?_, ?_, ?_, ?_⟩
  · intro j hj
    have hlt := h.lt_fresh hp
    have hlt' := h.lt_fresh hi
    rw [detach_other (by omega) (by omega)]
    exact h.unused j hj
  · obtain ⟨r, hr, hroot⟩ := h.root
    have h0 : 0 ≠ i := by
      rintro rfl
      rw [← Option.some.inj (hi.symm.trans hr), hn] at hroot
      exact absurd hroot (by simp)
    obtain ⟨r', hr', hparent', -⟩ := hkeep h0 hr
    exact ⟨r', hr', hparent'.trans hroot⟩
  · intro j m hj horphan
    rcases detach_cases hj with ⟨-, ⟨rfl, rfl⟩ | ⟨-, hj⟩⟩
    · exact h.orphan hp (hparent.symm.trans horphan)
    · exact h.orphan hj horphan
  · intro j m q hj hq
    have hold : ∀ {m}, j ≠ i → node j = some m → parent m = some q →
        q < j ∧ ∃ qn, Lib.detach node p i pn' q = some qn ∧ j ∈ members qn := by
      intro m hji hj hq
      obtain ⟨hlt, qn, hqn, hmemq⟩ := h.up hj hq
      have hqi : q ≠ i := by
        rintro rfl
        rw [← Option.some.inj (hi.symm.trans hqn), hempty] at hmemq
        exact absurd hmemq (by simp)
      obtain ⟨qn', hqn', -, hsub⟩ := hkeep hqi hqn
      exact ⟨hlt, qn', hqn', hsub j hmemq hji⟩
    rcases detach_cases hj with ⟨hji, ⟨rfl, rfl⟩ | ⟨-, hj⟩⟩
    · exact hold hji hp (hparent.symm.trans hq)
    · exact hold hji hj hq
  · intro q qn j hq hj
    have hold : ∀ {qn}, node q = some qn → j ∈ members qn → j ≠ i →
        ∃ m, Lib.detach node p i pn' j = some m ∧ parent m = some q := by
      intro qn hq hj hji
      obtain ⟨m, hm, hpar⟩ := h.down hq hj
      obtain ⟨m', hm', hpar', -⟩ := hkeep hji hm
      exact ⟨m', hm', hpar'.trans hpar⟩
    rcases detach_cases hq with ⟨-, ⟨rfl, rfl⟩ | ⟨hqp, hqn⟩⟩
    · exact hold hp (hmem.mem_iff.mp (List.mem_cons_of_mem _ hj)) fun hji => hnodup.1 (hji ▸ hj)
    · refine hold hqn hj ?_
      rintro rfl
      obtain ⟨m, hm, hpar⟩ := h.down hqn hj
      rw [← Option.some.inj (hi.symm.trans hm), hn] at hpar
      exact hqp (Option.some.inj hpar).symm
  · intro j m hj
    rcases detach_cases hj with ⟨-, ⟨rfl, rfl⟩ | ⟨-, hj⟩⟩
    · exact hnodup.2
    · exact h.nodup hj

end Linked

def IsPath (members : α → List Nat) (node : Nat → Option α) (l : List Nat) : Prop :=
  l.head? = some 0 ∧ l.IsChain fun p i => ∃ pn, node p = some pn ∧ i ∈ members pn

theorem isPath_concat {members : α → List Nat} {node : Nat → Option α} {l : List Nat} {p i : Nat} :
    IsPath members node (l ++ [p, i]) ↔
      IsPath members node (l ++ [p]) ∧ ∃ pn, node p = some pn ∧ i ∈ members pn := by
  have hhead : (l ++ [p, i]).head? = (l ++ [p]).head? := by
    cases l <;> rfl
  rw [IsPath, IsPath, hhead, and_assoc, List.isChain_split, List.isChain_pair]

theorem Linked.exists_path {parent : α → Option Nat} {members : α → List Nat}
    {node : Nat → Option α} {fresh : Nat} (h : Linked parent members node fresh) :
    ∀ (i : Nat) {n : α}, node i = some n → ∃ l, IsPath members node (l ++ [i])
  | i, n, hi => by
    rcases hparent : parent n with _ | p
    · rw [h.orphan hi hparent]
      exact ⟨[], rfl, List.isChain_singleton 0⟩
    · obtain ⟨hlt, pn, hpn, hmem⟩ := h.up hi hparent
      obtain ⟨l, hl⟩ := h.exists_path p hpn
      exact ⟨l ++ [p], by
        rw [List.append_assoc]
        exact isPath_concat.mpr ⟨hl, pn, hpn, hmem⟩⟩

end Lib
