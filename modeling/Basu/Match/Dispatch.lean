import Basu.Match.Run
import Mathlib.Data.List.Nodup

/-! Dispatching a message to match rules. Every walk delivers to leaves that match and have not run
yet, but a leaf that has run hides the rest of its list of siblings from the next walk. -/

namespace Basu
open scoped List

def MatchBus.new : MatchBus where
  matchCallbacks := .nil
  lastIteration := fun _ => 0
  iterationCounter := 0
  matchCallbacksModified := false
  nextSlot := 0
  invoked := []

def MatchBus.built (ops : List MatchChange) : MatchBus := ops.foldl MatchBus.change MatchBus.new

def MatchBus.atIteration (s : MatchBus) (marks : Nat → UInt32) (iteration : UInt32) : MatchBus :=
  { s with
    lastIteration := marks
    iterationCounter := iteration
    matchCallbacksModified := false
    invoked := [] }

theorem MatchBus.ok_new : MatchBus.new.Ok :=
  ⟨trivial, List.nodup_nil, fun _ h => absurd h List.not_mem_nil⟩

theorem MatchBus.ok_built (ops : List MatchChange) : (MatchBus.built ops).Ok :=
  MatchBus.ok_new.foldl ops

theorem MatchBus.Ok.atIteration {s : MatchBus} (h : s.Ok) (marks : Nat → UInt32)
    (iteration : UInt32) : (s.atIteration marks iteration).Ok :=
  ⟨h.distinct, h.nodup, h.bound⟩

structure MatchRule where
  callback : MatchCallback
  components : List Component

structure RuleSet where
  rules : List MatchRule
  nextSlot : Nat

def RuleSet.change (R : RuleSet) : MatchChange → RuleSet
  | .add components callback =>
    ⟨⟨⟨R.nextSlot, callback⟩, components⟩ :: R.rules, R.nextSlot + 1⟩
  | .remove slot => ⟨R.rules.filter (·.callback.slot ≠ slot), R.nextSlot⟩

def RuleSet.built (ops : List MatchChange) : RuleSet := ops.foldl RuleSet.change ⟨[], 0⟩

def RuleSet.matching (R : RuleSet) (m : MatchMessage) : List MatchCallback :=
  (R.rules.filter fun r => r.components.all (·.test m)).map (·.callback)

structure MatchBus.Refines (s : MatchBus) (R : RuleSet) : Prop where
  nextSlot : s.nextSlot = R.nextSlot
  leaves : s.matchCallbacks.leaves ~ R.rules.map (·.callback)
  matching : ∀ m, s.matchCallbacks.matching m ~ R.matching m

theorem RuleSet.matching_filter (rules : List MatchRule) (n slot : Nat) (m : MatchMessage) :
    (RuleSet.mk (rules.filter (·.callback.slot ≠ slot)) n).matching m =
      ((RuleSet.mk rules n).matching m).filter (·.slot ≠ slot) := by
  simp only [RuleSet.matching, List.filter_map, List.filter_filter, Function.comp_def]
  congr 1
  apply List.filter_congr
  intro r _
  exact Bool.and_comm _ _

theorem filter_slot_of_not_installed {s : MatchBus} {slot : Nat} (h : s.installed slot = false) :
    s.matchCallbacks.leaves.filter (·.slot ≠ slot) = s.matchCallbacks.leaves := by
  apply List.filter_eq_self.mpr
  intro cb hcb
  rw [MatchBus.installed, List.any_eq_false] at h
  simpa using h cb hcb

theorem MatchBus.Refines.change {s : MatchBus} {R : RuleSet} (h : s.Refines R)
    (c : MatchChange) : (s.change c).Refines (R.change c) := by
  cases c with
  | add cs callback =>
    refine ⟨congrArg (· + 1) h.nextSlot, ?_, fun m => ?_⟩
    · refine (leaves_busMatchAdd _ cs _).trans ?_
      rw [h.nextSlot]
      exact h.leaves.cons _
    · refine (matching_busMatchAdd m _ cs _).trans ?_
      rw [h.nextSlot]
      refine ((h.matching m).append_left _).trans (List.Perm.of_eq ?_)
      simp only [RuleSet.change, RuleSet.matching, List.filter_cons]
      split <;> simp
  | remove slot =>
    have hleaves := (h.leaves.filter (·.slot ≠ slot))
    simp only [List.filter_map, Function.comp_def] at hleaves
    have hmatching := fun m => (h.matching m).filter (·.slot ≠ slot)
    simp only [MatchBus.change, MatchBus.busSlotDisconnect]
    split
    · refine ⟨h.nextSlot, ?_, fun m => ?_⟩
      · simp only [busMatchRemove, leaves_remove]
        exact hleaves
      · simp only [busMatchRemove, matching_remove]
        exact (hmatching m).trans (List.Perm.of_eq (RuleSet.matching_filter _ _ _ _).symm)
    · rename_i hslot
      have hslot : s.installed slot = false := by simpa using hslot
      rw [filter_slot_of_not_installed hslot] at hleaves
      refine ⟨h.nextSlot, hleaves, fun m => ?_⟩
      have hself : (s.matchCallbacks.matching m).filter (·.slot ≠ slot) =
          s.matchCallbacks.matching m := by
        apply List.filter_eq_self.mpr
        intro cb hcb
        have hcb := s.matchCallbacks.walk_leaves.subset hcb
        rw [← filter_slot_of_not_installed hslot] at hcb
        exact (List.mem_filter.mp hcb).2
      have := hmatching m
      rw [hself] at this
      exact this.trans (List.Perm.of_eq (RuleSet.matching_filter _ _ _ _).symm)

theorem MatchBus.refines_built (ops : List MatchChange) :
    (MatchBus.built ops).Refines (RuleSet.built ops) := by
  have h : ∀ (ops : List MatchChange) (s : MatchBus) (R : RuleSet), s.Refines R →
      (ops.foldl MatchBus.change s).Refines (ops.foldl RuleSet.change R) := by
    intro ops
    induction ops with
    | nil => exact fun _ _ h => h
    | cons c ops ih => exact fun s R h => ih _ _ (h.change c)
  exact h ops _ _ ⟨rfl, List.Perm.refl _, fun _ => List.Perm.refl _⟩

/-! ## One walk with callbacks that leave the rules alone -/

theorem Visits.unmodified {B : MatchHandler} (hB : ∀ slot s, B slot s = (0, [])) {s s' : MatchBus}
    {L : List MatchCallback} (h : Visits B s L s') (hm : s.matchCallbacksModified = false) :
    s'.matchCallbacksModified = false := by
  induction h with
  | nil s => exact hm
  | @cons s s' cb L hm' _ _ ih =>
    refine ih ?_
    unfold MatchBus.visit
    split
    · simpa [MatchBus.invoke, hB, MatchBus.mark] using hm'
    · exact hm'

mutual

theorem Nodes.unmarked_of_mem_walk {P : NodeType → NodeValue → Bool} {cut : Nat → Bool}
    {cb : MatchCallback} : (ns : Nodes) → cb ∈ ns.walk P cut → cut cb.slot = false
  | .nil, h => absurd h List.not_mem_nil
  | .leaf cb' next, h => by
    simp only [Nodes.walk] at h
    split at h
    · exact absurd h List.not_mem_nil
    · rename_i hcut
      rcases List.mem_cons.mp h with rfl | h
      · exact Bool.eq_false_iff.mpr hcut
      · exact next.unmarked_of_mem_walk h
  | .compare t children next, h => by
    rcases List.mem_append.mp h with h | h
    · exact children.unmarked_of_mem_walk h
    · exact next.unmarked_of_mem_walk h

theorem Values.unmarked_of_mem_walk {P : NodeType → NodeValue → Bool} {cut : Nat → Bool}
    {cb : MatchCallback} {t : NodeType} : (vs : Values) → cb ∈ vs.walk P cut t →
      cut cb.slot = false
  | .nil, h => absurd h List.not_mem_nil
  | .value v child next, h => by
    rcases List.mem_append.mp h with h | h
    · split at h
      · exact child.unmarked_of_mem_walk h
      · exact absurd h List.not_mem_nil
    · exact next.unmarked_of_mem_walk h

end

theorem MatchBus.Ok.mem_of_slot_mem {s : MatchBus} (hs : s.Ok) {L : List MatchCallback}
    (hL : ∀ cb ∈ L, cb ∈ s.matchCallbacks.leaves) {cb : MatchCallback}
    (hcb : cb ∈ s.matchCallbacks.leaves) (h : cb.slot ∈ L.map (·.slot)) : cb ∈ L := by
  obtain ⟨cb', hcb', heq⟩ := List.mem_map.mp h
  exact List.inj_on_of_nodup_map hs.nodup (hL cb' hcb') hcb heq ▸ hcb'

theorem MatchBus.Ok.busMatchRun_unmarked {s : MatchBus} (hs : s.Ok) {B : MatchHandler}
    (hB : ∀ slot s, B slot s = (0, [])) (m : MatchMessage)
    (hm : s.matchCallbacksModified = false)
    (hcut : ∀ cb ∈ s.matchCallbacks.leaves, s.marked cb.slot = false) :
    ∃ s' L, busMatchRun B m s.matchCallbacks s = (0, s') ∧ (L.map (·.slot)).Nodup ∧
      L ~ s.matchCallbacks.matching m ∧
      s'.invoked = s.invoked ++ (L.filter (·.callback)).map (·.slot) := by
  obtain ⟨hret, ⟨L, hv, hL⟩, hall⟩ := hs.busMatchRun_walked (B := B) (m := m)
    (fun slot s => by rw [hB]) hm
  have hwalk : s.matchCallbacks.walk m.passes s.marked = s.matchCallbacks.matching m :=
    s.matchCallbacks.walk_congr hcut
  rw [hwalk] at hL hall
  have hsub : ∀ cb ∈ s.matchCallbacks.matching m, cb ∈ s.matchCallbacks.leaves :=
    fun cb h => (Nodes.walk_leaves _).subset h
  have hLs : ∀ cb ∈ L, cb ∈ s.matchCallbacks.leaves := fun cb h => hsub cb (hL cb h)
  obtain ⟨hnd, -⟩ := hv.nodup fun cb h => hs.bound cb (hLs cb h)
  have hmem : ∀ cb, cb ∈ L ↔ cb ∈ s.matchCallbacks.matching m := by
    intro cb
    refine ⟨hL cb, fun h => hs.mem_of_slot_mem hLs (hsub cb h) ?_⟩
    have hmk := hall (hv.unmodified hB hm) cb h
    rcases (hv.marked (hs.bound cb (hsub cb h))).mp hmk with hmk | hmk
    · exact absurd (hcut cb (hsub cb h)) (by rw [hmk]; simp)
    · exact hmk
  have hperm : L ~ s.matchCallbacks.matching m := by
    refine (List.perm_ext_iff_of_nodup (List.Nodup.of_map _ hnd) ?_).mpr hmem
    exact (List.Nodup.of_map _ hs.nodup).sublist (Nodes.walk_leaves _)
  exact ⟨_, L, Prod.ext hret rfl, hnd, hperm, hv.invoked⟩

theorem busMatchRun_invokes (ops : List MatchChange) (m : MatchMessage) (marks : Nat → UInt32)
    (iteration : UInt32) (B : MatchHandler) (hB : ∀ slot s, B slot s = (0, []))
    (hmarks : ∀ cb ∈ (MatchBus.built ops).matchCallbacks.leaves, marks cb.slot ≠ iteration) :
    ∃ s', busMatchRun B m (MatchBus.built ops).matchCallbacks
        ((MatchBus.built ops).atIteration marks iteration) = (0, s') ∧
      s'.invoked.Nodup ∧
      s'.invoked ~ (((RuleSet.built ops).matching m).filter (·.callback)).map (·.slot) := by
  obtain ⟨s', L, hrun, hnd, hperm, hinv⟩ :=
    ((MatchBus.ok_built ops).atIteration marks iteration).busMatchRun_unmarked hB m rfl
      fun cb hcb => decide_eq_false (hmarks cb hcb)
  have hinv : s'.invoked = (L.filter (·.callback)).map (·.slot) := hinv
  refine ⟨s', hrun, ?_, ?_⟩
  · rw [hinv]
    exact hnd.sublist (List.filter_sublist.map _)
  · rw [hinv]
    exact ((hperm.trans ((MatchBus.refines_built ops).matching m)).filter _).map _

def plainSignal : MatchMessage where
  type := 4
  sender := none
  destination := none
  interface := none
  member := none
  path := none
  wellKnownNames := none
  arg := fun _ => none
  argStrv := fun _ => none

def signalRule : List Component := [⟨.messageType, 4, []⟩]

theorem busMatchRun_invokes_signalRule :
    ∃ s', busMatchRun (fun _ _ => (0, [])) plainSignal
        (MatchBus.built [.add signalRule true, .add [] true, .remove 1]).matchCallbacks
        ((MatchBus.built [.add signalRule true, .add [] true, .remove 1]).atIteration
          (fun _ => 0) 1) = (0, s') ∧
      s'.invoked.Nodup ∧
      s'.invoked ~
        (((RuleSet.built [.add signalRule true, .add [] true, .remove 1]).matching
          plainSignal).filter (·.callback)).map (·.slot) :=
  busMatchRun_invokes _ plainSignal (fun _ => 0) 1 (fun _ _ => (0, [])) (fun _ _ => rfl)
    (fun _ _ => by decide)

/-! ## `process_match` -/

def MatchBus.unmodified (s : MatchBus) : MatchBus := { s with matchCallbacksModified := false }

inductive Dispatch (B : MatchHandler) (m : MatchMessage) : MatchBus → List MatchBus → MatchBus → Prop
  | last {s s' : MatchBus} (run : busMatchRun B m s.matchCallbacks s.unmodified = (0, s'))
      (unmodified : s'.matchCallbacksModified = false) : Dispatch B m s [s] s'
  | again {s s₁ s' : MatchBus} {walks : List MatchBus}
      (run : busMatchRun B m s.matchCallbacks s.unmodified = (0, s₁))
      (modified : s₁.matchCallbacksModified = true) (rest : Dispatch B m s₁ walks s') :
      Dispatch B m s (s :: walks) s'

section Dispatch

variable {B : MatchHandler} {m : MatchMessage}

theorem MatchBus.Ok.unmodified {s : MatchBus} (h : s.Ok) : s.unmodified.Ok :=
  ⟨h.distinct, h.nodup, h.bound⟩

theorem MatchBus.Ok.walked {s : MatchBus} (h : s.Ok) (hB : ∀ slot s, (B slot s).1 = 0) :
    Walked B (s.matchCallbacks.walk m.passes s.marked) s.unmodified
      (busMatchRun B m s.matchCallbacks s.unmodified) :=
  h.unmodified.busMatchRun_walked hB rfl

structure Progress (s w : MatchBus) : Prop where
  ok : w.Ok
  kept : s.Kept w
  marked : ∀ slot < s.nextSlot, s.marked slot = true → w.marked slot = true
  count : ∀ cb ∈ s.matchCallbacks.leaves, w.invoked.count cb.slot = s.invoked.count cb.slot +
    if cb.callback && w.marked cb.slot && !s.marked cb.slot then 1 else 0

theorem Progress.refl {s : MatchBus} (hs : s.Ok) : Progress s s := by
  refine ⟨hs, MatchBus.Kept.refl s, fun _ _ h => h, fun cb _ => ?_⟩
  cases cb.callback <;> cases s.marked cb.slot <;> simp

theorem count_visited {L : List MatchCallback} (hnd : (L.map (·.slot)).Nodup)
    {cb : MatchCallback} (hcb : ∀ cb' ∈ L, cb'.slot = cb.slot → cb' = cb) :
    ((L.filter (·.callback)).map (·.slot)).count cb.slot =
      if cb.callback && decide (cb.slot ∈ L.map (·.slot)) then 1 else 0 := by
  have hnd' : ((L.filter (·.callback)).map (·.slot)).Nodup :=
    hnd.sublist (List.filter_sublist.map _)
  rw [hnd'.count]
  refine if_congr ?_ rfl rfl
  simp only [Bool.and_eq_true, decide_eq_true_eq, List.mem_map, List.mem_filter]
  constructor
  · rintro ⟨cb', ⟨hmem, hc⟩, heq⟩
    rw [← hcb cb' hmem heq]
    exact ⟨hc, cb', hmem, rfl⟩
  · rintro ⟨hc, cb', hmem, heq⟩
    have := hcb cb' hmem heq
    exact ⟨cb', ⟨hmem, by rw [this]; exact hc⟩, heq⟩

theorem Progress.visits {s w w' : MatchBus} {L : List MatchCallback} (hs : s.Ok)
    (h : Progress s w) (hv : Visits B w.unmodified L w')
    (hL : ∀ cb ∈ L, cb ∈ w.matchCallbacks.leaves) : Progress s w' := by
  have hbound : ∀ cb ∈ L, cb.slot < w.unmodified.nextSlot := fun cb hcb => h.ok.bound cb (hL cb hcb)
  have hkept : w.Kept w' := ⟨hv.kept.nextSlot, hv.kept.iterationCounter, hv.kept.leaves,
    hv.kept.matching⟩
  obtain ⟨hnd, hun⟩ := hv.nodup hbound
  refine ⟨hv.ok h.ok.unmodified, h.kept.trans hkept, fun slot hslot hmk => ?_, fun cb hcb => ?_⟩
  · exact (hv.marked (hslot.trans_le h.kept.nextSlot)).mpr (Or.inl (h.marked slot hslot hmk))
  · have hslot := hs.bound cb hcb
    have huniq : ∀ cb' ∈ L, cb'.slot = cb.slot → cb' = cb := by
      intro cb' hcb' heq
      have hold := h.kept.leaves cb' (hL cb' hcb') (heq ▸ hslot)
      exact List.inj_on_of_nodup_map hs.nodup hold hcb heq
    have hmk := hv.marked (hslot.trans_le h.kept.nextSlot)
    rw [hv.invoked, List.count_append, count_visited hnd huniq,
      show w.unmodified.invoked = w.invoked from rfl, h.count cb hcb, Nat.add_assoc]
    congr 1
    by_cases hmem : cb.slot ∈ L.map (·.slot)
    · -- visited now: it was marked neither before this walk nor before the dispatch
      obtain ⟨cb', hcb', heq⟩ := List.mem_map.mp hmem
      have hw : w.marked cb.slot = false := heq ▸ hun cb' hcb'
      have hsm : s.marked cb.slot = false := by
        rw [Bool.eq_false_iff]
        intro hm
        exact absurd (h.marked _ hslot hm) (by rw [hw]; simp)
      simp [hmem, hw, hsm, hmk.mpr (Or.inr hmem)]
    · have hw : w'.marked cb.slot = w.marked cb.slot := by
        rw [Bool.eq_iff_iff, hmk]
        exact ⟨fun hm => hm.resolve_right hmem, Or.inl⟩
      simp [hmem, hw]

/-! ## When every rule is served -/

mutual

/-- No marked leaf stands, in a list of siblings, before a node with a matching leaf below it that
is of concern and not marked. -/
def Nodes.Clear (m : MatchMessage) (marked : Nat → Bool) (concern : MatchCallback → Bool) :
    Nodes → Prop
  | .nil => True
  | .leaf cb next =>
    (marked cb.slot = true → ∀ cb' ∈ next.matching m, concern cb' = true →
      marked cb'.slot = true) ∧ next.Clear m marked concern
  | .compare t children next => children.Clear m marked concern t ∧ next.Clear m marked concern

def Values.Clear (m : MatchMessage) (marked : Nat → Bool) (concern : MatchCallback → Bool)
    (t : NodeType) : Values → Prop
  | .nil => True
  | .value v child next =>
    (v.test t m = true → child.Clear m marked concern) ∧ next.Clear m marked concern t

end

section Clear

variable {marked : Nat → Bool} {concern : MatchCallback → Bool}

theorem forall_served_append {a b c d k l : List MatchCallback}
    (ha : ∀ cb ∈ a, cb ∈ k) (hb : ∀ cb ∈ b, cb ∈ l) (hc : ∀ cb ∈ c, cb ∈ k)
    (hd : ∀ cb ∈ d, cb ∈ l) (hne : ∀ x ∈ k, ∀ y ∈ l, x.slot ≠ y.slot) :
    (∀ cb ∈ a ++ b, concern cb = true → marked cb.slot = true ∨ cb ∈ c ++ d) ↔
      (∀ cb ∈ a, concern cb = true → marked cb.slot = true ∨ cb ∈ c) ∧
        ∀ cb ∈ b, concern cb = true → marked cb.slot = true ∨ cb ∈ d := by
  simp only [List.mem_append, or_imp, forall_and]
  refine and_congr ?_ ?_
  · refine forall₂_congr fun cb hcb => forall_congr' fun _ => ?_
    refine or_congr_right ⟨fun h => h.resolve_right fun h' => ?_, Or.inl⟩
    exact hne cb (ha cb hcb) cb (hd cb h') rfl
  · refine forall₂_congr fun cb hcb => forall_congr' fun _ => ?_
    refine or_congr_right ⟨fun h => h.resolve_left fun h' => ?_, Or.inr⟩
    exact hne cb (hc cb h') cb (hb cb hcb) rfl

mutual

theorem Nodes.clear_iff : (ns : Nodes) → (ns.leaves.map (·.slot)).Nodup →
    (ns.Clear m marked concern ↔ ∀ cb ∈ ns.matching m, concern cb = true →
      marked cb.slot = true ∨ cb ∈ ns.walk m.passes marked)
  | .nil, _ => by simp [Nodes.Clear, Nodes.matching, Nodes.walk]
  | .leaf cb next, hnd => by
    rw [Nodes.leaves_leaf] at hnd
    obtain ⟨-, hnd', hne⟩ := nodup_slots_append (K := [cb]) hnd
    have hmatch : (Nodes.leaf cb next).matching m = [cb] ++ next.matching m :=
      Nodes.walk_leaf_uncut cb next
    have ih := next.clear_iff hnd'
    simp only [Nodes.Clear, Nodes.walk, hmatch]
    cases hmk : marked cb.slot with
    | true =>
      simp only [forall_const, if_true, List.not_mem_nil, or_false, List.singleton_append,
        List.mem_cons, forall_eq_or_imp, hmk, implies_true, true_and]
      refine ⟨fun h => h.1, fun h => ⟨h, ih.mpr fun cb' hcb' hc => Or.inl (h cb' hcb' hc)⟩⟩
    | false =>
      simp only [Bool.false_eq_true, false_imp_iff, true_and, if_false]
      rw [ih, show cb :: next.walk m.passes marked = [cb] ++ next.walk m.passes marked from rfl,
        forall_served_append (fun _ h => h) (fun _ h => Nodes.mem_leaves_of_matching h)
          (fun _ h => h) (fun _ h => (Nodes.walk_leaves _).subset h) hne]
      exact ⟨fun h => ⟨fun _ h' _ => Or.inr h', h⟩, fun h => h.2⟩
  | .compare t children next, hnd => by
    rw [Nodes.leaves_compare] at hnd
    obtain ⟨hndc, hnd', hne⟩ := nodup_slots_append hnd
    have hmatch : (Nodes.compare t children next).matching m =
        children.walk m.passes uncut t ++ next.matching m := rfl
    simp only [Nodes.Clear, Nodes.walk, hmatch]
    rw [forall_served_append (fun _ h => (Values.walk_leaves _ t).subset h)
      (fun _ h => Nodes.mem_leaves_of_matching h) (fun _ h => (Values.walk_leaves _ t).subset h)
      (fun _ h => (Nodes.walk_leaves _).subset h) hne,
      children.clear_iff hndc, next.clear_iff hnd']

theorem Values.clear_iff {t : NodeType} : (vs : Values) → ((vs.leaves t).map (·.slot)).Nodup →
    (vs.Clear m marked concern t ↔ ∀ cb ∈ vs.walk m.passes uncut t, concern cb = true →
      marked cb.slot = true ∨ cb ∈ vs.walk m.passes marked t)
  | .nil, _ => by simp [Values.Clear, Values.walk]
  | .value v child next, hnd => by
    rw [Values.leaves_value] at hnd
    obtain ⟨hndc, hnd', hne⟩ := nodup_slots_append hnd
    simp only [Values.Clear, Values.walk]
    rw [next.clear_iff hnd']
    by_cases ht : v.test t m = true
    · simp only [ht, forall_const, if_pos (show m.passes t v = true from ht)]
      rw [forall_served_append (fun _ h => (Nodes.walk_leaves _).subset h)
        (fun _ h => (Values.walk_leaves _ t).subset h) (fun _ h => (Nodes.walk_leaves _).subset h)
        (fun _ h => (Values.walk_leaves _ t).subset h) hne, child.clear_iff hndc]
      rfl
    · simp only [ht, Bool.false_eq_true, false_imp_iff, true_and, List.nil_append,
        if_neg (show ¬ m.passes t v = true from ht)]

end

end Clear

/-- Every callback whose rule matches, that was installed before and still is, was invoked
once. -/
def DeliveredOnce (m : MatchMessage) (s s' : MatchBus) : Prop :=
  ∀ cb ∈ s.matchCallbacks.matching m, cb.callback = true → cb ∈ s'.matchCallbacks.leaves →
    s'.invoked.count cb.slot = s.invoked.count cb.slot + 1

/-- The leaves of concern to a dispatch that starts in `s`: those there were, with a callback. -/
def MatchBus.concern (s : MatchBus) (cb : MatchCallback) : Bool :=
  cb.callback && decide (cb.slot < s.nextSlot)

/-- What the walk from `w` on needs, in a dispatch that started in `s`, to serve every rule: the
tree is clear, and no rule carried the mark of this iteration before the dispatch. -/
structure MatchBus.Unobstructed (m : MatchMessage) (s w : MatchBus) : Prop where
  clear : w.matchCallbacks.Clear m w.marked s.concern
  notYetRun : ∀ cb ∈ w.matchCallbacks.matching m, s.concern cb = true → s.marked cb.slot = false

theorem Progress.last {s w s' : MatchBus} (hs : s.Ok) (h : Progress s w)
    (hB : ∀ slot s, (B slot s).1 = 0)
    (hrun : busMatchRun B m w.matchCallbacks w.unmodified = (0, s'))
    (hm : s'.matchCallbacksModified = false) :
    DeliveredOnce m s s' ↔ MatchBus.Unobstructed m s w := by
  have hw := h.ok.walked (m := m) hB
  rw [hrun] at hw
  obtain ⟨L, hv, hL⟩ := hw.visits
  have hLs : ∀ cb ∈ L, cb ∈ w.matchCallbacks.leaves := fun cb hcb =>
    (Nodes.walk_leaves _).subset (hL cb hcb)
  have htree : s'.matchCallbacks = w.matchCallbacks := hv.matchCallbacks_eq hm
  have hp : Progress s s' := h.visits hs hv hLs
  -- the leaves of concern that are left are the matching ones of the last tree
  have hconcern : ∀ cb, (cb ∈ s.matchCallbacks.matching m ∧ cb.callback = true ∧
      cb ∈ s'.matchCallbacks.leaves) ↔
      cb ∈ w.matchCallbacks.matching m ∧ s.concern cb = true := by
    intro cb
    simp only [MatchBus.concern, Bool.and_eq_true, decide_eq_true_eq, htree]
    constructor
    · rintro ⟨hmatch, hc, hleaf⟩
      have hslot := hs.bound cb (Nodes.mem_leaves_of_matching hmatch)
      exact ⟨(h.kept.matching m cb hslot hleaf).mpr hmatch, hc, hslot⟩
    · rintro ⟨hmatch, hc, hslot⟩
      have hleaf : cb ∈ w.matchCallbacks.leaves := Nodes.mem_leaves_of_matching hmatch
      exact ⟨(h.kept.matching m cb hslot hleaf).mp hmatch, hc, hleaf⟩
  -- such a leaf is marked at the end iff it was before the walk or the walk came to it
  have hmarked : ∀ cb ∈ w.matchCallbacks.matching m, s'.marked cb.slot = true ↔
      w.marked cb.slot = true ∨ cb ∈ w.matchCallbacks.walk m.passes w.marked := by
    intro cb hcb
    have hleaf : cb ∈ w.matchCallbacks.leaves := Nodes.mem_leaves_of_matching hcb
    rw [hv.marked (h.ok.bound cb hleaf)]
    refine or_congr_right ⟨fun hmem => hL cb (h.ok.mem_of_slot_mem hLs hleaf hmem), fun hmem => ?_⟩
    exact ((hv.marked (h.ok.bound cb hleaf)).mp (hw.complete hm cb hmem)).resolve_left
      fun hmk => absurd (Nodes.unmarked_of_mem_walk _ hmem) (Bool.eq_false_iff.not_left.mpr hmk)
  have hcount : ∀ cb ∈ w.matchCallbacks.matching m, s.concern cb = true →
      (s'.invoked.count cb.slot = s.invoked.count cb.slot + 1 ↔
        s.marked cb.slot = false ∧
          (w.marked cb.slot = true ∨ cb ∈ w.matchCallbacks.walk m.passes w.marked)) := by
    intro cb hcb hc
    obtain ⟨hold, hcall, -⟩ := (hconcern cb).mpr ⟨hcb, hc⟩
    rw [hp.count cb (Nodes.mem_leaves_of_matching hold), ← hmarked cb hcb, hcall]
    cases s.marked cb.slot <;> cases s'.marked cb.slot <;> simp
  constructor
  · intro hd
    have hall : ∀ cb ∈ w.matchCallbacks.matching m, s.concern cb = true →
        s.marked cb.slot = false ∧
          (w.marked cb.slot = true ∨ cb ∈ w.matchCallbacks.walk m.passes w.marked) := by
      intro cb hcb hc
      obtain ⟨hold, hcall, hleaf⟩ := (hconcern cb).mpr ⟨hcb, hc⟩
      exact (hcount cb hcb hc).mp (hd cb hold hcall hleaf)
    exact ⟨(Nodes.clear_iff _ h.ok.nodup).mpr fun cb hcb hc => (hall cb hcb hc).2,
      fun cb hcb hc => (hall cb hcb hc).1⟩
  · intro hu cb hold hcall hleaf
    obtain ⟨hcb, hc⟩ := (hconcern cb).mp ⟨hold, hcall, hleaf⟩
    exact (hcount cb hcb hc).mpr
      ⟨hu.notYetRun cb hcb hc, (Nodes.clear_iff _ h.ok.nodup).mp hu.clear cb hcb hc⟩

theorem Progress.dispatch {s w s' : MatchBus} {walks : List MatchBus} (hs : s.Ok)
    (h : Progress s w) (hB : ∀ slot s, (B slot s).1 = 0) (hd : Dispatch B m w walks s') :
    ∃ w', walks.getLast? = some w' ∧
      (DeliveredOnce m s s' ↔ MatchBus.Unobstructed m s w') := by
  induction hd with
  | @last w s' hrun hm => exact ⟨w, rfl, h.last hs hB hrun hm⟩
  | @again w w₁ s' walks hrun hm hrest ih =>
    have hw := h.ok.walked (m := m) hB
    rw [hrun] at hw
    obtain ⟨L, hv, hL⟩ := hw.visits
    obtain ⟨w', hlast, hiff⟩ := ih (h.visits hs hv fun cb hcb =>
      (Nodes.walk_leaves _).subset (hL cb hcb))
    refine ⟨w', ?_, hiff⟩
    rw [List.getLast?_cons, hlast]
    rfl

end Dispatch

end Basu
