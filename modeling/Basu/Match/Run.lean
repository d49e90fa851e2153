import Basu.Match.Tree
import Mathlib.Logic.Function.Basic

/-! The walk over the match tree. A leaf found marked ends its list of siblings, so the leaves a
walk comes to are those of `Nodes.walk` with the marked slots cut off. -/

namespace Basu

inductive MatchChange
  | add (components : List Component) (callback : Bool)
  | remove (slot : Nat)
  deriving Repr

/-- The part of a bus that match rules live in; `nextSlot` counts the slots allocated so far and
`invoked` lists the callbacks run, by slot. -/
structure MatchBus where
  matchCallbacks : Nodes
  lastIteration : Nat → UInt32
  iterationCounter : UInt32
  matchCallbacksModified : Bool
  nextSlot : Nat
  invoked : List Nat

namespace MatchBus

def marked (s : MatchBus) (slot : Nat) : Bool := s.lastIteration slot = s.iterationCounter

def mark (s : MatchBus) (slot : Nat) : MatchBus :=
  { s with lastIteration := Function.update s.lastIteration slot s.iterationCounter }

def busAddMatchFull (s : MatchBus) (components : List Component) (callback : Bool) : MatchBus :=
  { s with
    lastIteration := Function.update s.lastIteration s.nextSlot 0
    nextSlot := s.nextSlot + 1
    matchCallbacksModified := true
    matchCallbacks := busMatchAdd ⟨s.nextSlot, callback⟩ components s.matchCallbacks }

def installed (s : MatchBus) (slot : Nat) : Bool := s.matchCallbacks.leaves.any (·.slot = slot)

def busSlotDisconnect (s : MatchBus) (slot : Nat) : MatchBus :=
  if s.installed slot then
    { s with
      matchCallbacksModified := true
      matchCallbacks := busMatchRemove s.matchCallbacks slot }
  else s

def change (s : MatchBus) : MatchChange → MatchBus
  | .add components callback => s.busAddMatchFull components callback
  | .remove slot => s.busSlotDisconnect slot

end MatchBus

/-- What the callback of a slot does when it is run on a bus: the result `bus_maybe_reply_error`
makes of it, and the rules it adds and removes. -/
abbrev MatchHandler := Nat → MatchBus → Int × List MatchChange

def MatchBus.invoke (B : MatchHandler) (s : MatchBus) (slot : Nat) : Int × MatchBus :=
  ((B slot s).1,
    (B slot s).2.foldl MatchBus.change { s with invoked := s.invoked ++ [slot] })

/-! ## `bus_match_run` -/

def unlessReturned (out : Int × MatchBus) (k : MatchBus → Int × MatchBus) : Int × MatchBus :=
  if out.1 ≠ 0 then out else k out.2

def strvForeach (f : Str → MatchBus → Int × MatchBus) : List Str → MatchBus → Int × MatchBus
  | [], s => (0, s)
  | i :: strv, s => unlessReturned (f i s) fun s => strvForeach f strv s

mutual

def busMatchRun (B : MatchHandler) (m : MatchMessage) : Nodes → MatchBus → Int × MatchBus
  | .nil, s => (0, s)
  | .leaf cb next, s =>
    if s.matchCallbacksModified then (0, s)
    else if s.marked cb.slot then (0, s)
    else if cb.callback then
      unlessReturned ((s.mark cb.slot).invoke B cb.slot) fun s =>
        if s.matchCallbacksModified then (0, s) else busMatchRun B m next s
    else busMatchRun B m next (s.mark cb.slot)
  | .compare t children next, s =>
    if s.matchCallbacksModified then (0, s)
    else
      unlessReturned
        (if busMatchCanHash t then
          match m.testStr t with
          | some str => busMatchRunFound B m (fun v => v.str = str) children s
          | none =>
            match m.testStrv t with
            | some strv =>
              strvForeach (fun i s => busMatchRunFound B m (fun v => v.str = i) children s) strv s
            | none =>
              if t = .messageType then
                busMatchRunFound B m (fun v => v.u8 = m.testU8 t) children s
              else (0, s)
        else busMatchRunTests B m t children s)
        fun s => if s.matchCallbacksModified then (0, s) else busMatchRun B m next s

def busMatchRunFound (B : MatchHandler) (m : MatchMessage) (p : NodeValue → Bool) :
    Values → MatchBus → Int × MatchBus
  | .nil, s => (0, s)
  | .value v child next, s =>
    if p v then busMatchRun B m child s else busMatchRunFound B m p next s

def busMatchRunTests (B : MatchHandler) (m : MatchMessage) (t : NodeType) :
    Values → MatchBus → Int × MatchBus
  | .nil, s => (0, s)
  | .value v child next, s =>
    if v.test t m then
      unlessReturned (busMatchRun B m child s) fun s =>
        if s.matchCallbacksModified then (0, s) else busMatchRunTests B m t next s
    else busMatchRunTests B m t next s

end

/-! ## What changing the rules keeps -/

/-- Value nodes are distinct, and every leaf has a slot of its own. -/
structure MatchBus.Ok (s : MatchBus) : Prop where
  distinct : s.matchCallbacks.Distinct
  nodup : (s.matchCallbacks.leaves.map (·.slot)).Nodup
  bound : ∀ cb ∈ s.matchCallbacks.leaves, cb.slot < s.nextSlot

structure MatchBus.Kept (s s' : MatchBus) : Prop where
  nextSlot : s.nextSlot ≤ s'.nextSlot
  iterationCounter : s'.iterationCounter = s.iterationCounter
  leaves : ∀ cb ∈ s'.matchCallbacks.leaves, cb.slot < s.nextSlot → cb ∈ s.matchCallbacks.leaves
  matching : ∀ (m : MatchMessage) (cb : MatchCallback), cb.slot < s.nextSlot →
    cb ∈ s'.matchCallbacks.leaves →
      (cb ∈ s'.matchCallbacks.matching m ↔ cb ∈ s.matchCallbacks.matching m)

structure MatchBus.Changed (s s' : MatchBus) : Prop extends MatchBus.Kept s s' where
  lastIteration : ∀ slot < s.nextSlot, s'.lastIteration slot = s.lastIteration slot
  invoked : s'.invoked = s.invoked

namespace MatchBus

theorem Kept.refl (s : MatchBus) : Kept s s where
  nextSlot := Nat.le_refl _
  iterationCounter := rfl
  leaves := fun _ h _ => h
  matching := fun _ _ _ _ => Iff.rfl

theorem Kept.trans {s s' s'' : MatchBus} (h : Kept s s') (h' : Kept s' s'') : Kept s s'' where
  nextSlot := h.nextSlot.trans h'.nextSlot
  iterationCounter := h'.iterationCounter.trans h.iterationCounter
  leaves := fun cb hcb hs => h.leaves cb (h'.leaves cb hcb (hs.trans_le h.nextSlot)) hs
  matching := fun m cb hs hcb =>
    (h'.matching m cb (hs.trans_le h.nextSlot) hcb).trans
      (h.matching m cb hs (h'.leaves cb hcb (hs.trans_le h.nextSlot)))

theorem Changed.refl (s : MatchBus) : Changed s s where
  toKept := Kept.refl s
  lastIteration := fun _ _ => rfl
  invoked := rfl

theorem Changed.trans {s s' s'' : MatchBus} (h : Changed s s') (h' : Changed s' s'') :
    Changed s s'' where
  toKept := h.toKept.trans h'.toKept
  lastIteration := fun slot hs =>
    (h'.lastIteration slot (hs.trans_le h.nextSlot)).trans (h.lastIteration slot hs)
  invoked := h'.invoked.trans h.invoked

theorem changed_busAddMatchFull (s : MatchBus) (cs : List Component) (callback : Bool) :
    Changed s (s.busAddMatchFull cs callback) where
  nextSlot := Nat.le_succ _
  iterationCounter := rfl
  lastIteration := fun slot hs => Function.update_of_ne (Nat.ne_of_lt hs) _ _
  invoked := rfl
  leaves := by
    intro cb hcb hs
    rcases List.mem_cons.mp ((leaves_busMatchAdd _ cs _).mem_iff.mp hcb) with rfl | hcb
    · exact absurd hs (Nat.lt_irrefl _)
    · exact hcb
  matching := by
    intro m cb hs _
    rw [busAddMatchFull, (matching_busMatchAdd m _ cs _).mem_iff, List.mem_append]
    refine ⟨fun h => h.resolve_left fun h' => ?_, Or.inr⟩
    split at h'
    · rw [List.mem_singleton.mp h'] at hs
      exact absurd hs (Nat.lt_irrefl _)
    · exact absurd h' List.not_mem_nil

theorem changed_busSlotDisconnect (s : MatchBus) (slot : Nat) :
    Changed s (s.busSlotDisconnect slot) := by
  unfold busSlotDisconnect
  split
  · refine ⟨⟨Nat.le_refl _, rfl, ?_, ?_⟩, fun _ _ => rfl, rfl⟩
    · intro cb hcb _
      simp only [busMatchRemove, leaves_remove] at hcb
      exact List.mem_of_mem_filter hcb
    · intro m cb _ hcb
      simp only [busMatchRemove, leaves_remove, List.mem_filter] at hcb
      simp only [busMatchRemove, matching_remove, List.mem_filter, hcb.2, and_true]
  · exact Changed.refl s

theorem changed_change (s : MatchBus) (c : MatchChange) : Changed s (s.change c) := by
  cases c with
  | add components callback => exact s.changed_busAddMatchFull components callback
  | remove slot => exact s.changed_busSlotDisconnect slot

theorem Ok.change {s : MatchBus} (h : s.Ok) (c : MatchChange) : (s.change c).Ok := by
  cases c with
  | add cs callback =>
    have hp := leaves_busMatchAdd ⟨s.nextSlot, callback⟩ cs s.matchCallbacks
    refine ⟨distinct_busMatchAdd _ cs h.distinct, ?_, ?_⟩
    · refine (hp.map _).nodup_iff.mpr ?_
      rw [List.map_cons, List.nodup_cons]
      refine ⟨fun hmem => ?_, h.nodup⟩
      obtain ⟨cb, hcb, hslot⟩ := List.mem_map.mp hmem
      exact absurd (h.bound cb hcb) (by rw [hslot]; exact Nat.lt_irrefl _)
    · intro cb hcb
      rcases List.mem_cons.mp (hp.mem_iff.mp hcb) with rfl | hcb
      · exact Nat.lt_succ_self _
      · exact (h.bound cb hcb).trans (Nat.lt_succ_self _)
  | remove slot =>
    simp only [MatchBus.change, busSlotDisconnect]
    split
    · refine ⟨s.matchCallbacks.distinct_remove slot h.distinct, ?_, ?_⟩
      · simp only [busMatchRemove, leaves_remove]
        exact h.nodup.sublist (List.filter_sublist.map _)
      · intro cb hcb
        simp only [busMatchRemove, leaves_remove] at hcb
        exact h.bound cb (List.mem_of_mem_filter hcb)
    · exact h

theorem changed_foldl (changes : List MatchChange) (s : MatchBus) :
    Changed s (changes.foldl MatchBus.change s) := by
  induction changes generalizing s with
  | nil => exact Changed.refl s
  | cons c changes ih => exact (s.changed_change c).trans (ih _)

theorem Ok.foldl {s : MatchBus} (h : s.Ok) (changes : List MatchChange) :
    (changes.foldl MatchBus.change s).Ok := by
  induction changes generalizing s with
  | nil => exact h
  | cons c changes ih => exact ih (h.change c)

end MatchBus

def MatchBus.visit (B : MatchHandler) (s : MatchBus) (cb : MatchCallback) : MatchBus :=
  if cb.callback then ((s.mark cb.slot).invoke B cb.slot).2 else s.mark cb.slot

/-- Leaves visited one after the other, none of them marked when its turn comes and none after
the tree was changed. -/
inductive Visits (B : MatchHandler) : MatchBus → List MatchCallback → MatchBus → Prop
  | nil (s : MatchBus) : Visits B s [] s
  | cons {s s' : MatchBus} {cb : MatchCallback} {L : List MatchCallback}
      (unmodified : s.matchCallbacksModified = false) (unmarked : s.marked cb.slot = false)
      (rest : Visits B (s.visit B cb) L s') : Visits B s (cb :: L) s'

section Visits

variable {B : MatchHandler} {m : MatchMessage} {s s' s'' : MatchBus} {cb : MatchCallback}
  {L L' : List MatchCallback}

def MatchBus.entered (s : MatchBus) (cb : MatchCallback) : MatchBus :=
  { s.mark cb.slot with invoked := s.invoked ++ if cb.callback then [cb.slot] else [] }

theorem MatchBus.visit_changed (B : MatchHandler) (s : MatchBus) (cb : MatchCallback) :
    (s.entered cb).Changed (s.visit B cb) := by
  unfold MatchBus.visit MatchBus.entered
  split
  · exact MatchBus.changed_foldl _ _
  · rw [List.append_nil]
    exact MatchBus.Changed.refl _

theorem MatchBus.marked_visit {slot : Nat} (hs : slot < s.nextSlot) :
    (s.visit B cb).marked slot = (decide (slot = cb.slot) || s.marked slot) := by
  have h := s.visit_changed B cb
  have hl : (s.visit B cb).lastIteration slot =
      Function.update s.lastIteration cb.slot s.iterationCounter slot := h.lastIteration slot hs
  have hc : (s.visit B cb).iterationCounter = s.iterationCounter := h.iterationCounter
  simp only [MatchBus.marked, hl, hc]
  by_cases hslot : slot = cb.slot
  · subst hslot
    simp
  · simp [hslot]

theorem MatchBus.Ok.visit (h : s.Ok) : (s.visit B cb).Ok := by
  unfold MatchBus.visit
  split
  · have hentered : MatchBus.Ok { s.mark cb.slot with invoked := s.invoked ++ [cb.slot] } :=
      ⟨h.distinct, h.nodup, h.bound⟩
    exact hentered.foldl _
  · exact ⟨h.distinct, h.nodup, h.bound⟩

theorem Visits.append (h : Visits B s L s') (h' : Visits B s' L' s'') :
    Visits B s (L ++ L') s'' := by
  induction h with
  | nil s => exact h'
  | cons hm hu _ ih => exact .cons hm hu (ih h')

theorem Visits.kept (h : Visits B s L s') : s.Kept s' := by
  induction h with
  | nil s => exact MatchBus.Kept.refl s
  | @cons s s' cb L _ _ _ ih =>
    have hentered : s.Kept (s.entered cb) := ⟨Nat.le_refl _, rfl, fun _ h _ => h,
      fun _ _ _ _ => Iff.rfl⟩
    exact (hentered.trans (s.visit_changed B cb).toKept).trans ih

theorem Visits.nextSlot_le (h : Visits B s L s') : s.nextSlot ≤ s'.nextSlot := h.kept.nextSlot

theorem Visits.ok (h : Visits B s L s') (hs : s.Ok) : s'.Ok := by
  induction h with
  | nil s => exact hs
  | cons _ _ _ ih => exact ih hs.visit

theorem Visits.marked (h : Visits B s L s') {slot : Nat} (hs : slot < s.nextSlot) :
    s'.marked slot = true ↔ s.marked slot = true ∨ slot ∈ L.map (·.slot) := by
  induction h with
  | nil s => simp
  | @cons s s' cb L _ _ _ ih =>
    rw [ih (hs.trans_le (s.visit_changed B cb).nextSlot), MatchBus.marked_visit hs]
    simp only [Bool.or_eq_true, decide_eq_true_eq, List.map_cons, List.mem_cons]
    tauto

theorem Visits.invoked (h : Visits B s L s') :
    s'.invoked = s.invoked ++ (L.filter (·.callback)).map (·.slot) := by
  induction h with
  | nil s => simp
  | @cons s s' cb L _ _ _ ih =>
    rw [ih, (s.visit_changed B cb).invoked]
    by_cases hc : cb.callback = true <;> simp [MatchBus.entered, hc]

theorem MatchBus.change_modified {c : MatchChange}
    (h : (s.change c).matchCallbacksModified = false) : s.change c = s := by
  cases c with
  | add components callback => exact absurd h (by simp [MatchBus.change, MatchBus.busAddMatchFull])
  | remove slot =>
    simp only [MatchBus.change, MatchBus.busSlotDisconnect] at h ⊢
    split at h
    · exact absurd h (by simp)
    · rename_i hslot
      rw [if_neg hslot]

theorem MatchBus.foldl_change_modified (changes : List MatchChange)
    (h : (changes.foldl MatchBus.change s).matchCallbacksModified = false) :
    changes.foldl MatchBus.change s = s := by
  induction changes generalizing s with
  | nil => rfl
  | cons c changes ih =>
    have hc := ih (s := s.change c) h
    rw [List.foldl_cons, hc] at h ⊢
    exact MatchBus.change_modified h

theorem Visits.matchCallbacks_eq (h : Visits B s L s')
    (hm : s'.matchCallbacksModified = false) : s'.matchCallbacks = s.matchCallbacks := by
  induction h with
  | nil s => rfl
  | @cons s s' cb L _ _ hrest ih =>
    rw [ih hm]
    have hv : (s.visit B cb).matchCallbacksModified = false := by
      cases hrest with
      | nil => exact hm
      | cons hv _ _ => exact hv
    unfold MatchBus.visit at hv ⊢
    split
    · rename_i hc
      rw [if_pos hc] at hv
      have hsame := congrArg MatchBus.matchCallbacks (MatchBus.foldl_change_modified _ hv)
      exact hsame
    · rfl

theorem Visits.nodup (h : Visits B s L s') (hL : ∀ cb ∈ L, cb.slot < s.nextSlot) :
    (L.map (·.slot)).Nodup ∧ ∀ cb ∈ L, s.marked cb.slot = false := by
  induction h with
  | nil s => simp
  | @cons s s' cb L _ hu _ ih =>
    have hcb := hL cb (List.mem_cons_self ..)
    have hL' : ∀ cb' ∈ L, cb'.slot < s.nextSlot := fun cb' h => hL cb' (List.mem_cons_of_mem _ h)
    obtain ⟨hnd, hun⟩ := ih fun cb' h =>
      (hL' cb' h).trans_le (s.visit_changed B cb).nextSlot
    -- the visit marks `cb`, and what is visited later was unmarked after it
    have hne : ∀ cb' ∈ L, cb'.slot ≠ cb.slot ∧ s.marked cb'.slot = false := by
      intro cb' hcb'
      have h := hun cb' hcb'
      rw [MatchBus.marked_visit (hL' cb' hcb')] at h
      simpa using h
    refine ⟨?_, ?_⟩
    · rw [List.map_cons, List.nodup_cons]
      refine ⟨fun hmem => ?_, hnd⟩
      obtain ⟨cb', hcb', heq⟩ := List.mem_map.mp hmem
      exact (hne cb' hcb').1 heq
    · intro cb' hcb'
      rcases List.mem_cons.mp hcb' with rfl | hcb'
      · exact hu
      · exact (hne cb' hcb').2

end Visits

/-! ## A walk visits the leaves it comes to -/

/-- A walk returned 0 having visited leaves of `R` only, and all of them if the tree was not
changed. -/
structure Walked (B : MatchHandler) (R : List MatchCallback) (s : MatchBus)
    (out : Int × MatchBus) : Prop where
  ret : out.1 = 0
  visits : ∃ L, Visits B s L out.2 ∧ ∀ cb ∈ L, cb ∈ R
  complete : out.2.matchCallbacksModified = false → ∀ cb ∈ R, out.2.marked cb.slot = true

section Walked

variable {B : MatchHandler} {m : MatchMessage} {s : MatchBus} {out out' : Int × MatchBus}
  {R R' R'' : List MatchCallback}

theorem Walked.nil (B : MatchHandler) (s : MatchBus) : Walked B [] s (0, s) where
  ret := rfl
  visits := ⟨[], .nil s, fun _ h => h⟩
  complete := fun _ _ h => absurd h List.not_mem_nil

theorem Walked.congr (h : Walked B R s out) (hR : ∀ cb, cb ∈ R ↔ cb ∈ R') :
    Walked B R' s out where
  ret := h.ret
  visits := by
    obtain ⟨L, hv, hL⟩ := h.visits
    exact ⟨L, hv, fun cb hcb => (hR cb).mp (hL cb hcb)⟩
  complete := fun hm cb hcb => h.complete hm cb ((hR cb).mpr hcb)

theorem Walked.marked_eq (h : Walked B R s out) {slot : Nat} (hs : slot < s.nextSlot)
    (hR : ∀ cb ∈ R, cb.slot ≠ slot) : out.2.marked slot = s.marked slot := by
  obtain ⟨L, hv, hL⟩ := h.visits
  rw [Bool.eq_iff_iff, hv.marked hs]
  refine ⟨fun h => h.resolve_right fun hmem => ?_, Or.inl⟩
  obtain ⟨cb, hcb, heq⟩ := List.mem_map.mp hmem
  exact hR cb (hL cb hcb) heq

theorem Walked.nextSlot_le (h : Walked B R s out) : s.nextSlot ≤ out.2.nextSlot := by
  obtain ⟨L, hv, _⟩ := h.visits
  exact hv.nextSlot_le

theorem Walked.marked_of_marked (h : Walked B R s out) {slot : Nat} (hs : slot < s.nextSlot)
    (hm : s.marked slot = true) : out.2.marked slot = true := by
  obtain ⟨L, hv, _⟩ := h.visits
  exact (hv.marked hs).mpr (Or.inl hm)

theorem Walked.seq (h : Walked B R s out) (hR : ∀ cb ∈ R, cb.slot < s.nextSlot)
    (hR' : ∀ cb ∈ R', cb.slot < s.nextSlot)
    (hgo : out.2.matchCallbacksModified = false → Walked B R'' out.2 out')
    (hstop : out.2.matchCallbacksModified = true → out' = (0, out.2))
    (hsub : ∀ cb ∈ R'', cb ∈ R')
    (hrest : out.2.matchCallbacksModified = false →
      ∀ cb ∈ R', cb ∈ R'' ∨ out.2.marked cb.slot = true) :
    Walked B (R ++ R') s out' := by
  obtain ⟨L, hv, hL⟩ := h.visits
  cases hm : out.2.matchCallbacksModified with
  | true =>
    rw [hstop hm]
    refine ⟨rfl, ⟨L, hv, fun cb hcb => List.mem_append_left _ (hL cb hcb)⟩, fun hm' => ?_⟩
    exact absurd (hm.symm.trans hm') (by simp)
  | false =>
    have h' := hgo hm
    obtain ⟨L', hv', hL'⟩ := h'.visits
    refine ⟨h'.ret, ⟨L ++ L', hv.append hv', ?_⟩, ?_⟩
    · intro cb hcb
      rcases List.mem_append.mp hcb with hcb | hcb
      · exact List.mem_append_left _ (hL cb hcb)
      · exact List.mem_append_right _ (hsub cb (hL' cb hcb))
    · intro hm' cb hcb
      rcases List.mem_append.mp hcb with hcb | hcb
      · exact h'.marked_of_marked ((hR cb hcb).trans_le hv.nextSlot_le) (h.complete hm cb hcb)
      · rcases hrest hm cb hcb with hcb' | hcb'
        · exact h'.complete hm' cb hcb'
        · exact h'.marked_of_marked ((hR' cb hcb).trans_le hv.nextSlot_le) hcb'

end Walked

/-! ### The value nodes of a compare node -/

def Values.entries : Values → List (NodeValue × Nodes)
  | .nil => []
  | .value v child next => (v, child) :: next.entries

theorem Values.walk_eq_flatMap (P : NodeType → NodeValue → Bool) (cut : Nat → Bool)
    (t : NodeType) (vs : Values) :
      vs.walk P cut t = vs.entries.flatMap fun e => if P t e.1 then e.2.walk P cut else [] := by
  cases vs with
  | nil => rfl
  | value v child next =>
    simp only [Values.walk, Values.entries, List.flatMap_cons, next.walk_eq_flatMap P cut t]

theorem Values.leaves_eq_flatMap (t : NodeType) (vs : Values) :
    vs.leaves t = vs.entries.flatMap fun e => e.2.leaves := by
  simp only [Values.leaves, Values.walk_eq_flatMap, if_true]
  rfl

def RunSpec (B : MatchHandler) (m : MatchMessage) (ns : Nodes) : Prop :=
  ∀ s : MatchBus, s.matchCallbacksModified = false →
    (∀ cb ∈ ns.leaves, cb.slot < s.nextSlot) →
      Walked B (ns.walk m.passes s.marked) s (busMatchRun B m ns s)

theorem busMatchRun_of_modified (B : MatchHandler) (m : MatchMessage) (ns : Nodes) {s : MatchBus}
    (h : s.matchCallbacksModified = true) : busMatchRun B m ns s = (0, s) := by
  cases ns with
  | nil => simp only [busMatchRun]
  | leaf cb next => simp only [busMatchRun, h, if_true]
  | compare t children next => simp only [busMatchRun, h, if_true]

theorem unlessReturned_of_zero {out : Int × MatchBus} {k : MatchBus → Int × MatchBus}
    (h : out.1 = 0) : unlessReturned out k = k out.2 := by
  simp [unlessReturned, h]

section Values

variable {B : MatchHandler} {m : MatchMessage} {t : NodeType}

theorem nodup_slots_append {K L : List MatchCallback}
    (h : ((K ++ L).map (·.slot)).Nodup) :
    (K.map (·.slot)).Nodup ∧ (L.map (·.slot)).Nodup ∧
      ∀ a ∈ K, ∀ b ∈ L, a.slot ≠ b.slot := by
  rw [List.map_append, List.nodup_append] at h
  refine ⟨h.1, h.2.1, fun a ha b hb => ?_⟩
  exact h.2.2 _ (List.mem_map_of_mem ha) _ (List.mem_map_of_mem hb)

theorem Walked.marked_eq_of_disjoint {R : List MatchCallback} {s : MatchBus}
    {out : Int × MatchBus} (h : Walked B R s out) {here there : List MatchCallback}
    (hR : ∀ cb ∈ R, cb ∈ here) (hthere : ∀ cb ∈ there, cb.slot < s.nextSlot)
    (hne : ∀ a ∈ here, ∀ b ∈ there, a.slot ≠ b.slot) :
    ∀ cb ∈ there, out.2.marked cb.slot = s.marked cb.slot :=
  fun cb hcb => h.marked_eq (hthere cb hcb) fun a ha => hne a (hR a ha) cb hcb

theorem busMatchRunTests_walked : (vs : Values) → (∀ e ∈ vs.entries, RunSpec B m e.2) →
    ((vs.leaves t).map (·.slot)).Nodup → ∀ s : MatchBus, s.matchCallbacksModified = false →
    (∀ cb ∈ vs.leaves t, cb.slot < s.nextSlot) →
      Walked B (vs.walk m.passes s.marked t) s (busMatchRunTests B m t vs s)
  | .nil, _, _, s, _, _ => by
    simp only [busMatchRunTests, Values.walk]
    exact Walked.nil B s
  | .value v child next, hspec, hnd, s, hm, hb => by
    simp only [Values.entries, List.mem_cons, forall_eq_or_imp] at hspec
    rw [Values.leaves_value] at hnd hb
    obtain ⟨-, hnd', hne⟩ := nodup_slots_append hnd
    have hbc : ∀ cb ∈ child.leaves, cb.slot < s.nextSlot :=
      fun cb h => hb cb (List.mem_append_left _ h)
    have hbn : ∀ cb ∈ next.leaves t, cb.slot < s.nextSlot :=
      fun cb h => hb cb (List.mem_append_right _ h)
    have ih := busMatchRunTests_walked next hspec.2 hnd'
    simp only [busMatchRunTests, Values.walk]
    by_cases ht : v.test t m = true
    · rw [if_pos ht, if_pos (show m.passes t v = true from ht)]
      have hchild := hspec.1 s hm hbc
      have hsub : ∀ cb ∈ child.walk m.passes s.marked, cb ∈ child.leaves :=
        fun cb h => child.walk_leaves.subset h
      rw [unlessReturned_of_zero hchild.ret]
      have heq : next.walk m.passes (busMatchRun B m child s).2.marked t =
          next.walk m.passes s.marked t :=
        next.walk_congr t (hchild.marked_eq_of_disjoint hsub hbn hne)
      refine hchild.seq (fun cb h => hbc cb (hsub cb h))
        (fun cb h => hbn cb ((next.walk_leaves t).subset h)) ?_ ?_ (fun cb h => h) ?_
      · intro hm'
        simp only [hm', Bool.false_eq_true, if_false, ← heq]
        exact ih _ hm' fun cb h => (hbn cb h).trans_le hchild.nextSlot_le
      · intro hm'
        simp only [hm', if_true]
      · exact fun _ cb h => Or.inl h
    · rw [if_neg ht, if_neg (show ¬ m.passes t v = true from ht), List.nil_append]
      exact ih s hm hbn

theorem busMatchRunFound_eq (p : NodeValue → Bool) (s : MatchBus) (vs : Values) :
    busMatchRunFound B m p vs s =
      match vs.entries.find? fun e => p e.1 with
      | some e => busMatchRun B m e.2 s
      | none => (0, s) := by
  cases vs with
  | nil => simp only [busMatchRunFound, Values.entries, List.find?_nil]
  | value v child next =>
    simp only [busMatchRunFound, Values.entries]
    by_cases h : p v = true
    · simp only [List.find?_cons, h, if_true]
    · simp only [List.find?_cons, h, Bool.false_eq_true, if_false]
      exact busMatchRunFound_eq p s next

def Values.foundWalk (m : MatchMessage) (p : NodeValue → Bool) (cut : Nat → Bool) (vs : Values) :
    List MatchCallback :=
  match vs.entries.find? fun e => p e.1 with
  | some e => e.2.walk m.passes cut
  | none => []

theorem Values.mem_leaves {vs : Values} {e : NodeValue × Nodes} (he : e ∈ vs.entries)
    {cb : MatchCallback} (hcb : cb ∈ e.2.leaves) : cb ∈ vs.leaves t := by
  rw [Values.leaves_eq_flatMap]
  exact List.mem_flatMap.mpr ⟨e, he, hcb⟩

theorem busMatchRunFound_walked {vs : Values} (hspec : ∀ e ∈ vs.entries, RunSpec B m e.2)
    (p : NodeValue → Bool) {s : MatchBus} (hm : s.matchCallbacksModified = false)
    (hb : ∀ cb ∈ vs.leaves t, cb.slot < s.nextSlot) :
    Walked B (vs.foundWalk m p s.marked) s (busMatchRunFound B m p vs s) := by
  rw [busMatchRunFound_eq, Values.foundWalk]
  cases hf : vs.entries.find? fun e => p e.1 with
  | none => exact Walked.nil B s
  | some e =>
    have he := List.mem_of_find?_eq_some hf
    exact hspec e he s hm fun cb hcb => hb cb (Values.mem_leaves he hcb)

theorem Values.entries_eq_of_slot {e e' : NodeValue × Nodes} {a b : MatchCallback} :
    (vs : Values) → ((vs.leaves t).map (·.slot)).Nodup → e ∈ vs.entries → e' ∈ vs.entries →
      a ∈ e.2.leaves → b ∈ e'.2.leaves → a.slot = b.slot → e = e'
  | .nil, _, he, _, _, _, _ => absurd he List.not_mem_nil
  | .value v child next, hnd, he, he', ha, hb, hab => by
    rw [Values.leaves_value] at hnd
    obtain ⟨-, hnd', hne⟩ := nodup_slots_append hnd
    simp only [Values.entries, List.mem_cons] at he he'
    rcases he with rfl | he
    · rcases he' with rfl | he'
      · rfl
      · exact absurd hab (hne a ha b (Values.mem_leaves he' hb))
    · rcases he' with rfl | he'
      · exact absurd hab.symm (hne b hb a (Values.mem_leaves he ha))
      · exact next.entries_eq_of_slot hnd' he he' ha hb hab

theorem strvForeach_of_modified {vs : Values} {p : Str → NodeValue → Bool} {s : MatchBus}
    (h : s.matchCallbacksModified = true) (strv : List Str) :
    strvForeach (fun i s => busMatchRunFound B m (p i) vs s) strv s = (0, s) := by
  induction strv with
  | nil => rfl
  | cons i strv ih =>
    have hi : busMatchRunFound B m (p i) vs s = (0, s) := by
      rw [busMatchRunFound_eq]
      split
      · exact busMatchRun_of_modified B m _ h
      · rfl
    simp only [strvForeach, hi]
    rw [unlessReturned_of_zero rfl]
    exact ih

theorem strvForeach_walked {vs : Values} (hspec : ∀ e ∈ vs.entries, RunSpec B m e.2)
    (hnd : ((vs.leaves t).map (·.slot)).Nodup) (p : Str → NodeValue → Bool)
    (strv : List Str) : ∀ s : MatchBus, s.matchCallbacksModified = false →
    (∀ cb ∈ vs.leaves t, cb.slot < s.nextSlot) →
      Walked B (strv.flatMap fun i => vs.foundWalk m (p i) s.marked) s
        (strvForeach (fun i s => busMatchRunFound B m (p i) vs s) strv s) := by
  have hfound : ∀ (i : Str) (cut : Nat → Bool), ∀ cb ∈ vs.foundWalk m (p i) cut,
      ∃ e ∈ vs.entries, vs.entries.find? (fun e => p i e.1) = some e ∧
        cb ∈ e.2.walk m.passes cut := by
    intro i cut cb hcb
    unfold Values.foundWalk at hcb
    split at hcb
    · rename_i e he
      exact ⟨e, List.mem_of_find?_eq_some he, he, hcb⟩
    · exact absurd hcb List.not_mem_nil
  have hleaf : ∀ (i : Str) (cut : Nat → Bool), ∀ cb ∈ vs.foundWalk m (p i) cut,
      cb ∈ vs.leaves t := by
    intro i cut cb hcb
    obtain ⟨e, he, -, hw⟩ := hfound i cut cb hcb
    exact Values.mem_leaves he (e.2.walk_leaves.subset hw)
  induction strv with
  | nil => exact fun s _ _ => Walked.nil B s
  | cons i strv ih =>
    intro s hm hb
    have hi := busMatchRunFound_walked hspec (p i) hm hb
    have hgrow : ∀ cb ∈ vs.leaves t, s.marked cb.slot = true →
        (busMatchRunFound B m (p i) vs s).2.marked cb.slot = true :=
      fun cb hcb hmk => hi.marked_of_marked (hb cb hcb) hmk
    simp only [strvForeach]
    rw [unlessReturned_of_zero hi.ret, List.flatMap_cons]
    have hmem : ∀ cb ∈ strv.flatMap fun j => vs.foundWalk m (p j) s.marked, cb ∈ vs.leaves t := by
      intro cb hcb
      obtain ⟨j, -, hj⟩ := List.mem_flatMap.mp hcb
      exact hleaf j _ cb hj
    refine hi.seq (fun cb h => hb cb (hleaf i _ cb h)) (fun cb h => hb cb (hmem cb h))
      (fun hm' => ih _ hm' fun cb h => (hb cb h).trans_le hi.nextSlot_le)
      (fun hm' => strvForeach_of_modified hm' strv) ?_ ?_
    · intro cb hcb
      obtain ⟨j, hj, hw⟩ := List.mem_flatMap.mp hcb
      obtain ⟨e, he, hf, hw⟩ := hfound j _ cb hw
      refine List.mem_flatMap.mpr ⟨j, hj, ?_⟩
      rw [Values.foundWalk, hf]
      exact (e.2.walk_sublist (fun _ _ h => h) fun cb h =>
        hgrow cb (Values.mem_leaves he h)).subset hw
    · intro hm' cb hcb
      obtain ⟨j, hj, hw⟩ := List.mem_flatMap.mp hcb
      obtain ⟨e, he, hf, hw⟩ := hfound j _ cb hw
      by_cases hfi : vs.entries.find? (fun e => p i e.1) = some e
      · refine Or.inr (hi.complete hm' cb ?_)
        rw [Values.foundWalk, hfi]
        exact hw
      · -- the walk for `i` was below another value node and marked nothing here
        refine Or.inl (List.mem_flatMap.mpr ⟨j, hj, ?_⟩)
        rw [Values.foundWalk, hf]
        have heq : e.2.walk m.passes (busMatchRunFound B m (p i) vs s).2.marked =
            e.2.walk m.passes s.marked := by
          refine e.2.walk_congr fun b hbl => ?_
          refine hi.marked_eq (hb b (Values.mem_leaves he hbl)) fun a ha hab => ?_
          obtain ⟨e', he', hf', hw'⟩ := hfound i _ a ha
          have := vs.entries_eq_of_slot hnd he' he (e'.2.walk_leaves.subset hw') hbl hab
          exact hfi (by rw [hf', this])
        simp only [heq]
        exact hw

theorem Values.mem_walk {P : NodeType → NodeValue → Bool} {cut : Nat → Bool} {vs : Values}
    {cb : MatchCallback} :
    cb ∈ vs.walk P cut t ↔ ∃ e ∈ vs.entries, P t e.1 = true ∧ cb ∈ e.2.walk P cut := by
  rw [Values.walk_eq_flatMap, List.mem_flatMap]
  refine exists_congr fun e => and_congr_right fun _ => ?_
  by_cases h : P t e.1 = true <;> simp [h]

theorem Values.hasSame_of_mem {c : Component} {e : NodeValue × Nodes} (h : c.same e.1 = true) :
    (vs : Values) → e ∈ vs.entries → vs.hasSame c = true
  | .nil, he => absurd he List.not_mem_nil
  | .value v child next, he => by
    simp only [Values.hasSame]
    rcases List.mem_cons.mp he with rfl | he
    · rw [if_pos h]
    · split
      · rfl
      · exact next.hasSame_of_mem h he

theorem Values.find?_entries {p : NodeValue → Bool} {e : NodeValue × Nodes}
    (hp : ∀ v v', p v = true → p v' = true → Component.same ⟨t, v.u8, v.str⟩ v' = true)
    (hpe : p e.1 = true) : (vs : Values) → vs.Distinct t → e ∈ vs.entries →
      vs.entries.find? (fun e => p e.1) = some e
  | .nil, _, he => absurd he List.not_mem_nil
  | .value v child next, hd, he => by
    simp only [Values.entries, List.find?_cons] at he ⊢
    rcases List.mem_cons.mp he with rfl | he
    · simp only [hpe]
    · cases h : p v with
      | true =>
        have := next.hasSame_of_mem (hp v e.1 h hpe) he
        exact absurd (hd.1.symm.trans this) (by simp)
      | false => exact next.find?_entries hp hpe hd.2.2 he

theorem Values.mem_foundWalk {p : NodeValue → Bool} {cut : Nat → Bool} {vs : Values}
    {cb : MatchCallback} (hd : vs.Distinct t)
    (hp : ∀ v v', p v = true → p v' = true → Component.same ⟨t, v.u8, v.str⟩ v' = true) :
    cb ∈ vs.foundWalk m p cut ↔
      ∃ e ∈ vs.entries, p e.1 = true ∧ cb ∈ e.2.walk m.passes cut := by
  unfold Values.foundWalk
  constructor
  · intro h
    split at h
    · rename_i e he
      have hpe := List.find?_some he
      exact ⟨e, List.mem_of_find?_eq_some he, hpe, h⟩
    · exact absurd h List.not_mem_nil
  · rintro ⟨e, he, hpe, h⟩
    rw [vs.find?_entries hp hpe hd he]
    exact h

theorem same_of_str_eq {str : Str} (ht : t ≠ .messageType) (v v' : NodeValue)
    (h : decide (v.str = str) = true) (h' : decide (v'.str = str) = true) :
    Component.same ⟨t, v.u8, v.str⟩ v' = true := by
  simp only [decide_eq_true_eq] at h h'
  subst h
  cases t <;> first
    | exact absurd rfl ht
    | simp only [Component.same, valueNodeSame, h', decide_true]

theorem passes_of_testStr {str : Str} (hh : busMatchCanHash t = true)
    (h : m.testStr t = some str) (v : NodeValue) :
    t ≠ .messageType ∧ m.passes t v = decide (v.str = str) := by
  cases t <;> first
    | (simp [busMatchCanHash] at hh; done)
    | (simp [MatchMessage.testStr] at h; done)
    | exact ⟨by simp, by simp only [MatchMessage.passes, NodeValue.test, valueNodeTest, h]⟩

theorem passes_of_testStrv {strv : List Str} (h : m.testStrv t = some strv) (v : NodeValue) :
    t ≠ .messageType ∧ m.passes t v = strv.any (fun i => v.str = i) := by
  cases t <;> first
    | (simp [MatchMessage.testStrv] at h; done)
    | exact ⟨by simp, by
        simp only [MatchMessage.passes, NodeValue.test, valueNodeTest, h, Option.getD_some]⟩

theorem passes_of_no_data (hh : busMatchCanHash t = true) (h : m.testStr t = none)
    (h' : m.testStrv t = none) (ht : t ≠ .messageType) (v : NodeValue) :
    m.passes t v = false := by
  cases t <;> first
    | (simp [busMatchCanHash] at hh; done)
    | exact absurd rfl ht
    | simp [MatchMessage.passes, NodeValue.test, valueNodeTest, h, h']

theorem compare_walked {vs : Values} (hspec : ∀ e ∈ vs.entries, RunSpec B m e.2)
    (hd : vs.Distinct t) (hnd : ((vs.leaves t).map (·.slot)).Nodup) {s : MatchBus}
    (hm : s.matchCallbacksModified = false) (hb : ∀ cb ∈ vs.leaves t, cb.slot < s.nextSlot) :
    Walked B (vs.walk m.passes s.marked t) s
      (if busMatchCanHash t then
        match m.testStr t with
        | some str => busMatchRunFound B m (fun v => v.str = str) vs s
        | none =>
          match m.testStrv t with
          | some strv =>
            strvForeach (fun i s => busMatchRunFound B m (fun v => v.str = i) vs s) strv s
          | none =>
            if t = .messageType then busMatchRunFound B m (fun v => v.u8 = m.testU8 t) vs s
            else (0, s)
      else busMatchRunTests B m t vs s) := by
  by_cases hh : busMatchCanHash t = true
  · rw [if_pos hh]
    split
    · rename_i str hstr
      refine (busMatchRunFound_walked hspec _ hm hb).congr fun cb => ?_
      have hp := fun v => (passes_of_testStr hh hstr v).2
      rw [Values.mem_walk, Values.mem_foundWalk hd
        (same_of_str_eq (passes_of_testStr (m := m) hh hstr ⟨0, []⟩).1)]
      simp only [hp]
    · rename_i hstr
      split
      · rename_i strv hstrv
        refine (strvForeach_walked hspec hnd (fun i v => v.str = i) strv s hm hb).congr fun cb => ?_
        have hp := fun v => (passes_of_testStrv hstrv v).2
        have ht := (passes_of_testStrv (m := m) hstrv ⟨0, []⟩).1
        rw [Values.mem_walk, List.mem_flatMap]
        simp only [Values.mem_foundWalk hd (same_of_str_eq ht), hp, List.any_eq_true,
          decide_eq_true_eq]
        constructor
        · rintro ⟨i, hi, e, he, hei, h⟩
          exact ⟨e, he, ⟨i, hi, hei⟩, h⟩
        · rintro ⟨e, he, ⟨i, hi, hei⟩, h⟩
          exact ⟨i, hi, e, he, hei, h⟩
      · rename_i hstrv
        by_cases ht : t = .messageType
        · rw [if_pos ht]
          subst ht
          refine (busMatchRunFound_walked hspec _ hm hb).congr fun cb => ?_
          rw [Values.mem_walk, Values.mem_foundWalk hd fun v v' h h' => ?_]
          · rfl
          · simp only [decide_eq_true_eq] at h h'
            simp only [Component.same, valueNodeSame, h, h', decide_true]
        · rw [if_neg ht]
          refine (Walked.nil B s).congr fun cb => ?_
          rw [Values.mem_walk]
          simp [passes_of_no_data hh hstr hstrv ht]
  · rw [if_neg hh]
    exact busMatchRunTests_walked vs hspec hnd s hm hb

end Values

/-! ## The walk over the whole tree -/

section Run

variable {B : MatchHandler} {m : MatchMessage}

theorem visit_walked {cb : MatchCallback} {s : MatchBus}
    (hm : s.matchCallbacksModified = false) (hu : s.marked cb.slot = false)
    (hb : cb.slot < s.nextSlot) : Walked B [cb] s (0, s.visit B cb) where
  ret := rfl
  visits := ⟨[cb], .cons hm hu (.nil _), fun _ h => h⟩
  complete := by
    intro _ cb' hcb'
    rw [List.mem_singleton.mp hcb', MatchBus.marked_visit hb]
    simp

theorem busMatchRun_leaf (hB : ∀ slot s, (B slot s).1 = 0) {cb : MatchCallback} {next : Nodes}
    {s : MatchBus} (hm : s.matchCallbacksModified = false) (hu : s.marked cb.slot = false) :
    busMatchRun B m (.leaf cb next) s =
      if (s.visit B cb).matchCallbacksModified then (0, s.visit B cb)
      else busMatchRun B m next (s.visit B cb) := by
  simp only [busMatchRun, hm, hu, Bool.false_eq_true, if_false]
  unfold MatchBus.visit
  split
  · rw [unlessReturned_of_zero (hB _ _)]
  · rw [if_neg (by simp [MatchBus.mark, hm])]

mutual

theorem runSpec (hB : ∀ slot s, (B slot s).1 = 0) : (ns : Nodes) → ns.Distinct →
    (ns.leaves.map (·.slot)).Nodup → RunSpec B m ns
  | .nil, _, _ => fun s _ _ => by
    simp only [Nodes.walk, busMatchRun]
    exact Walked.nil B s
  | .leaf cb next, hd, hnd => fun s hm hb => by
    rw [Nodes.leaves_leaf] at hnd hb
    obtain ⟨-, hnd', hne⟩ := nodup_slots_append (K := [cb]) hnd
    have hbc := hb cb (List.mem_cons_self ..)
    have hbn : ∀ cb' ∈ next.leaves, cb'.slot < s.nextSlot :=
      fun cb' h => hb cb' (List.mem_cons_of_mem _ h)
    simp only [Nodes.walk]
    cases hu : s.marked cb.slot with
    | true =>
      simp only [busMatchRun, hm, hu, if_true, Bool.false_eq_true, if_false]
      exact Walked.nil B s
    | false =>
      simp only [Bool.false_eq_true, if_false]
      have hv := visit_walked (B := B) hm hu hbc
      have heq : next.walk m.passes (s.visit B cb).marked = next.walk m.passes s.marked :=
        next.walk_congr (hv.marked_eq_of_disjoint (fun _ h => h) hbn hne)
      rw [busMatchRun_leaf hB hm hu]
      have hbw : ∀ cb' ∈ next.walk m.passes s.marked, cb'.slot < s.nextSlot :=
        fun cb' h => hbn cb' (next.walk_leaves.subset h)
      refine hv.seq (fun cb' h => ?_) hbw ?_ ?_ (fun _ h => h) (fun _ _ h => Or.inl h)
      · rw [List.mem_singleton.mp h]
        exact hbc
      · intro hm'
        rw [if_neg (by rw [hm']; simp), ← heq]
        exact runSpec hB next hd hnd' _ hm' fun cb' h => (hbn cb' h).trans_le hv.nextSlot_le
      · intro hm'
        rw [if_pos hm']
  | .compare t children next, hd, hnd => fun s hm hb => by
    rw [Nodes.leaves_compare] at hnd hb
    obtain ⟨hndc, hnd', hne⟩ := nodup_slots_append hnd
    have hbc : ∀ cb ∈ children.leaves t, cb.slot < s.nextSlot :=
      fun cb h => hb cb (List.mem_append_left _ h)
    have hbn : ∀ cb ∈ next.leaves, cb.slot < s.nextSlot :=
      fun cb h => hb cb (List.mem_append_right _ h)
    have hc := compare_walked (runSpec_entries hB children hd.1 hndc) hd.1 hndc hm hbc
    have hsub : ∀ cb ∈ children.walk m.passes s.marked t, cb ∈ children.leaves t :=
      fun cb h => (children.walk_leaves t).subset h
    have heq := next.walk_congr (P := m.passes) (hc.marked_eq_of_disjoint hsub hbn hne)
    simp only [Nodes.walk, busMatchRun, hm, Bool.false_eq_true, if_false]
    rw [unlessReturned_of_zero hc.ret]
    refine hc.seq (fun cb h => hbc cb (hsub cb h))
      (fun cb h => hbn cb (next.walk_leaves.subset h)) ?_ ?_ (fun _ h => h) (fun _ _ h => Or.inl h)
    · intro hm'
      simp only [hm', Bool.false_eq_true, if_false, ← heq]
      exact runSpec hB next hd.2 hnd' _ hm' fun cb h => (hbn cb h).trans_le hc.nextSlot_le
    · intro hm'
      simp only [hm', if_true]

theorem runSpec_entries (hB : ∀ slot s, (B slot s).1 = 0) {t : NodeType} : (vs : Values) →
    vs.Distinct t → ((vs.leaves t).map (·.slot)).Nodup → ∀ e ∈ vs.entries, RunSpec B m e.2
  | .nil, _, _ => fun e he => absurd he List.not_mem_nil
  | .value v child next, hd, hnd => fun e he => by
    rw [Values.leaves_value] at hnd
    obtain ⟨hndc, hnd', -⟩ := nodup_slots_append hnd
    rcases List.mem_cons.mp he with rfl | he
    · exact runSpec hB child hd.2.1 hndc
    · exact runSpec_entries hB next hd.2.2 hnd' e he

end

theorem MatchBus.Ok.busMatchRun_walked {s : MatchBus} (hs : s.Ok)
    (hB : ∀ slot s, (B slot s).1 = 0) (hm : s.matchCallbacksModified = false) :
    Walked B (s.matchCallbacks.walk m.passes s.marked) s (busMatchRun B m s.matchCallbacks s) :=
  runSpec hB _ hs.distinct hs.nodup s hm hs.bound

end Run

end Basu
