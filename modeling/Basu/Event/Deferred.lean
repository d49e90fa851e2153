import Basu.Event.Placed

/-! The order of the deferred sources: by priority, and those of one priority as they were last put
in. -/

namespace Basu.Event
open Function

def EventOp.inserts (e : Loop) : EventOp → Option Nat
  | .addDefer => some e.nSources
  | .setPriority i _ => if (e.source i).live && (e.source i).type = .defer then some i else none
  | _ => none

/-- A loop, the number of calls made on it so far, and the call that put each source last into the
list. -/
structure Inserted where
  loop : Loop := {}
  count : Nat := 0
  last : Nat → Nat := fun _ => 0

def Inserted.exec (s : Inserted) (op : EventOp) : Inserted where
  loop := op.exec s.loop
  count := s.count + 1
  last := match op.inserts s.loop with
    | none => s.last
    | some i => update s.last i s.count

def Before (p : Nat → Int) (q : Nat → Nat) (i j : Nat) : Prop := p i < p j ∨ p i = p j ∧ q i < q j

theorem Before.congr {p p' : Nat → Int} {q q' : Nat → Nat} {i j : Nat} (h : Before p q i j)
    (hi : p' i = p i ∧ q' i = q i) (hj : p' j = p j ∧ q' j = q j) : Before p' q' i j := by
  unfold Before
  rw [hi.1, hi.2, hj.1, hj.2]
  exact h

structure InOrder (s : Inserted) : Prop where
  sorted : (s.loop.list .deferSources).Pairwise (Before (fun i => (s.loop.source i).priority) s.last)
  nodup : (s.loop.list .deferSources).Nodup
  mem : ∀ i, i ∈ s.loop.list .deferSources ↔
    (s.loop.source i).live = true ∧ (s.loop.source i).type = .defer

theorem pairwise_deferInsertSorted {p : Nat → Int} {q : Nat → Nat} {i : Nat} {l : List Nat}
    (hq : ∀ j ∈ l, q j < q i) (hl : l.Pairwise (Before p q)) :
    (deferInsertSorted p i l).Pairwise (Before p q) := by
  induction l with
  | nil => exact List.pairwise_singleton _ _
  | cons j l ih =>
    obtain ⟨hj, hl⟩ := List.pairwise_cons.mp hl
    have hrest := ih (fun k hk => hq k (List.mem_cons_of_mem _ hk)) hl
    have hbehind : Before p q j i → (j :: deferInsertSorted p i l).Pairwise (Before p q) := by
      intro hji
      refine List.pairwise_cons.mpr ⟨fun k hk => ?_, hrest⟩
      rcases List.mem_cons.mp ((perm_deferInsertSorted p i l).mem_iff.mp hk) with rfl | hk
      · exact hji
      · exact hj k hk
    unfold deferInsertSorted
    split
    · next hle =>
      split
      · next heq => exact hbehind (Or.inr ⟨heq.symm, hq j List.mem_cons_self⟩)
      · next hne =>
        have hlt : p i < p j := lt_of_le_of_ne hle hne
        refine List.pairwise_cons.mpr ⟨fun k hk => Or.inl ?_, List.pairwise_cons.mpr ⟨hj, hl⟩⟩
        rcases List.mem_cons.mp hk with rfl | hk
        · exact hlt
        · rcases hj k hk with hlt' | ⟨heq, -⟩
          · exact hlt.trans hlt'
          · exact hlt.trans_eq heq
    · next hlt => exact hbehind (Or.inl (not_le.mp hlt))

/-- The order, with calls numbered below the next one. -/
structure Ordered (s : Inserted) : Prop extends InOrder s where
  placed : Placed s.loop
  past : ∀ i ∈ s.loop.list .deferSources, s.last i < s.count

section
variable {s s' : Inserted} {op : EventOp}

theorem Ordered.same (h : Ordered s) (hplaced : Placed s'.loop)
    (hlist : s'.loop.list .deferSources = s.loop.list .deferSources) (hlast : s'.last = s.last)
    (hcount : s.count ≤ s'.count)
    (hpriority : ∀ i ∈ s.loop.list .deferSources,
      (s'.loop.source i).priority = (s.loop.source i).priority)
    (hmem : ∀ i, (s'.loop.source i).live = true ∧ (s'.loop.source i).type = .defer ↔
      (s.loop.source i).live = true ∧ (s.loop.source i).type = .defer) : Ordered s' := by
  refine ⟨⟨?_, ?_, fun i => ?_⟩, hplaced, fun i hi => ?_⟩
  · rw [hlist, hlast]
    refine List.Pairwise.imp_of_mem (fun {i j} hi hj hij => ?_) h.sorted
    exact hij.congr ⟨hpriority i hi, rfl⟩ ⟨hpriority j hj, rfl⟩
  · rw [hlist]
    exact h.nodup
  · rw [hlist, hmem]
    exact h.mem i
  · rw [hlast]
    exact (h.past i (hlist ▸ hi)).trans_le hcount

theorem Ordered.insert (h : Ordered s) (hplaced : Placed s'.loop) {i : Nat} {l : List Nat}
    (hl : l.Sublist (s.loop.list .deferSources)) (hi : i ∉ l)
    (hlist : s'.loop.list .deferSources =
      deferInsertSorted (fun j => (s'.loop.source j).priority) i l)
    (hlast : s'.last = update s.last i s.count) (hcount : s'.count = s.count + 1)
    (hpriority : ∀ j ∈ l, (s'.loop.source j).priority = (s.loop.source j).priority)
    (hmem : ∀ j, (s'.loop.source j).live = true ∧ (s'.loop.source j).type = .defer ↔
      j = i ∨ j ∈ l) : Ordered s' := by
  have hperm := perm_deferInsertSorted (fun j => (s'.loop.source j).priority) i l
  have hne : ∀ j ∈ l, j ≠ i := fun j hj hji => hi (hji ▸ hj)
  have hold : ∀ j ∈ l, s'.last j = s.last j := fun j hj => by
    rw [hlast, update_of_ne (hne j hj)]
  have hnew : s'.last i = s.count := by rw [hlast, update_self]
  refine ⟨⟨?_, ?_, fun j => ?_⟩, hplaced, fun j hj => ?_⟩
  · rw [hlist]
    refine pairwise_deferInsertSorted (fun j hj => ?_) ?_
    · rw [hold j hj, hnew]
      exact h.past j (hl.subset hj)
    · refine List.Pairwise.imp_of_mem (fun {j k} hj hk hjk => ?_) (h.sorted.sublist hl)
      exact hjk.congr ⟨hpriority j hj, hold j hj⟩ ⟨hpriority k hk, hold k hk⟩
  · rw [hlist, hperm.nodup_iff]
    exact List.nodup_cons.mpr ⟨hi, h.nodup.sublist hl⟩
  · rw [hlist, hperm.mem_iff, List.mem_cons, hmem]
  · rw [hcount]
    rw [hlist, hperm.mem_iff] at hj
    rcases List.mem_cons.mp hj with rfl | hj
    · rw [hnew]
      exact Nat.lt_succ_self _
    · rw [hold j hj]
      exact (h.past j (hl.subset hj)).trans (Nat.lt_succ_self _)

theorem Ordered.added (h : Ordered s) {e : Loop} {x : Source} {K : Option SourceList}
    (hplaced : Placed e) (ha : Added s.loop e x K) (hK : K ≠ some .deferSources)
    (hx : x.type ≠ .defer) :
    Ordered { loop := e, count := s.count + 1, last := s.last } := by
  refine h.same hplaced (ha.other _ hK) rfl (Nat.le_succ _) (fun i hi => ?_) fun i => ?_
  · dsimp only
    rw [ha.source, if_neg (h.placed.listed _ i hi).ne]
  · dsimp only
    rw [ha.source]
    split
    · next hi =>
      refine iff_of_false (fun hno => hx hno.2) fun hyes => ?_
      exact absurd (h.placed.bound i hyes.1) (hi ▸ lt_irrefl _)
    · rfl

theorem Ordered.modify (h : Ordered s) {f : Source → Source} (i : Nat)
    (hplaced : Placed (s.loop.modify i f))
    (hf : ∀ x, (f x).live = x.live ∧ (f x).type = x.type ∧ (f x).priority = x.priority) :
    Ordered { loop := s.loop.modify i f, count := s.count + 1, last := s.last } := by
  have hkept : ∀ j, ((s.loop.modify i f).source j).live = (s.loop.source j).live ∧
      ((s.loop.modify i f).source j).type = (s.loop.source j).type ∧
      ((s.loop.modify i f).source j).priority = (s.loop.source j).priority := by
    intro j
    rw [modify_source]
    split
    · next hj => rw [hj]; exact hf _
    · exact ⟨rfl, rfl, rfl⟩
  refine h.same hplaced rfl rfl (Nat.le_succ _) (fun j _ => (hkept j).2.2) fun j => ?_
  dsimp only
  rw [(hkept j).1, (hkept j).2.1]

theorem Ordered.setPriority (h : Ordered s) {i : Nat} (priority : Int)
    (hlive : (s.loop.source i).live = true)
    (hplaced : Placed (sdEventSourceSetPriority s.loop i priority)) :
    Ordered { loop := sdEventSourceSetPriority s.loop i priority, count := s.count + 1
              last := if (s.loop.source i).type = .defer then update s.last i s.count
                else s.last } := by
  have hkept : ∀ j, ((sdEventSourceSetPriority s.loop i priority).source j).live =
      (s.loop.source j).live ∧ ((sdEventSourceSetPriority s.loop i priority).source j).type =
      (s.loop.source j).type := fun j => by
    rw [setPriority_source]
    split
    · next hj => rw [hj]; exact ⟨rfl, rfl⟩
    · exact ⟨rfl, rfl⟩
  have hother : ∀ j, j ≠ i → ((sdEventSourceSetPriority s.loop i priority).source j).priority =
      (s.loop.source j).priority := fun j hj => by rw [setPriority_source, if_neg hj]
  by_cases htype : (s.loop.source i).type = .defer
  · have hin := (h.mem i).mpr ⟨hlive, htype⟩
    have hlinked : s.loop.isLinked i = true := isLinked_iff.mpr ⟨_, hin⟩
    have hlist := setPriority_list hlinked priority .deferSources
    rw [if_pos (by rw [htype]; rfl), if_pos rfl] at hlist
    have hout : i ∉ (s.loop.list .deferSources).erase i := h.nodup.not_mem_erase
    refine h.insert hplaced List.erase_sublist hout hlist (if_pos htype) rfl (fun j hj => ?_)
      fun j => ?_
    · exact hother j fun hji => hout (hji ▸ hj)
    · dsimp only
      rw [(hkept j).1, (hkept j).2, ← h.mem, h.nodup.mem_erase_iff]
      constructor
      · exact fun hj => or_iff_not_imp_left.mpr fun hne => ⟨hne, hj⟩
      · rintro (rfl | hj)
        · exact hin
        · exact hj.2
  · have hout : i ∉ s.loop.list .deferSources := fun hi => htype ((h.mem i).mp hi).2
    have hlist : (sdEventSourceSetPriority s.loop i priority).list .deferSources =
        s.loop.list .deferSources := by
      by_cases hlinked : s.loop.isLinked i = true
      · rw [setPriority_list hlinked, if_neg, List.erase_of_not_mem hout]
        rw [SourceType.target, if_neg htype]
        decide
      · rw [setPriority_list_of_not hlinked]
    rw [if_neg htype]
    refine h.same hplaced hlist rfl (Nat.le_succ _) (fun j hj => ?_) fun j => ?_
    · exact hother j fun hji => hout (hji ▸ hj)
    · dsimp only
      rw [(hkept j).1, (hkept j).2]

theorem Ordered.drop (h : Ordered s) {f : Source → Source} {i : Nat}
    (hplaced : Placed ((s.loop.unlink i).modify i f)) (hf : ∀ x, (f x).live = false) :
    Ordered { loop := (s.loop.unlink i).modify i f, count := s.count + 1, last := s.last } := by
  have hsource : ∀ j, ((s.loop.unlink i).modify i f).source j =
      if j = i then f (s.loop.source i) else s.loop.source j := modify_source f
  have hmem : ∀ j, j ∈ (s.loop.list .deferSources).erase i ↔
      j ≠ i ∧ j ∈ s.loop.list .deferSources := fun j => h.nodup.mem_erase_iff
  refine ⟨⟨?_, h.nodup.sublist List.erase_sublist, fun j => ?_⟩, hplaced, fun j hj => ?_⟩
  · refine List.Pairwise.imp_of_mem (fun {j k} hj hk hjk => ?_)
      (h.sorted.sublist (List.erase_sublist (a := i)))
    refine hjk.congr ⟨?_, rfl⟩ ⟨?_, rfl⟩
    · dsimp only
      rw [hsource, if_neg ((hmem j).mp hj).1]
    · dsimp only
      rw [hsource, if_neg ((hmem k).mp hk).1]
  · refine (hmem j).trans ?_
    dsimp only
    rw [hsource]
    split
    · next hj =>
      refine iff_of_false (fun hno => hno.1 hj) fun hyes => ?_
      exact absurd ((hf _).symm.trans hyes.1) nofun
    · next hj => exact (and_iff_right hj).trans (h.mem j)
  · exact (h.past j ((hmem j).mp hj).2).trans (Nat.lt_succ_self _)

theorem Ordered.exec (h : Ordered s) (op : EventOp) : Ordered (s.exec op) := by
  have hplaced := h.placed.exec op
  unfold Inserted.exec
  by_cases hallowed : op.allowed s.loop = true
  swap
  · -- A call on a source that has gone.
    have hnone : op.inserts s.loop = none := by
      cases op with
      | addDefer => exact absurd rfl hallowed
      | setPriority i priority =>
        have hdead : (s.loop.source i).live = false := Bool.eq_false_of_not_eq_true hallowed
        simp only [EventOp.inserts, hdead, Bool.false_and, Bool.false_eq_true, if_false]
      | _ => rfl
    rw [EventOp.exec, if_neg hallowed] at hplaced ⊢
    rw [hnone]
    exact h.same hplaced rfl rfl (Nat.le_succ _) (fun _ _ => rfl) fun _ => Iff.rfl
  rw [EventOp.exec, if_pos hallowed] at hplaced ⊢
  cases op with
  | addIo events r =>
    exact h.added hplaced (addIo_added events r) nofun nofun
  | addTime usec r =>
    refine h.added hplaced (addTime_added usec r) ?_ ?_
    · unfold newTimeList
      split <;> exact nofun
    · unfold newTime
      split <;> exact nofun
  | addDefer =>
    have ha := addDefer_added (e := s.loop)
    have hout : s.loop.nSources ∉ s.loop.list .deferSources :=
      fun hi => absurd (h.placed.listed _ _ hi) (lt_irrefl _)
    have hlist : (sdEventAddDefer s.loop).list .deferSources =
        deferInsertSorted (fun j => ((sdEventAddDefer s.loop).source j).priority) s.loop.nSources
          (s.loop.list .deferSources) := rfl
    refine h.insert hplaced (List.Sublist.refl _) hout hlist rfl rfl (fun j hj => ?_) fun j => ?_
    · show ((sdEventAddDefer s.loop).source j).priority = _
      rw [ha.source, if_neg (ne_of_mem_of_not_mem hj hout)]
    · show ((sdEventAddDefer s.loop).source j).live = true ∧
        ((sdEventAddDefer s.loop).source j).type = .defer ↔ _
      rw [ha.source]
      split
      · next hj => exact iff_of_true ⟨rfl, rfl⟩ (Or.inl hj)
      · next hj => rw [← h.mem, or_iff_right hj]
  | addPost => exact h.added hplaced addPost_added nofun nofun
  | addExit => exact h.added hplaced addExit_added nofun nofun
  | setPriority i priority =>
    have hlive : (s.loop.source i).live = true := hallowed
    have hset := h.setPriority priority hlive hplaced
    simp only [EventOp.inserts, hlive, Bool.true_and, decide_eq_true_eq]
    by_cases htype : (s.loop.source i).type = .defer
    · rw [if_pos htype] at hset ⊢
      exact hset
    · rw [if_neg htype] at hset ⊢
      exact hset
  | setEnabled i enabled =>
    refine h.modify (f := fun x => x.setEnabled enabled) i hplaced fun x => ?_
    obtain ⟨hlive, htype, hpriority, -⟩ := x.setEnabled_kept enabled
    exact ⟨hlive, htype, hpriority⟩
  | setTime i usec =>
    change Placed (sdEventSourceSetTime s.loop i usec) at hplaced
    change Ordered { loop := sdEventSourceSetTime s.loop i usec, count := _, last := s.last }
    unfold sdEventSourceSetTime at hplaced ⊢
    split at hplaced
    · next hno =>
      rw [if_pos hno]
      exact h.same hplaced rfl rfl (Nat.le_succ _) (fun _ _ => rfl) fun _ => Iff.rfl
    · next hno =>
      rw [if_neg hno]
      refine h.modify i hplaced fun x => ?_
      obtain ⟨hlive, htype, hpriority, -⟩ := x.setTime_kept s.loop.now usec
      exact ⟨hlive, htype, hpriority⟩
  | ref i =>
    exact h.modify (f := fun x => { x with refCount := x.refCount + 1 }) i hplaced
      fun x => ⟨rfl, rfl, rfl⟩
  | unref i =>
    change Placed (sdEventSourceUnref s.loop i) at hplaced
    change Ordered { loop := sdEventSourceUnref s.loop i, count := _, last := s.last }
    unfold sdEventSourceUnref at hplaced ⊢
    split at hplaced
    · next hlast =>
      rw [if_pos hlast]
      exact h.drop hplaced fun _ => rfl
    · next hlast =>
      rw [if_neg hlast]
      exact h.modify i hplaced fun x => ⟨rfl, rfl, rfl⟩
  | exit code => exact h.same hplaced rfl rfl (Nat.le_succ _) (fun _ _ => rfl) fun _ => Iff.rfl

end

/-- After every sequence of calls each live deferred source is in the list once, by ascending
priority, and those of one priority in the order in which they were last put in. -/
theorem inOrder_run (ops : List EventOp) : InOrder (ops.foldl Inserted.exec {}) := by
  have hrun : ∀ (ops : List EventOp) {s : Inserted}, Ordered s →
      Ordered (ops.foldl Inserted.exec s) := by
    intro ops
    induction ops with
    | nil => exact id
    | cons op ops ih => exact fun h => ih (h.exec op)
  refine (hrun ops ⟨⟨List.Pairwise.nil, List.nodup_nil, fun i => ?_⟩, placed_initial,
    fun i hi => absurd hi List.not_mem_nil⟩).toInOrder
  exact iff_of_false List.not_mem_nil fun hyes => absurd hyes.1 Bool.false_ne_true

/-- Two sources are added, and the first is given its priority again. -/
example : (([.addDefer, .addDefer, .setPriority 0 0] : List EventOp).foldl Inserted.exec {}).loop.list
    .deferSources = [1, 0] := by decide

end Basu.Event
