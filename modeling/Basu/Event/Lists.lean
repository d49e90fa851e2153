import Basu.Event.Placed

/-! Which list a source is linked in, along every run of an event loop. -/

namespace Basu.Event
open Function

/-- Live sources are linked in the list of their type, once, and nothing else is linked; the lists
of the IO sources and of the deferred sources are sorted. -/
structure Listed (e : Loop) : Prop where
  only : ∀ k, ∀ i ∈ e.list k, (e.source i).live = true ∧ (e.source i).type.list = some k
  linked : ∀ i k, (e.source i).live = true → (e.source i).type.list = some k → i ∈ e.list k
  nodup : ∀ k, (e.list k).Nodup
  bound : ∀ i, (e.source i).live = true → i < e.nSources
  ioSorted : e.Sorted (e.list .sources)
  deferSorted : e.Sorted (e.list .deferSources)

/-- What a call must not do: move a source that is neither an IO source nor a deferred one by its
priority, or fail to set up the file of an IO source. -/
def EventOp.Keeps (e : Loop) (op : EventOp) : Prop :=
  op.allowed e = true → match op with
    | .setPriority i _ => e.isLinked i = true →
      (e.source i).type = .io ∨ (e.source i).type = .defer
    | .addIo _ r => r.fileOk = true
    | _ => True

section
variable {e e' : Loop} {i : Nat}

theorem Listed.of_perm (h : Listed e) (hperm : ∀ k, (e'.list k).Perm (e.list k))
    (hlive : ∀ j, (e'.source j).live = (e.source j).live)
    (htype : ∀ j, (e'.source j).type = (e.source j).type) (hn : e.nSources ≤ e'.nSources)
    (hio : e'.Sorted (e'.list .sources)) (hdefer : e'.Sorted (e'.list .deferSources)) :
    Listed e' := by
  refine ⟨fun k j hj => ?_, fun j k hl ht => ?_, fun k => ?_, fun j hj => ?_, hio, hdefer⟩
  · rw [hlive, htype]
    exact h.only k j ((hperm k).mem_iff.mp hj)
  · rw [hlive] at hl
    rw [htype] at ht
    exact (hperm k).mem_iff.mpr (h.linked j k hl ht)
  · exact (hperm k).nodup_iff.mpr (h.nodup k)
  · rw [hlive] at hj
    exact (h.bound j hj).trans_le hn

theorem Listed.congr (h : Listed e) (hlist : e'.list = e.list)
    (hsource : ∀ j, (e'.source j).live = (e.source j).live ∧
      (e'.source j).type = (e.source j).type ∧ (e'.source j).priority = (e.source j).priority)
    (hn : e.nSources ≤ e'.nSources) : Listed e' := by
  refine h.of_perm (fun k => by rw [hlist]) (fun j => (hsource j).1) (fun j => (hsource j).2.1) hn
    ?_ ?_
  · rw [hlist]
    exact h.ioSorted.congr fun j _ => (hsource j).2.2
  · rw [hlist]
    exact h.deferSorted.congr fun j _ => (hsource j).2.2

theorem Listed.modify (h : Listed e) {f : Source → Source}
    (hf : ∀ s, (f s).live = s.live ∧ (f s).type = s.type ∧ (f s).priority = s.priority) :
    Listed (e.modify i f) := by
  refine h.congr rfl (fun j => ?_) le_rfl
  rw [modify_source]
  split
  · next hj => rw [hj]; exact hf _
  · exact ⟨rfl, rfl, rfl⟩

theorem Listed.add (h : Listed e) {s : Source} {K : Option SourceList} (ha : Added e e' s K)
    (hK : ∀ k, K = some k ↔ s.live = true ∧ s.type.list = some k) : Listed e' := by
  have hne : ∀ k, ∀ j ∈ e.list k, j ≠ e.nSources :=
    fun k j hj => (h.bound j (h.only k j hj).1).ne
  have hold : ∀ {j}, j ≠ e.nSources → e'.source j = e.source j := by
    intro j hj
    rw [ha.source, if_neg hj]
  have hnew : e'.source e.nSources = s := by rw [ha.source, if_pos rfl]
  have hsorted : ∀ k, k = .sources ∨ k = .deferSources → e.Sorted (e.list k) →
      e'.Sorted (e'.list k) := by
    intro k hk hs
    have hs' : e'.Sorted (e.list k) := hs.congr fun j hj => by rw [hold (hne k j hj)]
    by_cases hKk : K = some k
    · exact ha.sorted k hKk hk hs'
    · rw [ha.other k hKk]
      exact hs'
  have hmem : ∀ {k j}, j ∈ e'.list k ↔ j ∈ e.list k ∨ j = e.nSources ∧ K = some k := by
    intro k j
    by_cases hk : K = some k
    · rw [(ha.perm k hk).mem_iff, List.mem_cons, or_comm, eq_true hk, and_true]
    · rw [ha.other k hk, eq_false hk, and_false, or_false]
  refine ⟨fun k j hj => ?_, fun j k hl ht => hmem.mpr ?_, fun k => ?_, fun j hj => ?_,
    hsorted _ (.inl rfl) h.ioSorted, hsorted _ (.inr rfl) h.deferSorted⟩
  · rcases hmem.mp hj with hj | ⟨rfl, hk⟩
    · rw [hold (hne k j hj)]
      exact h.only k j hj
    · rw [hnew]
      exact (hK k).mp hk
  · by_cases hj : j = e.nSources
    · rw [hj, hnew] at hl ht
      exact .inr ⟨hj, (hK k).mpr ⟨hl, ht⟩⟩
    · rw [hold hj] at hl ht
      exact .inl (h.linked j k hl ht)
  · by_cases hk : K = some k
    · rw [(ha.perm k hk).nodup_iff]
      exact List.nodup_cons.mpr ⟨fun hin => hne k _ hin rfl, h.nodup k⟩
    · rw [ha.other k hk]
      exact h.nodup k
  · rw [ha.nSources]
    by_cases hj' : j = e.nSources
    · exact hj' ▸ Nat.lt_succ_self _
    · rw [hold hj'] at hj
      exact (h.bound j hj).trans (Nat.lt_succ_self _)

theorem Listed.drop (h : Listed e) {f : Source → Source} (hf : ∀ s, (f s).live = false) :
    Listed ((e.unlink i).modify i f) := by
  have hsource : ∀ j, ((e.unlink i).modify i f).source j =
      if j = i then f (e.source i) else e.source j := modify_source f
  have hmem : ∀ {k j}, j ∈ (e.list k).erase i → j ∈ e.list k ∧ j ≠ i := by
    intro k j hj
    have hne : j ≠ i := by
      rintro rfl
      exact absurd hj ((h.nodup k).not_mem_erase)
    exact ⟨List.mem_of_mem_erase hj, hne⟩
  have hsorted : ∀ k, e.Sorted (e.list k) →
      ((e.unlink i).modify i f).Sorted ((e.list k).erase i) := by
    intro k hs
    refine Loop.Sorted.congr (e := e) (List.Pairwise.sublist List.erase_sublist hs) fun j hj => ?_
    rw [hsource, if_neg (hmem hj).2]
  refine ⟨fun k j hj => ?_, fun j k hl ht => ?_, fun k => (h.nodup k).erase i, fun j hj => ?_,
    hsorted _ h.ioSorted, hsorted _ h.deferSorted⟩
  · rw [hsource, if_neg (hmem hj).2]
    exact h.only k j (hmem hj).1
  · rw [hsource] at hl ht
    split at hl
    · exact absurd ((hf _).symm.trans hl) (by simp)
    · next hne =>
      rw [if_neg hne] at ht
      exact (List.mem_erase_of_ne hne).mpr (h.linked j k hl ht)
  · rw [hsource] at hj
    split at hj
    · exact absurd ((hf _).symm.trans hj) (by simp)
    · exact h.bound j hj

theorem Listed.addIo (h : Listed e) {events : UInt32} {r : AddResult} (hr : r.fileOk = true) :
    Listed (sdEventAddIo e events r) := by
  refine h.add (addIo_added events r) fun k => ?_
  unfold newIo
  rw [hr]
  exact ⟨fun hk => ⟨rfl, hk⟩, fun hk => hk.2⟩

theorem Listed.addTime (h : Listed e) (usec : UInt64) (r : AddResult) :
    Listed (sdEventAddTime e usec r) := by
  refine h.add (addTime_added usec r) fun k => ?_
  unfold newTime newTimeList
  cases r.pipeOk with
  | false => exact ⟨fun hk => absurd hk (by simp), fun hk => absurd hk.1 Bool.false_ne_true⟩
  | true =>
    cases r.fileOk with
    | false => exact ⟨fun hk => absurd hk (by simp), fun hk => absurd hk.1 Bool.false_ne_true⟩
    | true => exact ⟨fun hk => ⟨rfl, hk⟩, fun hk => hk.2⟩

theorem Listed.addDefer (h : Listed e) : Listed (sdEventAddDefer e) :=
  h.add addDefer_added fun _ => ⟨fun hk => ⟨rfl, hk⟩, fun hk => hk.2⟩

theorem Listed.addPost (h : Listed e) : Listed (sdEventAddPost e) :=
  h.add addPost_added fun _ => ⟨fun hk => absurd hk (by simp), fun hk => hk.2⟩

theorem Listed.addExit (h : Listed e) : Listed (sdEventAddExit e) :=
  h.add addExit_added fun _ => ⟨fun hk => ⟨rfl, hk⟩, fun hk => hk.2⟩

theorem setPriority_priority (priority : Int) (j : Nat) :
    ((sdEventSourceSetPriority e i priority).source j).priority =
      if j = i then priority else (e.source j).priority := by
  rw [setPriority_source]
  split <;> rfl

theorem setPriority_kept (priority : Int) (j : Nat) :
    ((sdEventSourceSetPriority e i priority).source j).live = (e.source j).live ∧
      ((sdEventSourceSetPriority e i priority).source j).type = (e.source j).type := by
  rw [setPriority_source]
  split
  · next hj => rw [hj]; exact ⟨rfl, rfl⟩
  · exact ⟨rfl, rfl⟩

theorem Loop.Sorted.setPriority {l : List Nat} (hl : e.Sorted l) (hi : i ∉ l) (priority : Int) :
    (sdEventSourceSetPriority e i priority).Sorted l := by
  refine hl.congr fun j hj => ?_
  rw [setPriority_priority, if_neg]
  rintro rfl
  exact hi hj

theorem Listed.setPriority (h : Listed e) {priority : Int}
    (hi : e.isLinked i = true → (e.source i).type = .io ∨ (e.source i).type = .defer) :
    Listed (sdEventSourceSetPriority e i priority) := by
  have hlive := fun j => (setPriority_kept (e := e) (i := i) priority j).1
  have htype := fun j => (setPriority_kept (e := e) (i := i) priority j).2
  have hn := (setPriority_nSources (e := e) (i := i) priority).ge
  by_cases hlinked : e.isLinked i = true
  swap
  · have hout : ∀ k, i ∉ e.list k := fun k hk => hlinked (isLinked_iff.mpr ⟨k, hk⟩)
    have hlist := setPriority_list_of_not hlinked priority
    refine h.of_perm (fun k => by rw [hlist]) hlive htype hn ?_ ?_
    · rw [hlist]
      exact h.ioSorted.setPriority (hout _) priority
    · rw [hlist]
      exact h.deferSorted.setPriority (hout _) priority
  obtain ⟨k, hk⟩ := isLinked_iff.mp hlinked
  have hlist := setPriority_list hlinked priority
  have htarget : (e.source i).type.target = k := by
    have hown := (h.only k i hk).2
    rcases hi hlinked with hio | hdefer
    · rw [hio] at hown ⊢
      exact Option.some.inj hown
    · rw [hdefer] at hown ⊢
      exact Option.some.inj hown
  have hother : ∀ k', k' ≠ k → (e.list k').erase i = e.list k' := by
    intro k' hk'
    refine List.erase_of_not_mem fun hi' => hk' ?_
    exact Option.some.inj ((h.only k' i hi').2.symm.trans (h.only k i hk).2)
  have hsorted : ∀ k', k' = .sources ∨ k' = .deferSources → e.Sorted (e.list k') →
      (sdEventSourceSetPriority e i priority).Sorted
        ((sdEventSourceSetPriority e i priority).list k') := by
    intro k' hk' hs
    have herase := Loop.Sorted.setPriority (l := (e.list k').erase i)
      (List.Pairwise.sublist List.erase_sublist hs) (h.nodup k').not_mem_erase priority
    rw [hlist]
    split
    · split
      · exact sorted_deferInsertSorted _ herase
      · exact sorted_insertSorted _ herase
    · exact herase
  refine h.of_perm (fun k' => ?_) hlive htype hn (hsorted _ (.inl rfl) h.ioSorted)
    (hsorted _ (.inr rfl) h.deferSorted)
  by_cases hk' : k' = k
  · have hperm := perm_setPriority_list hlinked priority
    rw [htarget] at hperm
    rw [hk']
    exact hperm.trans (List.perm_cons_erase hk).symm
  · rw [hlist, if_neg (by rw [htarget]; exact hk'), hother k' hk']

theorem Listed.setEnabled (h : Listed e) {enabled : Enabled} :
    Listed (sdEventSourceSetEnabled e i enabled) := by
  refine h.modify fun s => ?_
  have hkept := s.setEnabled_kept enabled
  exact ⟨hkept.1, hkept.2.1, hkept.2.2.1⟩

theorem Listed.setTime (h : Listed e) {usec : UInt64} : Listed (sdEventSourceSetTime e i usec) := by
  unfold sdEventSourceSetTime
  split
  · exact h
  · refine h.modify fun s => ?_
    have hkept := s.setTime_kept e.now usec
    exact ⟨hkept.1, hkept.2.1, hkept.2.2.1⟩

theorem Listed.ref (h : Listed e) : Listed (sdEventSourceRef e i) :=
  h.modify fun _ => ⟨rfl, rfl, rfl⟩

theorem Listed.unref (h : Listed e) : Listed (sdEventSourceUnref e i) := by
  unfold sdEventSourceUnref
  split
  · exact h.drop fun _ => rfl
  · exact h.modify fun _ => ⟨rfl, rfl, rfl⟩

theorem mem_sources_of_setPriority {priority : Int} (hi : e.isLinked i = true)
    (hd : (e.source i).type ≠ .defer) :
    i ∈ (sdEventSourceSetPriority e i priority).list .sources := by
  have hperm := perm_setPriority_list hi priority
  rw [SourceType.target, if_neg hd] at hperm
  exact hperm.mem_iff.mpr List.mem_cons_self

theorem mem_sources_of_addIo (events : UInt32) {r : AddResult} (hr : r.fileOk = false) :
    e.nSources ∈ (sdEventAddIo e events r).list .sources ∧
      ((sdEventAddIo e events r).source e.nSources).live = false := by
  have ha := addIo_added (e := e) events r
  refine ⟨(ha.perm .sources rfl).mem_iff.mpr List.mem_cons_self, ?_⟩
  rw [ha.source, if_pos rfl]
  exact hr

theorem Listed.exec_iff (h : Listed e) (op : EventOp) : op.Keeps e ↔ Listed (op.exec e) := by
  unfold EventOp.Keeps EventOp.exec
  by_cases hallowed : op.allowed e = true
  swap
  · rw [if_neg hallowed]
    exact ⟨fun _ => h, fun _ hno => absurd hno hallowed⟩
  rw [if_pos hallowed]
  refine (forall_prop_of_true hallowed).trans ?_
  cases op with
  | addIo events r =>
    constructor
    · intro hr
      exact h.addIo hr
    · intro hl
      by_contra hr
      obtain ⟨hin, hdead⟩ := mem_sources_of_addIo (e := e) events
        (Bool.eq_false_of_not_eq_true hr)
      exact absurd ((hl.only _ _ hin).1) (by rw [EventOp.run, hdead]; decide)
  | addTime usec r => exact iff_of_true trivial (h.addTime usec r)
  | addDefer => exact iff_of_true trivial h.addDefer
  | addPost => exact iff_of_true trivial h.addPost
  | addExit => exact iff_of_true trivial h.addExit
  | setPriority i priority =>
    constructor
    · exact fun hi => h.setPriority hi
    · intro hl hi
      by_cases hd : (e.source i).type = .defer
      · exact .inr hd
      · have hlist := (hl.only _ _ (mem_sources_of_setPriority hi hd)).2
        rw [EventOp.run, (setPriority_kept priority i).2] at hlist
        cases ht : (e.source i).type <;> rw [ht] at hlist <;> first | exact .inl rfl | cases hlist
  | setEnabled i enabled => exact iff_of_true trivial h.setEnabled
  | setTime i usec => exact iff_of_true trivial h.setTime
  | ref i => exact iff_of_true trivial h.ref
  | unref i => exact iff_of_true trivial h.unref
  | exit code => exact iff_of_true trivial (h.congr rfl (fun _ => ⟨rfl, rfl, rfl⟩) le_rfl)

end

theorem listed_initial : Listed {} where
  only _ _ hi := absurd hi List.not_mem_nil
  linked _ _ hl _ := absurd hl Bool.false_ne_true
  nodup _ := List.nodup_nil
  bound _ hl := absurd hl Bool.false_ne_true
  ioSorted := List.Pairwise.nil
  deferSorted := List.Pairwise.nil

theorem lawful_listed : Lawful Listed fun e op => op.Keeps e where
  exec e op h := h.exec_iff op
  inner e i f hf h := h.modify hf.keeps
  state e prepared state h := h.congr rfl (fun _ => ⟨rfl, rfl, rfl⟩) le_rfl
  tick e t h := by
    unfold Loop.tick
    split
    · exact h.congr rfl (fun _ => ⟨rfl, rfl, rfl⟩) le_rfl
    · exact h
  expire e i h := by
    unfold Loop.expire
    split
    · exact h.modify Source.timerWork_kept
    · exact h

/-- Along every run live sources are linked in the list of their type and in no other, and the
lists of IO sources and deferred sources are sorted, exactly if `sd_event_source_set_priority` is
never called on a linked source of another type and no `sd_event_add_io` fails to set up a file. -/
theorem eventRun_listed (ops : List LoopOp) :
    ((eventRun ops).Calls fun e op => op.Keeps e) ↔ (eventRun ops).Always Listed :=
  lawful_listed.run listed_initial ops

/-- A timer with a priority is found among the IO sources. -/
theorem not_eventRun_listed : ¬ ∀ ops : List LoopOp, (eventRun ops).Always Listed := by
  intro h
  have hin : 0 ∈ (eventRun [.call (.addTime 1000 {}), .call (.setPriority 0 5)]).loop.list
      .sources := by decide
  exact absurd ((h _).1.only _ _ hin).2 (by decide)

end Basu.Event
