import Basu.Event.Turns

/-! What `sd_event_exit` does to an event loop: the state it sets is overwritten wherever an
iteration sets its own. -/

namespace Basu.Event
open Lib Function

/-- Once an exit was requested, the state is `EXITING` wherever it can be looked at: at the end,
before each call and when each handler is called; and no time handler is called any more. -/
structure Exiting (r : Running) : Prop where
  state : r.loop.exitRequested = true → r.loop.state = .exiting
  calls : ∀ c ∈ r.calls, c.1.exitRequested = true → c.1.state = .exiting
  handlers : ∀ x ∈ r.log, x.1.exitRequested = true → x.1.state = .exiting
  timers : ∀ x ∈ r.log, x.2.type = .time → x.1.exitRequested = false

def EventOp.isExit : EventOp → Bool
  | .exit _ => true
  | _ => false

/-- No iteration is prepared and no poll ends when an exit was requested, and none is requested
while the time handlers and the files are dispatched. -/
def LoopOp.Orderly (r : Running) : LoopOp → Prop
  | .prepare => r.loop.exitRequested = false
  | .waitBegin => r.loop.prepared = true ∨ r.loop.exitRequested = false
  | .waitEnd _ => r.loop.exitRequested = false
  | .dispatch h fuel => (afterDeferred h fuel r).loop.exitRequested = false →
    ∀ c ∈ (sdEventDispatch h fuel r).1.callsSince (afterDeferred h fuel r), c.2.isExit = false
  | _ => True

def LoopOp.Ends (r : Running) : LoopOp → Prop
  | .dispatch h fuel => (sdEventDispatch h fuel r).2 = .done
  | _ => True

section
variable {e : Loop} {r r₀ : Running} {h : Handlers}

theorem run_exit (op : EventOp) : (op.run e).exitRequested = (op.isExit || e.exitRequested) ∧
    (op.run e).state = if op.isExit then .exiting else e.state := by
  have hadded : ∀ {e' s K}, Added e e' s K → e'.exitRequested = e.exitRequested ∧
      e'.state = e.state := fun ha => ha.rest.2
  cases op with
  | addIo events r => exact hadded (addIo_added events r)
  | addTime usec r => exact hadded (addTime_added usec r)
  | addDefer => exact hadded addDefer_added
  | addPost => exact hadded addPost_added
  | addExit => exact hadded addExit_added
  | setPriority i priority =>
    show (sdEventSourceSetPriority e i priority).exitRequested = e.exitRequested ∧
      (sdEventSourceSetPriority e i priority).state = e.state
    unfold sdEventSourceSetPriority
    dsimp only
    split_ifs <;> exact ⟨rfl, rfl⟩
  | setTime i usec =>
    show (sdEventSourceSetTime e i usec).exitRequested = e.exitRequested ∧
      (sdEventSourceSetTime e i usec).state = e.state
    unfold sdEventSourceSetTime
    split <;> exact ⟨rfl, rfl⟩
  | unref i =>
    show (sdEventSourceUnref e i).exitRequested = e.exitRequested ∧
      (sdEventSourceUnref e i).state = e.state
    unfold sdEventSourceUnref
    split <;> exact ⟨rfl, rfl⟩
  | _ => exact ⟨rfl, rfl⟩

theorem exec_exit (op : EventOp) : (op.exec e).exitRequested = (op.isExit || e.exitRequested) ∧
    (op.exec e).state = if op.isExit then .exiting else e.state := by
  unfold EventOp.exec
  split
  · exact run_exit op
  · next hno =>
    cases op with
    | exit code => exact absurd rfl hno
    | _ => exact ⟨rfl, rfl⟩

theorem stable_exiting : Stable (· ≠ .time) Exiting where
  exec r op _ hr := by
    obtain ⟨hreq, hstate⟩ := exec_exit (e := r.loop) op
    refine ⟨fun h => ?_, fun c hc => ?_, hr.handlers, hr.timers⟩
    · have h' : (op.exec r.loop).exitRequested = true := h
      show (op.exec r.loop).state = .exiting
      rw [hreq] at h'
      rw [hstate]
      split
      · rfl
      · next hno =>
        rw [Bool.eq_false_iff.mpr hno, Bool.false_or] at h'
        exact hr.state h'
    · rcases List.mem_append.mp hc with hc | hc
      · exact hr.calls c hc
      · obtain rfl := List.mem_singleton.mp hc
        exact hr.state
  inner _ _ _ _ _ hr := ⟨hr.state, hr.calls, hr.handlers, hr.timers⟩
  log r c hc hr := by
    refine ⟨hr.state, hr.calls, fun x hx => ?_, fun x hx ht => ?_⟩
    · rcases List.mem_append.mp hx with hx | hx
      · exact hr.handlers x hx
      · obtain rfl := List.mem_singleton.mp hx
        exact hr.state
    · rcases List.mem_append.mp hx with hx | hx
      · exact hr.timers x hx ht
      · obtain rfl := List.mem_singleton.mp hx
        exact absurd ht hc

def Quiet (r₀ r : Running) : Prop :=
  Follows r₀ r ∧ ((∀ c ∈ r.callsSince r₀, c.2.isExit = false) →
    r.loop.exitRequested = false ∧ Exiting r)

theorem Exiting.of_quiet {r' : Running} (h : Exiting r) (hno : r'.loop.exitRequested = false)
    (hcalls : r'.calls = r.calls) (hlog : r'.log = r.log) : Exiting r' :=
  ⟨fun hreq => absurd (hno.symm.trans hreq) Bool.false_ne_true, hcalls ▸ h.calls,
    hlog ▸ h.handlers, hlog ▸ h.timers⟩

theorem lasting_quiet (r₀ : Running) : Lasting (Quiet r₀) where
  exec r op hp hr := by
    have hcalls := callsSince_exec hr.1 op
    refine ⟨⟨hr.1.calls.trans ?_, hr.1.log⟩, fun hno => ?_⟩
    · show r.calls.length ≤ (r.calls ++ [(r.loop, op)]).length
      rw [List.length_append]
      exact Nat.le_add_right _ _
    · rw [hcalls] at hno
      obtain ⟨hreq, hlaw⟩ := hr.2 fun c hc => hno c (List.mem_append_left _ hc)
      have hop := hno (r.loop, op) (List.mem_append_right _ List.mem_cons_self)
      refine ⟨?_, stable_exiting.exec r op hp hlaw⟩
      show (op.exec r.loop).exitRequested = false
      rw [(exec_exit op).1, hreq, Bool.or_false]
      exact hop
  inner r i f _ _ hr := ⟨⟨hr.1.calls, hr.1.log⟩, fun hno =>
    ⟨(hr.2 hno).1, (hr.2 hno).2.of_quiet (hr.2 hno).1 rfl rfl⟩⟩
  log r c _ hr := by
    refine ⟨⟨hr.1.calls, hr.1.log.trans ?_⟩, fun hno => ⟨(hr.2 hno).1, ?_⟩⟩
    · show r.log.length ≤ (r.log ++ [(r.loop, c)]).length
      rw [List.length_append]
      exact Nat.le_add_right _ _
    · obtain ⟨hreq, hlaw⟩ := hr.2 hno
      refine ⟨hlaw.state, hlaw.calls, fun x hx => ?_, fun x hx ht => ?_⟩
      · rcases List.mem_append.mp hx with hx | hx
        · exact hlaw.handlers x hx
        · obtain rfl := List.mem_singleton.mp hx
          exact hlaw.state
      · rcases List.mem_append.mp hx with hx | hx
        · exact hlaw.timers x hx ht
        · obtain rfl := List.mem_singleton.mp hx
          exact hreq
  state r _ _ hr := ⟨⟨hr.1.calls, hr.1.log⟩, fun hno =>
    ⟨(hr.2 hno).1, (hr.2 hno).2.of_quiet (hr.2 hno).1 rfl rfl⟩⟩
  tick r t hr := by
    have hreq : (r.loop.tick t).exitRequested = r.loop.exitRequested := by
      unfold Loop.tick
      split <;> rfl
    refine ⟨⟨hr.1.calls, hr.1.log⟩, fun hno => ?_⟩
    have hno' : (r.loop.tick t).exitRequested = false := hreq.trans (hr.2 hno).1
    exact ⟨hno', (hr.2 hno).2.of_quiet hno' rfl rfl⟩
  expire r i hr := by
    have hreq : (r.loop.expire i).exitRequested = r.loop.exitRequested := by
      unfold Loop.expire
      split <;> rfl
    refine ⟨⟨hr.1.calls, hr.1.log⟩, fun hno => ?_⟩
    have hno' : (r.loop.expire i).exitRequested = false := hreq.trans (hr.2 hno).1
    exact ⟨hno', (hr.2 hno).2.of_quiet hno' rfl rfl⟩

theorem lasting_requested (r₀ : Running) : Lasting fun r => Follows r₀ r ∧
    ((∃ c ∈ r.callsSince r₀, c.2.isExit = true) → r.loop.exitRequested = true) where
  exec r op _ hr := by
    have hcalls := callsSince_exec hr.1 op
    refine ⟨⟨hr.1.calls.trans ?_, hr.1.log⟩, ?_⟩
    · show r.calls.length ≤ (r.calls ++ [(r.loop, op)]).length
      rw [List.length_append]
      exact Nat.le_add_right _ _
    · rintro ⟨c, hc, hexit⟩
      show (op.exec r.loop).exitRequested = true
      rw [(exec_exit op).1, Bool.or_eq_true]
      rw [hcalls] at hc
      rcases List.mem_append.mp hc with hc | hc
      · exact .inr (hr.2 ⟨c, hc, hexit⟩)
      · obtain rfl := List.mem_singleton.mp hc
        exact .inl hexit
  inner _ _ _ _ _ hr := ⟨⟨hr.1.calls, hr.1.log⟩, hr.2⟩
  log r c _ hr := by
    refine ⟨⟨hr.1.calls, hr.1.log.trans ?_⟩, hr.2⟩
    show r.log.length ≤ (r.log ++ [(r.loop, c)]).length
    rw [List.length_append]
    exact Nat.le_add_right _ _
  state _ _ _ hr := ⟨⟨hr.1.calls, hr.1.log⟩, hr.2⟩
  tick r t hr := by
    refine ⟨⟨hr.1.calls, hr.1.log⟩, fun hc => ?_⟩
    show (r.loop.tick t).exitRequested = true
    unfold Loop.tick
    split <;> exact hr.2 hc
  expire r i hr := by
    refine ⟨⟨hr.1.calls, hr.1.log⟩, fun hc => ?_⟩
    show (r.loop.expire i).exitRequested = true
    unfold Loop.expire
    split <;> exact hr.2 hc

theorem forEach_exit (k : SourceList) (f : Source → Source) :
    (e.forEach k f).exitRequested = e.exitRequested := by
  unfold Loop.forEach
  have hl : ∀ (l : List Nat) (e' : Loop), (l.foldl (fun e i => e.modify i f) e').exitRequested =
      e'.exitRequested := by
    intro l
    induction l with
    | nil => exact fun _ => rfl
    | cons i l ih => exact fun e' => ih (e'.modify i f)
  exact hl _ e

theorem prepare_exit : (sdEventPrepare e).exitRequested = e.exitRequested ∧
    (sdEventPrepare e).state = .armed := by
  refine ⟨?_, rfl⟩
  unfold sdEventPrepare
  dsimp only
  rw [forEach_exit, forEach_exit]

theorem sdEventDispatch_done {fuel : Nat} (hd : (sdEventDispatch h fuel r).2 = .done) :
    sdEventDispatch h fuel r = dispatchRest h fuel (afterDeferred h fuel r) := by
  unfold sdEventDispatch at hd ⊢
  dsimp only at hd ⊢
  split
  · rfl
  · next hne =>
    split at hd
    · next heq => exact absurd heq hne
    · exact absurd hd hne

theorem sdEventDispatch_cases (h : Handlers) (fuel : Nat) (r : Running) :
    sdEventDispatch h fuel r = dispatchRest h fuel (afterDeferred h fuel r) ∨
      (sdEventDispatch h fuel r).1 = afterDeferred h fuel r := by
  unfold sdEventDispatch
  dsimp only
  split
  · exact .inl rfl
  · exact .inr rfl

theorem dispatchRest_exit {fuel : Nat} (hexit : r.loop.exitRequested = true) :
    dispatchRest h fuel r = (r, .done) := if_pos hexit

theorem dispatchRest_state {fuel : Nat} (hexit : r.loop.exitRequested = false)
    (hd : (dispatchRest h fuel r).2 = .done) :
    (dispatchRest h fuel r).1.loop.state = .initial := by
  unfold dispatchRest at hd ⊢
  rw [hexit] at hd ⊢
  simp only [Bool.false_eq_true, if_false] at hd ⊢
  split
  · rfl
  · next hne =>
    split at hd
    · next heq => exact absurd heq hne
    · exact absurd hd hne

theorem Exiting.dispatch (hp : Placed r.loop) (hr : Exiting r) {fuel : Nat}
    (horderly : LoopOp.Orderly r (.dispatch h fuel)) : Exiting (sdEventDispatch h fuel r).1 := by
  obtain ⟨hp', hr'⟩ := stable_exiting.forList (h := h) (t := .defer) (by decide) (by decide)
    .deferSources fuel ⟨hp, hr⟩
  have horderly' : (afterDeferred h fuel r).loop.exitRequested = false →
    ∀ c ∈ (sdEventDispatch h fuel r).1.callsSince (afterDeferred h fuel r), c.2.isExit = false :=
    horderly
  rcases sdEventDispatch_cases h fuel r with heq | heq
  swap
  · rw [heq]
    exact hr'
  rw [heq] at horderly' ⊢
  by_cases hexit : (afterDeferred h fuel r).loop.exitRequested = true
  · rw [dispatchRest_exit hexit]
    exact hr'
  · have hexit' := Bool.eq_false_iff.mpr hexit
    have hquiet := ((lasting_quiet (afterDeferred h fuel r)).dispatchRest (h := h) fuel
      ⟨hp', .refl _, fun _ => ⟨hexit', hr'⟩⟩).2
    exact (hquiet.2 (horderly' hexit')).2

theorem Exiting.step (hp : Placed r.loop) (hr : Exiting r) (op : LoopOp) (hop : op.Orderly r) :
    Exiting (op.exec r) := by
  have hprepare : r.loop.exitRequested = false → Exiting (r.update sdEventPrepare) :=
    fun hno => hr.of_quiet (prepare_exit.1.trans hno) rfl rfl
  cases op with
  | call op => exact stable_exiting.exec r op hp hr
  | tick t =>
    refine ⟨?_, hr.calls, hr.handlers, hr.timers⟩
    show (r.loop.tick t).exitRequested = true → (r.loop.tick t).state = .exiting
    unfold Loop.tick
    split <;> exact hr.state
  | expire i =>
    refine ⟨?_, hr.calls, hr.handlers, hr.timers⟩
    show (r.loop.expire i).exitRequested = true → (r.loop.expire i).state = .exiting
    unfold Loop.expire
    split <;> exact hr.state
  | prepare => exact hprepare hop
  | waitBegin =>
    show Exiting (r.update sdEventWaitBegin)
    unfold Running.update sdEventWaitBegin
    split
    · exact hr
    · next hno => exact hprepare (hop.resolve_left hno)
  | waitEnd ret => exact hr.of_quiet hop rfl rfl
  | dispatch h fuel => exact hr.dispatch hp hop
  | exitHandlers h fuel =>
    exact (Stable.forEachSafe (fun i _ hl hr => stable_exiting.visitExit (by decide) hl hr)
      .exitSources fuel _ _ ⟨hp, hr⟩).2

theorem orderly_of_exiting (hp : Placed r.loop) (op : LoopOp) (hends : op.Ends r)
    (h' : Exiting (op.exec r)) : op.Orderly r := by
  have hreq : ∀ {e : Loop}, e.exitRequested = r.loop.exitRequested →
      (e.exitRequested = true → e.state = .exiting) → e.state ≠ .exiting →
      r.loop.exitRequested = false := by
    intro e he hlaw hne
    rw [Bool.eq_false_iff]
    exact fun hr => hne (hlaw (he.trans hr))
  cases op with
  | prepare => exact hreq prepare_exit.1 h'.state LoopState.noConfusion
  | waitBegin =>
    have h'' : Exiting (r.update sdEventWaitBegin) := h'
    unfold Running.update sdEventWaitBegin at h''
    by_cases hprep : r.loop.prepared = true
    · exact .inl hprep
    · rw [if_neg hprep] at h''
      exact .inr (hreq prepare_exit.1 h''.state LoopState.noConfusion)
  | waitEnd ret =>
    refine hreq (e := sdEventWaitEnd r.loop ret) rfl h'.state ?_
    unfold sdEventWaitEnd
    dsimp only
    split <;> exact LoopState.noConfusion
  | dispatch h fuel =>
    intro hexit c hc
    rw [Bool.eq_false_iff]
    intro hcexit
    have hends' : (sdEventDispatch h fuel r).2 = .done := hends
    have heq := sdEventDispatch_done hends'
    have hp' := afterDeferred_placed h fuel hp
    have h'' : Exiting (sdEventDispatch h fuel r).1 := h'
    rw [heq] at hc hends' h''
    have hlast := ((lasting_requested (afterDeferred h fuel r)).dispatchRest (h := h) fuel
      ⟨hp', .refl _, fun hex => ?_⟩).2.2 ⟨c, hc, hcexit⟩
    · have hinitial := dispatchRest_state hexit hends'
      exact absurd (hinitial.symm.trans (h''.state hlast)) LoopState.noConfusion
    · obtain ⟨c, hc, -⟩ := hex
      unfold Running.callsSince at hc
      rw [List.drop_length] at hc
      exact absurd hc List.not_mem_nil
  | _ => trivial

end

theorem exiting_initial : Exiting {} where
  state h := absurd h Bool.false_ne_true
  calls _ hc := absurd hc List.not_mem_nil
  handlers _ hx := absurd hx List.not_mem_nil
  timers _ hx := absurd hx List.not_mem_nil

theorem step_placed {r : Running} (op : LoopOp) (hp : Placed r.loop) : Placed (op.exec r).loop :=
  (lasting_true.step op ⟨hp, trivial⟩).1

theorem orderly_of_statesAll : ∀ (ops : List LoopOp) {r : Running}, Placed r.loop →
    StepsAll LoopOp.exec LoopOp.Ends r ops → StatesAll LoopOp.exec Exiting r ops →
      StepsAll LoopOp.exec LoopOp.Orderly r ops
  | [], _, _, _, _ => trivial
  | op :: ops, _, hp, hends, hstates =>
    ⟨orderly_of_exiting hp op hends.1 hstates.2.head,
      orderly_of_statesAll ops (step_placed op hp) hends.2 hstates.2⟩

/-- In every run whose steps are orderly the state stays `EXITING` once an exit was requested, and
no time handler is called any more; and a run whose calls of `sd_event_dispatch` come to their end
keeps to this only if its steps are orderly. -/
theorem eventRun_exiting (ops : List LoopOp) :
    (StepsAll LoopOp.exec LoopOp.Orderly {} ops → StatesAll LoopOp.exec Exiting {} ops) ∧
    (StepsAll LoopOp.exec LoopOp.Ends {} ops → StatesAll LoopOp.exec Exiting {} ops →
      StepsAll LoopOp.exec LoopOp.Orderly {} ops) := by
  refine ⟨fun h => ?_, orderly_of_statesAll ops placed_initial⟩
  refine StatesAll.imp (fun _ hr => hr.2) ops (StepsAll.statesAll (I := fun r =>
    Placed r.loop ∧ Exiting r) (fun r op hr hop => ?_) ops ⟨placed_initial, exiting_initial⟩ h)
  exact ⟨step_placed op hr.1, hr.2.step hr.1 op hop⟩

/-- The next iteration takes a loop that is exiting for an armed one. -/
theorem not_eventRun_exiting : ¬ ∀ ops : List LoopOp, StatesAll LoopOp.exec Exiting {} ops := by
  intro h
  have hstate := (h [.call (.exit 0), .prepare]).last.state (by decide)
  exact absurd hstate (by decide)

end Basu.Event
