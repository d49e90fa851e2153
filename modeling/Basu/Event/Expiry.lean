import Basu.Event.Dispatch

/-! One expiry of a timer, statement by statement. `timer_work_handler` takes no lock, so its
statements may come between any two of the loop thread's; a test for `ONESHOT` and the store of
`OFF` behind it are one step, since nothing else is stored to `enabled`. -/

namespace Basu.Event

inductive WorkerAt
  | check
  | pend
  | expire
  | disarm
  | write
  | done
  deriving DecidableEq, Repr

/-- Where the loop thread is with the source: in `process_timer_sources`, in the loop of
`sd_event_dispatch`, in `timer_notify_dispatch`, or elsewhere. -/
inductive LoopAt
  | idle
  | timerEnabled
  | timerExpired
  | timerPending
  | timerMark
  | timerDisarm
  | pipeRead
  | pipeMark
  | pipeDisarm
  | duePending
  | dueEnabled
  | unpend
  | call
  | disarm
  | files
  | drain
  | notePending
  | noteExpired
  deriving DecidableEq, Repr

/-- How far the first iteration is that began when `timer_work_handler` had returned. -/
inductive Round
  | waiting
  | prepared
  | dispatching
  | ended
  deriving DecidableEq, Repr

/-- A source, the two threads, and the calls of the handler since the expiry. -/
structure Timer where
  source : Source
  worker : WorkerAt := .check
  loop : LoopAt := .idle
  calls : Nat := 0
  round : Round := .waiting
  deriving Repr

def Timer.work (s : Timer) : Timer :=
  match s.worker with
  | .check =>
    { s with
      source := { s.source with work := none }
      worker := if s.source.enabled = .off then .done else .pend }
  | .pend => { s with source := { s.source with pending := true, owed := false }, worker := .expire }
  | .expire => { s with source := { s.source with expired := true }, worker := .disarm }
  | .disarm => { s with source := s.source.shot, worker := .write }
  | .write => { s with source := { s.source with pipe := s.source.pipe + 1 }, worker := .done }
  | .done => s

def Timer.dispatched (s : Timer) : Timer :=
  { s with loop := .idle, round := if s.round = .dispatching then .ended else s.round }

/-- A statement of the loop thread. Where it does something else first, `b` says what: whether it
begins to prepare or to dispatch, and whether the file of the source has events. -/
def Timer.iterate (b : Bool) (s : Timer) : Timer :=
  match s.loop with
  | .idle =>
    if b then
      { s with
        loop := .timerEnabled
        round := if s.worker = .done ∧ s.round = .waiting then .prepared else s.round }
    else
      { s with
        loop := .duePending
        round := if s.round = .prepared then .dispatching else s.round }
  | .timerEnabled => { s with loop := if s.source.enabled = .off then .idle else .timerExpired }
  | .timerExpired => { s with loop := if s.source.expired then .timerPending else .pipeRead }
  | .timerPending => { s with loop := if s.source.pending then .pipeRead else .timerMark }
  | .timerMark => { s with source := { s.source with pending := true }, loop := .timerDisarm }
  | .timerDisarm => { s with source := s.source.shot, loop := .pipeRead }
  | .pipeRead =>
    if 0 < s.source.pipe then
      { s with source := { s.source with pipe := s.source.pipe - 8 }, loop := .pipeMark }
    else { s with loop := .idle }
  | .pipeMark => { s with source := { s.source with pending := true }, loop := .pipeDisarm }
  | .pipeDisarm => { s with source := s.source.shot, loop := .idle }
  | .duePending => { s with loop := if s.source.pending then .dueEnabled else .files }
  | .dueEnabled => { s with loop := if s.source.enabled = .off then .files else .unpend }
  | .unpend => { s with source := s.source.unpend, loop := .call }
  | .call => { s with calls := s.calls + 1, loop := .disarm }
  | .disarm => { s with source := s.source.shot, loop := .files }
  | .files => if b then { s with loop := .drain } else s.dispatched
  | .drain =>
    if 0 < s.source.pipe then { s with source := { s.source with pipe := s.source.pipe - 8 } }
    else { s with loop := .notePending }
  | .notePending => { s with source := { s.source with pending := true }, loop := .noteExpired }
  | .noteExpired => { s with source := { s.source with expired := true } }.dispatched

inductive Move
  | work
  | iterate (b : Bool)
  deriving DecidableEq, Repr

def Timer.step (s : Timer) : Move → Timer
  | .work => s.work
  | .iterate b => s.iterate b

def Timer.run (s : Timer) (l : List Move) : Timer := l.foldl Timer.step s

/-! ## Undisturbed, the statements come to what the functions do -/

section undisturbed
variable {s : Timer}

def Timer.iterates (s : Timer) (n : Nat) : Timer := s.run (List.replicate n (.iterate false))

end undisturbed

/-- The loop looks at the source when it is pending and nothing has switched it `OFF` yet. -/
def Timer.Met (s : Timer) : List Move → Prop
  | [] => False
  | m :: l =>
    (m ≠ .work ∧ s.loop = .dueEnabled ∧ s.source.enabled ≠ .off) ∨ (s.step m).Met l

structure Timer.Expires (s : Timer) : Prop where
  worker : s.worker = .check
  calls : s.calls = 0
  round : s.round = .waiting

/-- The handler of a source that was `ONESHOT` is called exactly once and the source is `OFF` then;
that of a source that was `ON` is called. -/
def Timer.Delivers (s : Timer) (l : List Move) : Prop :=
  (s.source.enabled = .oneshot → (s.run l).calls = 1 ∧ (s.run l).source.enabled = .off) ∧
  (s.source.enabled = .on → 1 ≤ (s.run l).calls)

/-- `sd_event_dispatch` comes to a source that is `ONESHOT` before it is switched `OFF`, or was
about to call its handler anyway. -/
def Timer.InTime (s : Timer) (l : List Move) : Prop :=
  s.source.enabled = .oneshot → s.loop = .unpend ∨ s.loop = .call ∨ s.Met l

/-! ## What a statement can do -/

structure Timer.Passes (s s' : Timer) : Prop where
  calls : s'.calls = s.calls
  worker : s'.worker = s.worker
  before : s.loop ≠ .unpend ∧ s.loop ≠ .call
  after : s'.loop ≠ .unpend ∧ s'.loop ≠ .call
  enabled : s'.source.enabled = s.source.enabled ∨ s'.source.enabled = s.source.shot.enabled
  disarm : s.loop = .disarm → s'.source.enabled = s.source.shot.enabled
  pending : s.source.pending = true → s'.source.pending = true
  due : s.loop = .duePending → s.source.pending = true → s'.loop = .dueEnabled
  off : s.loop = .dueEnabled → s.source.enabled = .off
  round : s'.round = s.round ∨ (s.worker = .done ∧ s'.round = .prepared) ∨
    (s.round = .prepared ∧ s'.round = .dispatching ∧ s'.loop = .duePending) ∨
    (s.round = .dispatching ∧ s'.round = .ended ∧ s.loop ≠ .duePending ∧ s.loop ≠ .dueEnabled)

inductive Timer.Moves (s : Timer) : Timer → Prop
  | look : s.loop = .dueEnabled → s.source.enabled ≠ .off → s.Moves { s with loop := .unpend }
  | unpend : s.loop = .unpend → s.Moves { s with source := s.source.unpend, loop := .call }
  | call : s.loop = .call → s.Moves { s with calls := s.calls + 1, loop := .disarm }
  | pass {s' : Timer} : s.Passes s' → s.Moves s'

theorem iterate_moves (s : Timer) (b : Bool) : s.Moves (s.iterate b) := by
  obtain ⟨src, worker, loop, calls, round⟩ := s
  have hfiles : ∀ (src' : Source), loop = .files ∨ loop = .noteExpired →
      src'.enabled = src.enabled → src'.pending = src.pending →
      Timer.Moves ⟨src, worker, loop, calls, round⟩
        (Timer.dispatched ⟨src', worker, loop, calls, round⟩) := by
    intro src' hl he hp
    unfold Timer.dispatched
    refine .pass ⟨rfl, rfl, ?_, by simp, .inl he, ?_, fun h => hp ▸ h, ?_, ?_, ?_⟩
    · rcases hl with rfl | rfl <;> simp
    · rcases hl with rfl | rfl <;> simp
    · rcases hl with rfl | rfl <;> simp
    · rcases hl with rfl | rfl <;> simp
    · by_cases hr : round = .dispatching
      · refine .inr (.inr (.inr ⟨hr, if_pos hr, ?_⟩))
        rcases hl with rfl | rfl <;> simp
      · exact .inl (if_neg hr)
  cases loop with
  | idle =>
    cases b with
    | false =>
      refine .pass ⟨rfl, rfl, by simp, by simp [Timer.iterate], .inl rfl, by simp, id, by simp,
        by simp, ?_⟩
      by_cases hr : round = .prepared
      · exact .inr (.inr (.inl ⟨hr, if_pos hr, rfl⟩))
      · exact .inl (if_neg hr)
    | true =>
      refine .pass ⟨rfl, rfl, by simp, by simp [Timer.iterate], .inl rfl, by simp, id, by simp,
        by simp, ?_⟩
      by_cases hr : worker = .done ∧ round = .waiting
      · exact .inr (.inl ⟨hr.1, if_pos hr⟩)
      · exact .inl (if_neg hr)
  | unpend => exact .unpend rfl
  | call => exact .call rfl
  | dueEnabled =>
    unfold Timer.iterate
    dsimp only
    split
    · next hoff =>
      exact .pass ⟨rfl, rfl, by simp, by simp, .inl rfl, by simp, id, by simp, fun _ => hoff, .inl rfl⟩
    · next hoff => exact .look rfl hoff
  | files =>
    cases b with
    | false => exact hfiles src (.inl rfl) rfl rfl
    | true =>
      exact .pass ⟨rfl, rfl, by simp, by simp [Timer.iterate], .inl rfl, by simp, id, by simp,
        by simp, .inl rfl⟩
  | noteExpired => exact hfiles { src with expired := true } (.inr rfl) rfl rfl
  | timerEnabled | timerExpired | timerPending | pipeRead | duePending | drain =>
    unfold Timer.iterate
    dsimp only
    split <;> exact .pass ⟨rfl, rfl, by simp, by simp, .inl rfl, by simp, id, by simp_all, by simp,
      .inl rfl⟩
  | timerMark | pipeMark | notePending =>
    exact .pass ⟨rfl, rfl, by simp, by simp [Timer.iterate], .inl rfl, by simp, fun _ => rfl, by simp,
      by simp, .inl rfl⟩
  | timerDisarm | pipeDisarm | disarm =>
    exact .pass ⟨rfl, rfl, by simp, by simp [Timer.iterate], .inr rfl, fun _ => rfl, id, by simp,
      by simp, .inl rfl⟩

/-! ## A source that was `ONESHOT` -/

/-- What holds of the threads and of the source whatever has happened. -/
structure Timer.Shooting (s : Timer) : Prop where
  enabled : s.source.enabled ≠ .on
  disarmed : s.worker = .write ∨ s.worker = .done → s.source.enabled = .off
  round : s.round ≠ .waiting → s.worker = .done ∧ s.loop ≠ .unpend ∧ s.loop ≠ .call

theorem shot_enabled (s : Source) (h : s.enabled ≠ .on) : s.shot.enabled = .off := by
  unfold Source.shot
  cases hs : s.enabled
  · rfl
  · exact absurd hs h
  · rfl

theorem work_frame (s : Timer) : s.work.loop = s.loop ∧ s.work.calls = s.calls ∧
    s.work.round = s.round ∧ (s.source.pending = true → s.work.source.pending = true) ∧
    (s.worker = .done → s.work = s) ∧ (s.work.source.enabled = s.source.enabled ∨
      s.work.source.enabled = s.source.shot.enabled) := by
  obtain ⟨src, worker, loop, calls, round⟩ := s
  cases worker with
  | disarm => exact ⟨rfl, rfl, rfl, id, by simp, .inr rfl⟩
  | pend => exact ⟨rfl, rfl, rfl, fun _ => rfl, by simp, .inl rfl⟩
  | done => exact ⟨rfl, rfl, rfl, id, fun _ => rfl, .inl rfl⟩
  | check | expire | write => exact ⟨rfl, rfl, rfl, id, by simp, .inl rfl⟩

theorem Timer.Shooting.off_of_or {s s' : Timer} (h : s.Shooting) (he : s'.source.enabled =
    s.source.enabled ∨ s'.source.enabled = s.source.shot.enabled) : s'.source.enabled ≠ .on ∧
      (s.source.enabled = .off → s'.source.enabled = .off) := by
  have hshot := shot_enabled s.source h.enabled
  rcases he with he | he
  · rw [he]
    exact ⟨h.enabled, id⟩
  · rw [he, hshot]
    exact ⟨Enabled.noConfusion, fun _ => rfl⟩

theorem Timer.Shooting.work {s : Timer} (h : s.Shooting) : s.work.Shooting := by
  obtain ⟨-, -, hround, -, hdone, he⟩ := work_frame s
  obtain ⟨hon, hoff⟩ := h.off_of_or he
  refine ⟨hon, fun hw => ?_, fun hr => ?_⟩
  · unfold Timer.work at hw ⊢
    cases hworker : s.worker with
    | check =>
      rw [hworker] at hw
      by_cases hoff : s.source.enabled = .off
      · exact hoff
      · simp [hoff] at hw
    | disarm => exact shot_enabled s.source h.enabled
    | write => exact h.disarmed (.inl hworker)
    | done => exact h.disarmed (.inr hworker)
    | pend | expire => simp [hworker] at hw
  · rw [hround] at hr
    rw [hdone (h.round hr).1]
    exact h.round hr

theorem Timer.Passes.waiting {s s' : Timer} (h : s.Passes s') (hr : s'.round ≠ .waiting) :
    s.round ≠ .waiting ∨ s.worker = .done := by
  rcases h.round with heq | ⟨hdone, -⟩ | ⟨heq, -⟩ | ⟨heq, -⟩
  · exact .inl (heq ▸ hr)
  · exact .inr hdone
  · exact .inl (by rw [heq]; exact Round.noConfusion)
  · exact .inl (by rw [heq]; exact Round.noConfusion)

theorem Timer.Shooting.moves {s s' : Timer} (h : s.Shooting) (hm : s.Moves s') :
    s'.Shooting := by
  cases hm with
  | look hloop hoff =>
    refine ⟨h.enabled, h.disarmed, fun hr => ?_⟩
    exact absurd (h.disarmed (.inr (h.round hr).1)) hoff
  | unpend hloop => exact ⟨h.enabled, h.disarmed, fun hr => absurd hloop (h.round hr).2.1⟩
  | call hloop => exact ⟨h.enabled, h.disarmed, fun hr => absurd hloop (h.round hr).2.2⟩
  | pass hp =>
    obtain ⟨hon, hoff⟩ := h.off_of_or hp.enabled
    refine ⟨hon, fun hw => hoff (h.disarmed (hp.worker ▸ hw)), fun hr => ⟨?_, hp.after⟩⟩
    rw [hp.worker]
    rcases hp.waiting hr with hr | hdone
    · exact (h.round hr).1
    · exact hdone

theorem Timer.Shooting.step {s : Timer} (h : s.Shooting) (m : Move) : (s.step m).Shooting := by
  cases m with
  | work => exact h.work
  | iterate b => exact h.moves (iterate_moves s b)

theorem Timer.Shooting.run {s : Timer} (h : s.Shooting) : ∀ l : List Move, (s.run l).Shooting := by
  intro l
  induction l generalizing s with
  | nil => exact h
  | cons m l ih => exact ih (h.step m)

structure Timer.Fired (s : Timer) : Prop where
  about : s.loop = .unpend ∨ s.loop = .call → s.calls = 0
  done : s.loop ≠ .unpend → s.loop ≠ .call →
    s.calls = 1 ∧ (s.loop = .disarm ∨ s.source.enabled = .off)

theorem Timer.Fired.work {s : Timer} (hs : s.Shooting) (h : s.Fired) : s.work.Fired := by
  obtain ⟨hloop, hcalls, -, -, -, he⟩ := work_frame s
  refine ⟨fun hl => ?_, fun h₁ h₂ => ?_⟩
  · rw [hcalls]
    exact h.about (hloop ▸ hl)
  · obtain ⟨hone, hoff⟩ := h.done (hloop ▸ h₁) (hloop ▸ h₂)
    exact ⟨hcalls.trans hone, hoff.imp (fun hd => hloop.trans hd) (hs.off_of_or he).2⟩

theorem Timer.Fired.moves {s s' : Timer} (hs : s.Shooting) (h : s.Fired) (hm : s.Moves s') :
    s'.Fired := by
  cases hm with
  | look hloop hoff =>
    obtain ⟨-, hd⟩ := h.done (by rw [hloop]; exact LoopAt.noConfusion)
      (by rw [hloop]; exact LoopAt.noConfusion)
    rw [hloop] at hd
    exact absurd (hd.resolve_left LoopAt.noConfusion) hoff
  | unpend hloop => exact ⟨fun _ => h.about (.inl hloop), fun _ hne => absurd rfl hne⟩
  | call hloop =>
    refine ⟨fun hl => absurd hl (by simp), fun _ _ => ⟨?_, .inl rfl⟩⟩
    rw [h.about (.inr hloop)]
  | pass hp =>
    obtain ⟨hone, hoff⟩ := h.done hp.before.1 hp.before.2
    refine ⟨fun hl => ?_, fun _ _ => ⟨hp.calls.trans hone, .inr ?_⟩⟩
    · exact absurd hl (not_or.mpr hp.after)
    · rcases hoff with hd | hoff
      · exact (hp.disarm hd).trans (shot_enabled _ hs.enabled)
      · exact (hs.off_of_or hp.enabled).2 hoff

theorem Timer.Fired.step {s : Timer} (hs : s.Shooting) (h : s.Fired) (m : Move) :
    (s.step m).Fired := by
  cases m with
  | work => exact h.work hs
  | iterate b => exact h.moves hs (iterate_moves s b)

theorem Timer.Fired.run {s : Timer} (hs : s.Shooting) (h : s.Fired) (l : List Move)
    (hover : (s.run l).round = .ended) : (s.run l).calls = 1 := by
  induction l generalizing s with
  | nil =>
    have hover' : s.round = .ended := hover
    obtain ⟨-, hne⟩ := hs.round (by rw [hover']; exact Round.noConfusion)
    exact (h.done hne.1 hne.2).1
  | cons m l ih => exact ih (hs.step m) (h.step hs m) hover

theorem Timer.Shooting.calls_iff {s : Timer} (hs : s.Shooting) (hcalls : s.calls = 0)
    (hloop : s.loop ≠ .unpend ∧ s.loop ≠ .call) (l : List Move)
    (hover : (s.run l).round = .ended) : (s.run l).calls = 1 ↔ s.Met l := by
  induction l generalizing s with
  | nil =>
    refine iff_of_false (fun hone => ?_) id
    exact absurd (hcalls.symm.trans hone) (by decide)
  | cons m l ih =>
    cases m with
    | work =>
      obtain ⟨hl, hc, -⟩ := work_frame s
      refine Iff.trans ?_ (or_iff_right fun hno => hno.1 rfl).symm
      exact ih hs.work (hc.trans hcalls) ⟨hl ▸ hloop.1, hl ▸ hloop.2⟩ hover
    | iterate b =>
      have hover' : ((s.iterate b).run l).round = .ended := hover
      show ((s.iterate b).run l).calls = 1 ↔
        (Move.iterate b ≠ .work ∧ s.loop = .dueEnabled ∧ s.source.enabled ≠ .off) ∨
          (s.iterate b).Met l
      have hm := iterate_moves s b
      generalize s.iterate b = s' at hm hover'
      have hs' := hs.moves hm
      cases hm with
      | look hdue hoff =>
        refine iff_of_true (Timer.Fired.run hs' ⟨fun _ => hcalls, fun hne => absurd rfl hne⟩ l hover')
          (.inl ⟨Move.noConfusion, hdue, hoff⟩)
      | unpend h => exact absurd h hloop.1
      | call h => exact absurd h hloop.2
      | pass hp =>
        refine (ih hs' (hp.calls.trans hcalls) hp.after hover').trans (or_iff_right ?_).symm
        exact fun hno => hno.2.2 (hp.off hno.2.1)

/-! ## A source that was `ON` -/

structure Timer.Ringing (s : Timer) : Prop where
  enabled : s.source.enabled = .on
  pending : s.worker ≠ .check → s.worker ≠ .pend →
    s.source.pending = true ∨ s.loop = .call ∨ 1 ≤ s.calls
  round : s.round ≠ .waiting → s.worker = .done
  dispatching : s.round = .dispatching → s.loop = .duePending ∨ s.loop = .dueEnabled ∨
    s.loop = .unpend ∨ s.loop = .call ∨ 1 ≤ s.calls
  ended : s.round = .ended → 1 ≤ s.calls

theorem on_of_or {s s' : Timer} (h : s.source.enabled = .on) (he : s'.source.enabled =
    s.source.enabled ∨ s'.source.enabled = s.source.shot.enabled) : s'.source.enabled = .on := by
  rcases he with he | he
  · exact he.trans h
  · refine he.trans ?_
    unfold Source.shot
    rw [h]
    rfl

theorem Timer.Ringing.work {s : Timer} (h : s.Ringing) : s.work.Ringing := by
  obtain ⟨hloop, hcalls, hround, hpend, hdone, he⟩ := work_frame s
  refine ⟨on_of_or h.enabled he, fun h₁ h₂ => ?_, fun hr => ?_, fun hr => ?_, fun hr => ?_⟩
  · rw [hloop, hcalls]
    by_cases hcheck : s.worker = .check
    · refine absurd ?_ h₂
      unfold Timer.work
      rw [hcheck]
      exact if_neg (by rw [h.enabled]; exact Enabled.noConfusion)
    · by_cases hpend' : s.worker = .pend
      · refine .inl ?_
        unfold Timer.work
        rw [hpend']
      · exact (h.pending hcheck hpend').imp_left hpend
  · rw [hround] at hr
    rw [hdone (h.round hr)]
    exact h.round hr
  · rw [hloop, hcalls]
    exact h.dispatching (hround ▸ hr)
  · rw [hcalls]
    exact h.ended (hround ▸ hr)

theorem Timer.Ringing.moves {s s' : Timer} (h : s.Ringing) (hm : s.Moves s') : s'.Ringing := by
  cases hm with
  | look hloop hoff =>
    refine ⟨h.enabled, fun h₁ h₂ => ?_, h.round, fun _ => .inr (.inr (.inl rfl)), h.ended⟩
    refine (h.pending h₁ h₂).imp_right fun hor => .inr (hor.resolve_left ?_)
    rw [hloop]
    exact LoopAt.noConfusion
  | unpend hloop =>
    exact ⟨h.enabled, fun _ _ => .inr (.inl rfl), h.round,
      fun _ => .inr (.inr (.inr (.inl rfl))), h.ended⟩
  | call hloop =>
    have hone : 1 ≤ s.calls + 1 := Nat.le_add_left _ _
    exact ⟨h.enabled, fun _ _ => .inr (.inr hone), h.round,
      fun _ => .inr (.inr (.inr (.inr hone))), fun _ => hone⟩
  | pass hp =>
    have hround : s'.round ≠ .waiting → s'.worker = .done := by
      intro hr
      rw [hp.worker]
      rcases hp.waiting hr with hr | hdone
      · exact h.round hr
      · exact hdone
    -- past the test nothing is lost
    have hpending : s.worker ≠ .check → s.worker ≠ .pend → s.source.pending = true ∨ 1 ≤ s.calls :=
      fun h₁ h₂ => (h.pending h₁ h₂).imp_right fun hor => hor.resolve_left hp.before.2
    have hdispatching : s.round = .dispatching →
        s.loop = .duePending ∨ s.loop = .dueEnabled ∨ 1 ≤ s.calls := fun hr =>
      (h.dispatching hr).imp_right fun hor => hor.imp_right fun hor =>
        (hor.resolve_left hp.before.1).resolve_left hp.before.2
    refine ⟨on_of_or h.enabled hp.enabled, fun h₁ h₂ => ?_, hround, fun hr => ?_, fun hr => ?_⟩
    · rw [hp.worker] at h₁ h₂
      rw [hp.calls]
      exact (hpending h₁ h₂).imp hp.pending .inr
    · rw [hp.calls]
      rcases hp.round with heq | ⟨-, heq⟩ | ⟨-, -, hdue⟩ | ⟨-, heq, -⟩
      · rw [heq] at hr
        have hdone := h.round (by rw [hr]; exact Round.noConfusion)
        rcases hdispatching hr with hdue | hdue | hone
        · rcases hpending (by rw [hdone]; exact WorkerAt.noConfusion)
            (by rw [hdone]; exact WorkerAt.noConfusion) with hpend | hone
          · exact .inr (.inl (hp.due hdue hpend))
          · exact .inr (.inr (.inr (.inr hone)))
        · exact absurd ((h.enabled).symm.trans (hp.off hdue)) Enabled.noConfusion
        · exact .inr (.inr (.inr (.inr hone)))
      · exact absurd (heq.symm.trans hr) Round.noConfusion
      · exact .inl hdue
      · exact absurd (heq.symm.trans hr) Round.noConfusion
    · rw [hp.calls]
      rcases hp.round with heq | ⟨-, heq⟩ | ⟨-, heq, -⟩ | ⟨hd, -, h₁, h₂⟩
      · exact h.ended (heq ▸ hr)
      · exact absurd (heq.symm.trans hr) Round.noConfusion
      · exact absurd (heq.symm.trans hr) Round.noConfusion
      · exact ((hdispatching hd).resolve_left h₁).resolve_left h₂

theorem Timer.Ringing.run {s : Timer} (h : s.Ringing) (l : List Move) : (s.run l).Ringing := by
  induction l generalizing s with
  | nil => exact h
  | cons m l ih =>
    refine ih ?_
    cases m with
    | work => exact h.work
    | iterate b => exact h.moves (iterate_moves s b)

/-- For every interleaving of an expiry with the loop thread, up to the end of the next iteration:
the handler of a source that was `ON` is called; that of a source that was `ONESHOT` is called once
exactly if `sd_event_dispatch` comes to the source before it is switched `OFF`. -/
theorem expiry_delivers (s : Timer) (hs : s.Expires) (l : List Move)
    (hover : (s.run l).round = .ended) : s.Delivers l ↔ s.InTime l := by
  have hon : s.source.enabled = .on → 1 ≤ (s.run l).calls := by
    intro hon
    refine (Timer.Ringing.run ⟨hon, fun hne => absurd hs.worker hne, fun hr => absurd hs.round hr,
      fun hr => ?_, fun hr => ?_⟩ l).ended hover
    · exact absurd (hs.round.symm.trans hr) Round.noConfusion
    · exact absurd (hs.round.symm.trans hr) Round.noConfusion
  refine (and_iff_left hon).trans (forall_congr' fun hone => ?_)
  have hshoot : s.Shooting := by
    refine ⟨by rw [hone]; exact Enabled.noConfusion, fun hw => ?_, fun hr => absurd hs.round hr⟩
    rw [hs.worker] at hw
    exact absurd hw (by simp)
  have hoff : (s.run l).source.enabled = .off := by
    have h := hshoot.run l
    refine h.disarmed (.inr (h.round ?_).1)
    rw [hover]
    exact Round.noConfusion
  refine (and_iff_left hoff).trans ?_
  by_cases hloop : s.loop = .unpend ∨ s.loop = .call
  · refine iff_of_true (Timer.Fired.run hshoot ⟨fun _ => hs.calls, fun h₁ h₂ => ?_⟩ l hover) ?_
    · exact absurd hloop (not_or.mpr ⟨h₁, h₂⟩)
    · exact hloop.elim .inl fun h => .inr (.inl h)
  · refine (hshoot.calls_iff hs.calls (not_or.mp hloop) l hover).trans ?_
    exact ⟨fun h => .inr (.inr h), fun h =>
      (h.resolve_left fun h => hloop (.inl h)).resolve_left fun h => hloop (.inr h)⟩

/-- A one-shot timer, and a schedule: `n` statements of `timer_work_handler`, `sd_event_dispatch`,
the rest of `timer_work_handler`, and a whole iteration. -/
def oneshotTimer : Timer := { source := { type := .time, enabled := .oneshot } }

def expirySchedule (n : Nat) : List Move :=
  List.replicate n .work ++ List.replicate 7 (.iterate false) ++ List.replicate (5 - n) .work ++
    [.iterate true, .iterate false] ++ List.replicate 7 (.iterate false)

theorem expiry_delivers_oneshot :
    oneshotTimer.Delivers (expirySchedule 2) ↔ oneshotTimer.InTime (expirySchedule 2) :=
  expiry_delivers oneshotTimer ⟨rfl, rfl, rfl⟩ (expirySchedule 2) (by decide)

/-- A one-shot timer that expires between two iterations is off before its handler is called. -/
theorem not_expiry_delivers : ¬ ∀ s : Timer, s.Expires → ∀ l : List Move,
    (s.run l).round = .ended → s.Delivers l := by
  intro h
  have hcalls := ((h oneshotTimer ⟨rfl, rfl, rfl⟩
    (List.replicate 5 .work ++ [.iterate true, .iterate false] ++ List.replicate 4 (.iterate false))
    (by decide)).1 rfl).1
  exact absurd hcalls (by decide)

end Basu.Event
