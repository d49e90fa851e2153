import Basu.Event.Placed

/-! Whether sources that are enabled are armed, along every run of an event loop. -/

namespace Basu.Event
open Function

def Source.OnTime (s : Source) (now : UInt64) : Prop :=
  ∃ due, s.work = some due ∧ (due = s.usec.toNat ∨ s.usec.toNat ≤ due ∧ due ≤ now.toNat)

/-- An IO source has its events selected exactly if it is not `OFF`; a time source that is enabled
and whose expiry is still owed has its work item scheduled. -/
structure Source.Armed (s : Source) (now : UInt64) : Prop where
  io : s.live = true → s.type = .io →
    s.userMask &&& s.events = if s.enabled = .off then 0 else s.events
  time : s.live = true → s.type = .time → s.enabled ≠ .off → s.owed = true → s.OnTime now

def Loop.Armed (e : Loop) : Prop := ∀ i, (e.source i).Armed e.now

/-- What a call must not do: add an IO source whose file does not start with the events selected,
add a timer past the end of time, switch a source on that `OFF` has left without its events or its
work item, or set another time for a one-shot timer. -/
def EventOp.Arms (e : Loop) (op : EventOp) : Prop := op.allowed e = true → match op with
  | .addIo events r => r.fileOk = true → r.initialMask &&& events = events
  | .addTime usec r => r.pipeOk = true → r.fileOk = true → e.now.toNat + usec.toNat < 2 ^ 64
  | .setEnabled i enabled => (e.source i).enabled = .off → enabled ≠ .off →
    ((e.source i).type = .io → enabled = .oneshot → (e.source i).events = 0) ∧
    ((e.source i).type = .time → (e.source i).owed = true → (e.source i).OnTime e.now)
  | .setTime i usec => (e.source i).type = .time → (e.source i).enabled = .oneshot →
    Source.OnTime { e.source i with usec := usec } e.now
  | _ => True

section
variable {e e' : Loop} {s : Source} {now : UInt64}

theorem Source.armed_of_type (hio : s.type ≠ .io) (htime : s.type ≠ .time) : s.Armed now :=
  ⟨fun _ h => absurd h hio, fun _ h => absurd h htime⟩

theorem Source.armed_of_dead (h : s.live = false) : s.Armed now :=
  ⟨fun hl => absurd (h.symm.trans hl) Bool.false_ne_true,
    fun hl => absurd (h.symm.trans hl) Bool.false_ne_true⟩

theorem newIo_armed_iff (events : UInt32) (r : AddResult) :
    (newIo events r).Armed now ↔ (r.fileOk = true → r.initialMask &&& events = events) := by
  constructor
  · intro h hr
    have hio := h.io hr rfl
    unfold newIo at hio
    rwa [hr] at hio
  · intro h
    refine ⟨fun hl _ => ?_, fun _ ht => SourceType.noConfusion ht⟩
    have hr : r.fileOk = true := hl
    unfold newIo
    rw [hr]
    exact h hr

theorem newTime_armed_iff (usec : UInt64) (r : AddResult) : (newTime now usec r).Armed now ↔
    (r.pipeOk = true → r.fileOk = true → now.toNat + usec.toNat < 2 ^ 64) := by
  unfold newTime
  cases r.pipeOk with
  | false => exact iff_of_true (Source.armed_of_dead rfl) fun h => absurd h Bool.false_ne_true
  | true =>
    cases r.fileOk with
    | false => exact iff_of_true (Source.armed_of_dead rfl) fun _ h => absurd h Bool.false_ne_true
    | true =>
      have hsum : (now + usec).toNat = (now.toNat + usec.toNat) % 2 ^ 64 := UInt64.toNat_add _ _
      have hnow := now.toNat_lt
      constructor
      · intro h _ _
        obtain ⟨due, hwork, hdue⟩ := h.time rfl rfl Enabled.noConfusion rfl
        obtain rfl : now.toNat + usec.toNat = due := Option.some.inj hwork
        have husec := usec.toNat_lt
        rcases hdue with hdue | ⟨-, hdue⟩
        · have hsum' : now.toNat + usec.toNat = (now.toNat + usec.toNat) % 2 ^ 64 := hdue.trans hsum
          exact hsum' ▸ Nat.mod_lt _ (by decide)
        · exact hdue.trans_lt hnow
      · intro h
        refine ⟨fun _ ht => SourceType.noConfusion ht, fun _ _ _ _ => ⟨_, rfl, .inl ?_⟩⟩
        exact (hsum.trans (Nat.mod_eq_of_lt (h rfl rfl))).symm

theorem or_and_self_mask (a b : UInt32) : (a ||| b) &&& b = b := by
  refine UInt32.toBitVec_inj.mp (BitVec.eq_of_getLsbD_eq fun i _ => ?_)
  rw [UInt32.toBitVec_and, UInt32.toBitVec_or, BitVec.getLsbD_and, BitVec.getLsbD_or]
  cases b.toBitVec.getLsbD i <;> simp

theorem and_not_and_self_mask (a b : UInt32) : (a &&& ~~~b) &&& b = 0 := by
  rw [UInt32.and_assoc, UInt32.not_and_self, UInt32.and_zero]

theorem Source.Armed.setEnabled_iff (h : s.Armed now) (hl : s.live = true) (enabled : Enabled) :
    (s.setEnabled enabled).Armed now ↔ (s.enabled = .off → enabled ≠ .off →
      (s.type = .io → enabled = .oneshot → s.events = 0) ∧
      (s.type = .time → s.owed = true → s.OnTime now)) := by
  unfold Source.setEnabled
  dsimp only
  split
  · next hio =>
    have hmask := h.io hl hio
    have htime : ∀ {p : Prop}, s.type = .time → p := fun ht => absurd (hio.symm.trans ht) (by decide)
    split
    · next hon =>
      refine iff_of_true ⟨fun _ _ => ?_, fun _ ht => htime ht⟩ fun _ _ => ⟨fun _ hone => ?_, htime⟩
      · rw [hon]
        exact or_and_self_mask _ _
      · exact absurd (hon.symm.trans hone) (by decide)
    · split
      · next hoff =>
        refine iff_of_true ⟨fun _ _ => ?_, fun _ ht => htime ht⟩ fun _ hne => absurd hoff hne
        rw [hoff]
        exact and_not_and_self_mask _ _
      · next hon hoff =>
        -- the mask stays what it was
        have hone : enabled = .oneshot := by cases enabled <;> trivial
        constructor
        · intro h' hs _
          refine ⟨fun _ _ => ?_, htime⟩
          have hmask' := h'.io hl hio
          rw [if_neg (by exact hoff)] at hmask'
          rw [hs, if_pos rfl] at hmask
          exact hmask'.symm.trans hmask
        · intro hs
          refine ⟨fun _ _ => ?_, fun _ ht => htime ht⟩
          show s.userMask &&& s.events = if enabled = .off then 0 else s.events
          rw [if_neg hoff, hmask]
          split
          · next hsoff => exact ((hs hsoff hoff).1 hio hone).symm
          · rfl
  · next hio =>
    constructor
    · exact fun h' hs hne => ⟨fun ht => absurd ht hio, fun ht howed => h'.time hl ht hne howed⟩
    · intro hs
      refine ⟨fun _ ht => absurd ht hio, fun _ ht hne howed => ?_⟩
      by_cases hsoff : s.enabled = .off
      · exact (hs hsoff hne).2 ht howed
      · exact h.time hl ht hsoff howed

theorem Source.setTime_armed_iff (hl : s.live = true) (ht : s.type = .time) (usec : UInt64) :
    (s.setTime now usec).Armed now ↔
      (s.enabled = .oneshot → Source.OnTime { s with usec := usec } now) := by
  have hio : ∀ {p : Prop}, s.type = .io → p := fun hio => absurd (hio.symm.trans ht) (by decide)
  unfold Source.setTime
  dsimp only
  split
  · next hon =>
    refine iff_of_true ⟨fun _ h => hio h, fun _ _ _ _ => ⟨_, rfl, ?_⟩⟩ fun hone => ?_
    · show now.toNat + (if now < usec then usec - now else 0).toNat = usec.toNat ∨
        usec.toNat ≤ now.toNat + (if now < usec then usec - now else 0).toNat ∧
          now.toNat + (if now < usec then usec - now else 0).toNat ≤ now.toNat
      split
      · next hlt =>
        refine .inl ?_
        rw [UInt64.toNat_sub_of_le _ _ (UInt64.le_of_lt hlt)]
        exact Nat.add_sub_cancel' (UInt64.le_iff_toNat_le.mp (UInt64.le_of_lt hlt))
      · next hlt =>
        have hle := UInt64.le_iff_toNat_le.mp (UInt64.not_lt.mp hlt)
        exact .inr ⟨hle.trans (Nat.le_add_right _ _), le_rfl⟩
    · exact absurd (hon.symm.trans hone) (by decide)
  · next hon =>
    constructor
    · intro h' hone
      refine h'.time hl ht ?_ rfl
      show s.enabled ≠ .off
      rw [hone]
      decide
    · intro hs
      refine ⟨fun _ h => hio h, fun _ _ hne _ => hs ?_⟩
      have hne' : s.enabled ≠ .off := hne
      cases hen : s.enabled <;> first | exact absurd hen hne' | exact absurd hen hon | rfl

theorem armed_iff_of_source {i : Nat} (h : e.Armed)
    (hs : ∀ j, e'.source j = if j = i then s else e.source j) (hnow : e'.now = e.now) :
    s.Armed e.now ↔ e'.Armed := by
  constructor
  · intro hsi j
    rw [hs, hnow]
    split
    · exact hsi
    · exact h j
  · intro h'
    have hi := h' i
    rwa [hs, if_pos rfl, hnow] at hi

theorem Added.armed_iff {K : Option SourceList} (ha : Added e e' s K) (h : e.Armed) :
    s.Armed e.now ↔ e'.Armed := armed_iff_of_source h ha.source ha.rest.1

theorem modify_armed_iff {i : Nat} {f : Source → Source} (h : e.Armed) :
    (f (e.source i)).Armed e.now ↔ (e.modify i f).Armed :=
  armed_iff_of_source h (modify_source f) rfl

theorem Loop.Armed.exec_iff (h : e.Armed) (op : EventOp) : op.Arms e ↔ (op.exec e).Armed := by
  unfold EventOp.Arms EventOp.exec
  by_cases hallowed : op.allowed e = true
  swap
  · rw [if_neg hallowed]
    exact ⟨fun _ => h, fun _ hno => absurd hno hallowed⟩
  rw [if_pos hallowed]
  refine (forall_prop_of_true hallowed).trans ?_
  cases op with
  | addIo events r => exact (newIo_armed_iff events r).symm.trans ((addIo_added events r).armed_iff h)
  | addTime usec r =>
    exact (newTime_armed_iff usec r).symm.trans ((addTime_added usec r).armed_iff h)
  | addDefer =>
    exact iff_of_true trivial ((addDefer_added.armed_iff h).mp
      (Source.armed_of_type (by decide) (by decide)))
  | addPost =>
    exact iff_of_true trivial ((addPost_added.armed_iff h).mp
      (Source.armed_of_type (by decide) (by decide)))
  | addExit =>
    exact iff_of_true trivial ((addExit_added.armed_iff h).mp
      (Source.armed_of_type (by decide) (by decide)))
  | setPriority i priority =>
    refine iff_of_true trivial ?_
    have hnow : (sdEventSourceSetPriority e i priority).now = e.now := by
      unfold sdEventSourceSetPriority
      dsimp only
      split_ifs <;> rfl
    exact (armed_iff_of_source h (setPriority_source priority) hnow).mp ⟨(h i).io, (h i).time⟩
  | setEnabled i enabled =>
    exact ((h i).setEnabled_iff hallowed enabled).symm.trans
      (modify_armed_iff (f := fun s => s.setEnabled enabled) h)
  | setTime i usec =>
    by_cases ht : (e.source i).type = .time
    · have hset : sdEventSourceSetTime e i usec = e.modify i fun s => s.setTime e.now usec :=
        if_neg (not_not_intro ht)
      refine (forall_prop_of_true ht).trans ?_
      rw [EventOp.run, hset]
      exact (Source.setTime_armed_iff hallowed ht usec).symm.trans
        (modify_armed_iff (f := fun s => s.setTime e.now usec) h)
    · have hset : sdEventSourceSetTime e i usec = e := if_pos ht
      rw [EventOp.run, hset]
      exact iff_of_true (fun hno => absurd hno ht) h
  | ref i =>
    exact iff_of_true trivial ((modify_armed_iff (f := fun s => { s with refCount := s.refCount + 1 })
      h).mp ⟨(h i).io, (h i).time⟩)
  | unref i =>
    refine iff_of_true trivial ?_
    show (sdEventSourceUnref e i).Armed
    unfold sdEventSourceUnref
    split
    · exact (modify_armed_iff (e := e.unlink i) h).mp (Source.armed_of_dead rfl)
    · exact (modify_armed_iff (f := fun s => { s with refCount := s.refCount - 1 })
        h).mp ⟨(h i).io, (h i).time⟩
  | exit code => exact iff_of_true trivial h

theorem Source.OnTime.mono {t : UInt64} (h : s.OnTime now) (ht : now ≤ t) : s.OnTime t := by
  obtain ⟨due, hwork, hdue⟩ := h
  refine ⟨due, hwork, hdue.imp_right fun h => ⟨h.1, h.2.trans ?_⟩⟩
  exact UInt64.le_iff_toNat_le.mp ht

theorem Source.Armed.of_time {s' : Source} (h : s.Armed now) (ht : s'.type = .time)
    (hlive : s'.live = s.live) (htype : s'.type = s.type) (husec : s'.usec = s.usec)
    (hwork : s'.work = s.work) (howed : s'.owed = s.owed) (hoff : s.enabled = .off → s'.enabled = .off) :
    s'.Armed now := by
  refine ⟨fun _ hio => absurd (hio.symm.trans ht) (by decide), fun hl _ hne ho => ?_⟩
  rw [hlive] at hl
  rw [howed] at ho
  obtain ⟨due, hw, hdue⟩ := h.time hl (htype ▸ ht) (fun h => hne (hoff h)) ho
  exact ⟨due, hwork.trans hw, husec ▸ hdue⟩

theorem Inner.armed {t : SourceType} {f : Source → Source} (hf : Inner t f) (ht : s.type = t)
    (h : s.Armed now) : (f s).Armed now := by
  cases hf with
  | unpend => exact ⟨h.io, h.time⟩
  | shot hne =>
    by_cases htime : s.type = .time
    · refine h.of_time htime rfl rfl rfl rfl rfl fun hoff => ?_
      unfold Source.shot
      rw [hoff]
      rfl
    · exact Source.armed_of_type (fun hio => hne (ht.symm.trans hio)) htime
  | notify => exact ⟨h.io, h.time⟩
  | processTimer =>
    unfold Source.processTimer
    dsimp only
    split_ifs <;> first
      | exact h
      | exact h.of_time ht rfl rfl rfl rfl rfl fun hoff => absurd hoff ‹_›
  | processDeferred =>
    have htype : s.processDeferred.type = .defer := (Inner.processDeferred.keeps s).2.1.trans ht
    exact Source.armed_of_type (by rw [htype]; decide) (by rw [htype]; decide)

theorem Source.timerWork_armed (ht : s.type = .time) : s.timerWork.Armed now := by
  have htype : s.timerWork.type = .time := s.timerWork_kept.2.1.trans ht
  refine ⟨fun _ hio => absurd (htype.symm.trans hio) (by decide), fun _ _ hne howed => ?_⟩
  unfold Source.timerWork at hne howed
  dsimp only at hne howed
  split at howed
  · next hoff =>
    rw [if_pos hoff] at hne
    exact absurd hoff hne
  · exact absurd howed Bool.false_ne_true

theorem lawful_armed : Lawful Loop.Armed fun e op => op.Arms e where
  exec e op h := h.exec_iff op
  inner e i f hf h := (modify_armed_iff h).mp (hf.armed rfl (h i))
  state _ _ _ h := h
  tick e t h := by
    unfold Loop.tick
    split
    · next ht =>
      exact fun i => ⟨(h i).io, fun hl htype hne howed => ((h i).time hl htype hne howed).mono ht⟩
    · exact h
  expire e i h := by
    unfold Loop.expire
    split
    · next hexpires =>
      have ht : (e.source i).type = .time := by
        have h' := (Bool.and_eq_true_iff.mp (Bool.and_eq_true_iff.mp hexpires).1).2
        exact of_decide_eq_true h'
      exact (modify_armed_iff h).mp (Source.timerWork_armed ht)
    · exact h

theorem armed_initial : Loop.Armed {} := fun _ => Source.armed_of_dead rfl

/-- Along every run IO sources have their events selected exactly if they are not `OFF`, and time
sources that are enabled and owe an expiry have their work item scheduled, exactly if every call
meets the condition. -/
theorem eventRun_armed (ops : List LoopOp) :
    ((eventRun ops).Calls fun e op => op.Arms e) ↔ (eventRun ops).Always Loop.Armed :=
  lawful_armed.run armed_initial ops

/-- An IO source that is switched off and on again for one event waits for none. -/
theorem not_eventRun_armed : ¬ ∀ ops : List LoopOp, (eventRun ops).Always Loop.Armed := by
  intro h
  have hio := ((h [.call (.addIo 1 { initialMask := 1 }), .call (.setEnabled 0 .off),
    .call (.setEnabled 0 .oneshot)]).1 0).io (by decide) (by decide)
  exact absurd hio (by decide)

end

end Basu.Event
