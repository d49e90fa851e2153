import Basu.Event.Placed

/-! What `sd_event_add_io` and `sd_event_add_time` leave behind when they fail. -/

namespace Basu.Event
open Function

inductive AddCall
  | io (events : UInt32) (r : AddResult)
  | time (usec : UInt64) (r : AddResult)

def AddCall.fails : AddCall → Bool
  | .io _ r => !r.fileOk
  | .time _ r => !r.pipeOk || !r.fileOk

def AddCall.failsEarly : AddCall → Bool
  | .io _ _ => false
  | .time _ r => !r.pipeOk

def AddCall.exec (call : AddCall) (e : Loop) (source : Option Nat) : Loop × Option Nat :=
  let e' := match call with
    | .io events r => sdEventAddIo e events r
    | .time usec r => sdEventAddTime e usec r
  (e', if call.fails then source else some e.nSources)

def Loop.scheduled (e : Loop) : Set (Nat × Nat) :=
  {x | x.1 < e.nSources ∧ (e.source x.1).work = some x.2}

def Loop.Untouched (e : Loop) (i : Nat) : Prop :=
  (∀ k, i ∉ e.list k) ∧ (e.source i).work = none

/-- Lists, work items and the caller's pointer are as before, and whatever happens later does not
come to the source that was not added. -/
structure ChangesNothing (e : Loop) (source : Option Nat) (e' : Loop) (source' : Option Nat) :
    Prop where
  lists : e'.list = e.list
  works : e'.scheduled = e.scheduled
  pointer : source' = source
  later : ∀ ops : List LoopOp, (ops.foldl LoopOp.exec { loop := e' }).loop.Untouched e.nSources

structure Gone (i : Nat) (e : Loop) : Prop where
  bound : i < e.nSources
  dead : (e.source i).live = false
  untouched : e.Untouched i

section
variable {e e' : Loop} {i : Nat}

theorem not_mem_of_added {s : Source} {K : Option SourceList} (ha : Added e e' s K)
    (hi : i < e.nSources) (hn : ∀ k, i ∉ e.list k) (k : SourceList) : i ∉ e'.list k := by
  by_cases hk : K = some k
  · rw [(ha.perm k hk).mem_iff, List.mem_cons, not_or]
    exact ⟨hi.ne, hn k⟩
  · rw [ha.other k hk]
    exact hn k

theorem not_mem_setPriority {j : Nat} (hji : j ≠ i) (priority : Int) (hn : ∀ k, i ∉ e.list k)
    (k : SourceList) : i ∉ (sdEventSourceSetPriority e j priority).list k := by
  by_cases hlinked : e.isLinked j = true
  · have herase : i ∉ (e.list k).erase j := fun hi => hn k (List.mem_of_mem_erase hi)
    by_cases hk : k = (e.source j).type.target
    · rw [hk, (perm_setPriority_list hlinked priority).mem_iff, List.mem_cons, not_or, ← hk]
      exact ⟨hji.symm, herase⟩
    · rw [setPriority_list hlinked, if_neg hk]
      exact herase
  · rw [setPriority_list_of_not hlinked]
    exact hn k

theorem Gone.added (h : Gone i e) {s : Source} {K : Option SourceList} (ha : Added e e' s K) :
    Gone i e' := by
  have hsource : e'.source i = e.source i := by rw [ha.source, if_neg h.bound.ne]
  refine ⟨?_, ?_, not_mem_of_added ha h.bound h.untouched.1, ?_⟩
  · rw [ha.nSources]
    exact h.bound.trans (Nat.lt_succ_self _)
  · rw [hsource]
    exact h.dead
  · rw [hsource]
    exact h.untouched.2

theorem Gone.modify (h : Gone i e) {f : Source → Source} {j : Nat}
    (hf : j = i → (f (e.source j)).live = (e.source j).live ∧
      (f (e.source j)).work = (e.source j).work) : Gone i (e.modify j f) := by
  have hsame : ((e.modify j f).source i).live = (e.source i).live ∧
      ((e.modify j f).source i).work = (e.source i).work := by
    rw [modify_source]
    split
    · next hij =>
      obtain ⟨hlive, hwork⟩ := hf hij.symm
      rw [hij]
      exact ⟨hlive, hwork⟩
    · exact ⟨rfl, rfl⟩
  exact ⟨h.bound, hsame.1.trans h.dead, h.untouched.1, hsame.2.trans h.untouched.2⟩

theorem Gone.exec (h : Gone i e) (op : EventOp) : Gone i (op.exec e) := by
  unfold EventOp.exec
  split
  swap
  · exact h
  next hallowed =>
  -- The call is on a source that is there.
  have hne : ∀ j, op.source? = some j → j ≠ i := by
    rintro j hj rfl
    unfold EventOp.allowed at hallowed
    rw [hj] at hallowed
    exact absurd (h.dead.symm.trans hallowed) nofun
  cases op with
  | addIo events r => exact h.added (addIo_added events r)
  | addTime usec r => exact h.added (addTime_added usec r)
  | addDefer => exact h.added addDefer_added
  | addPost => exact h.added addPost_added
  | addExit => exact h.added addExit_added
  | setPriority j priority =>
    have hji := hne j rfl
    have hsource : (sdEventSourceSetPriority e j priority).source i = e.source i := by
      rw [setPriority_source, if_neg hji.symm]
    refine ⟨?_, (congrArg Source.live hsource).trans h.dead,
      not_mem_setPriority hji priority h.untouched.1,
      (congrArg Source.work hsource).trans h.untouched.2⟩
    exact h.bound.trans_eq (setPriority_nSources priority).symm
  | setEnabled j enabled =>
    exact h.modify (f := fun s => s.setEnabled enabled) fun hji => absurd hji (hne j rfl)
  | setTime j usec =>
    show Gone i (sdEventSourceSetTime e j usec)
    unfold sdEventSourceSetTime
    split
    · exact h
    · exact h.modify fun hji => absurd hji (hne j rfl)
  | ref j =>
    exact h.modify (f := fun s => { s with refCount := s.refCount + 1 })
      fun hji => absurd hji (hne j rfl)
  | unref j =>
    have hji := hne j rfl
    show Gone i (sdEventSourceUnref e j)
    unfold sdEventSourceUnref
    split
    · have hunlink : Gone i (e.unlink j) :=
        ⟨h.bound, h.dead, fun k hk => h.untouched.1 k (List.mem_of_mem_erase hk), h.untouched.2⟩
      exact hunlink.modify fun heq => absurd heq hji
    · exact h.modify fun heq => absurd heq hji
  | exit code => exact ⟨h.bound, h.dead, h.untouched⟩

theorem Inner.work {t : SourceType} {f : Source → Source} (hf : Inner t f) (s : Source) :
    (f s).work = s.work := by
  cases hf with
  | unpend => rfl
  | shot => rfl
  | notify => rfl
  | processTimer =>
    unfold Source.processTimer
    dsimp only
    split_ifs <;> rfl
  | processDeferred =>
    unfold Source.processDeferred
    split_ifs <;> rfl

theorem lasting_gone (i : Nat) : Lasting fun r => Gone i r.loop where
  exec r op _ h := h.exec op
  inner r j f hf _ h := h.modify fun _ => ⟨(hf.keeps _).1, hf.work _⟩
  log _ _ _ h := h
  state _ _ _ h := ⟨h.bound, h.dead, h.untouched⟩
  tick r t h := by
    show Gone i (r.loop.tick t)
    unfold Loop.tick
    split
    · exact ⟨h.bound, h.dead, h.untouched⟩
    · exact h
  expire r j h := by
    show Gone i (r.loop.expire j)
    unfold Loop.expire
    split
    · next hexpires =>
      refine h.modify fun hji => ?_
      simp only [Loop.expires, hji, h.dead, Bool.false_and] at hexpires
      exact absurd hexpires Bool.false_ne_true
    · exact h

end

theorem AddCall.exec_added (call : AddCall) (e : Loop) (source : Option Nat) :
    ∃ s K, Added e (call.exec e source).1 s K ∧ (call.fails = true → s.live = false) ∧
      (call.failsEarly = true → K = none ∧ s.work = none) ∧
      (call.fails = true → call.failsEarly = false →
        K = some .sources ∨ ∃ t, s.work = some t) := by
  cases call with
  | io events r =>
    refine ⟨_, _, addIo_added events r, fun hf => ?_, fun he => absurd he Bool.false_ne_true,
      fun _ _ => Or.inl rfl⟩
    simpa [AddCall.fails, newIo] using hf
  | time usec r =>
    refine ⟨_, _, addTime_added usec r, fun hf => ?_, fun he => ?_, fun _ he => ?_⟩
    · simp only [AddCall.fails] at hf
      unfold newTime
      rcases hp : r.pipeOk with _ | _
      · rfl
      · simpa [hp] using hf
    · have hp : r.pipeOk = false := by simpa [AddCall.failsEarly] using he
      simp [newTime, newTimeList, hp]
    · have hp : r.pipeOk = true := by simpa [AddCall.failsEarly] using he
      exact Or.inr ⟨_, by simp [newTime, hp]; rfl⟩

/-- In every state that can be reached, a call that fails changes nothing exactly if it fails at its
`socketpair`. -/
theorem changesNothing_iff (ops : List LoopOp) (source : Option Nat) (call : AddCall)
    (hfails : call.fails = true) :
    ChangesNothing (eventRun ops).loop source (call.exec (eventRun ops).loop source).1
      (call.exec (eventRun ops).loop source).2 ↔ call.failsEarly = true := by
  have hp := eventRun_placed ops
  generalize (eventRun ops).loop = e at hp
  obtain ⟨s, K, ha, hdead, hearly, hlate⟩ := call.exec_added e source
  have hnew : (call.exec e source).1.source e.nSources = s := by rw [ha.source, if_pos rfl]
  have hold : ∀ {i}, i < e.nSources → (call.exec e source).1.source i = e.source i :=
    fun hi => by rw [ha.source, if_neg hi.ne]
  have hout : ∀ k, e.nSources ∉ e.list k :=
    fun k hi => absurd (hp.listed k _ hi) (lt_irrefl _)
  constructor
  · intro h
    by_contra hno
    rcases hlate hfails (Bool.eq_false_of_not_eq_true hno) with hK | ⟨t, ht⟩
    · have hin : e.nSources ∈ (call.exec e source).1.list .sources :=
        (ha.perm .sources hK).mem_iff.mpr List.mem_cons_self
      rw [h.lists] at hin
      exact hout .sources hin
    · have hin : (e.nSources, t) ∈ (call.exec e source).1.scheduled :=
        ⟨by rw [ha.nSources]; exact Nat.lt_succ_self _, by rw [hnew, ht]⟩
      rw [h.works] at hin
      exact lt_irrefl _ hin.1
  · intro he
    obtain ⟨rfl, hwork⟩ := hearly he
    have hlists : (call.exec e source).1.list = e.list := funext fun k => ha.other k nofun
    have hgone : Gone e.nSources (call.exec e source).1 := by
      refine ⟨by rw [ha.nSources]; exact Nat.lt_succ_self _, by rw [hnew]; exact hdead hfails, ?_,
        by rw [hnew]; exact hwork⟩
      rw [hlists]
      exact hout
    refine ⟨hlists, Set.ext fun x => ?_, if_pos hfails, fun later => ?_⟩
    · constructor
      · rintro ⟨hi, hx⟩
        rw [ha.nSources] at hi
        rcases Nat.lt_succ_iff_lt_or_eq.mp hi with hi | hi
        · exact ⟨hi, by rw [← hold hi]; exact hx⟩
        · rw [hi, hnew, hwork] at hx
          exact absurd hx nofun
      · rintro ⟨hi, hx⟩
        exact ⟨by rw [ha.nSources]; exact hi.trans (Nat.lt_succ_self _), by rw [hold hi]; exact hx⟩
    · have hplaced : Placed (call.exec e source).1 := by
        cases call with
        | io events r => exact absurd he Bool.false_ne_true
        | time usec r => exact hp.exec (.addTime usec r)
      exact ((lasting_gone e.nSources).foldl later ⟨hplaced, hgone⟩).2.untouched

theorem changesNothing_iff_pipe : ChangesNothing (eventRun []).loop none
    ((AddCall.time 1000 { pipeOk := false }).exec (eventRun []).loop none).1
    ((AddCall.time 1000 { pipeOk := false }).exec (eventRun []).loop none).2 :=
  (changesNothing_iff [] none (.time 1000 { pipeOk := false }) rfl).mpr rfl

/-- An IO source whose file cannot be set up stays linked. -/
theorem not_changesNothing : ¬∀ (ops : List LoopOp) (source : Option Nat) (call : AddCall),
    call.fails = true →
    ChangesNothing (eventRun ops).loop source (call.exec (eventRun ops).loop source).1
      (call.exec (eventRun ops).loop source).2 := by
  intro hall
  have hlists := (hall [] none (.io 1 { fileOk := false }) rfl).lists
  exact absurd (congrFun hlists .sources) (by decide)

end Basu.Event
