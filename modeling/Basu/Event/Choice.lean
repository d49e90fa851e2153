import Basu.Event.Placed

/-! What a handler leaves its own source enabled as. The one-shot rule is applied when the handler is
back, to whatever it has chosen. -/

namespace Basu.Event
open Function

def EventOp.enables (i : Nat) : EventOp → Option Enabled
  | .setEnabled j enabled => if j = i then some enabled else none
  | _ => none

def lastEnabled (i : Nat) (ops : List EventOp) : Option Enabled :=
  (ops.filterMap (EventOp.enables i)).getLast?

def Enabled.shot (enabled : Enabled) : Enabled := if enabled = .oneshot then .off else enabled

/-- What a source is to be when its handler has made these calls: what they have set, or else off if
it was to run once. -/
def choice (i : Nat) (before : Enabled) (ops : List EventOp) : Enabled :=
  (lastEnabled i ops).getD before.shot

def Handlers.Own (h : Handlers) (i : Nat) : Prop :=
  ∀ l c, c.source ≠ i → ∀ op ∈ h.act l c, op.enables i = none

/-- A source that was run, from the state `e` on, by a handler that made the calls `ops`, is as the
handler has chosen; and chosen to run once more, a deferred source is due in the next iteration. -/
structure ChoicePersists (e : Loop) (ops : List EventOp) (e' : Loop) (i : Nat) : Prop where
  enabled : (e'.source i).enabled = choice i (e.source i).enabled ops
  again : lastEnabled i ops = some .oneshot → (e'.source i).type = .defer →
    ((sdEventPrepare e').source i).isDue = true

section
variable {e : Loop} {i : Nat}

theorem lastEnabled_cons (op : EventOp) (ops : List EventOp) (before : Enabled) :
    (lastEnabled i (op :: ops)).getD before =
      (lastEnabled i ops).getD ((op.enables i).getD before) := by
  unfold lastEnabled
  rw [List.filterMap_cons]
  cases op.enables i with
  | none => rfl
  | some v =>
    rw [List.getLast?_cons]
    rcases (List.filterMap (EventOp.enables i) ops).getLast? with _ | w <;> rfl

theorem Source.setEnabled_enabled (s : Source) (enabled : Enabled) :
    (s.setEnabled enabled).enabled = enabled := by
  unfold Source.setEnabled
  dsimp only
  split_ifs <;> rfl

theorem Source.setTime_enabled (s : Source) (now usec : UInt64) :
    (s.setTime now usec).enabled = s.enabled := by
  unfold Source.setTime
  dsimp only
  split_ifs <;> rfl

theorem modify_enabled {f : Source → Source} (hf : ∀ s, (f s).enabled = s.enabled) (j : Nat) :
    ((e.modify j f).source i).enabled = (e.source i).enabled := by
  rw [modify_source]
  split
  · next hij => rw [hf, hij]
  · rfl

theorem run_enabled (op : EventOp) (hi : i < e.nSources) :
    ((op.run e).source i).enabled = (op.enables i).getD (e.source i).enabled := by
  have hadded : ∀ {e' s K}, Added e e' s K → (e'.source i).enabled = (e.source i).enabled := by
    intro e' s K ha
    rw [ha.source, if_neg hi.ne]
  cases op with
  | addIo events r => exact hadded (addIo_added events r)
  | addTime usec r => exact hadded (addTime_added usec r)
  | addDefer => exact hadded addDefer_added
  | addPost => exact hadded addPost_added
  | addExit => exact hadded addExit_added
  | setPriority j priority =>
    show ((sdEventSourceSetPriority e j priority).source i).enabled = _
    rw [setPriority_source]
    split
    · next hij => rw [hij]; rfl
    · rfl
  | setEnabled j enabled =>
    show ((e.modify j fun s => s.setEnabled enabled).source i).enabled = _
    rw [modify_source]
    dsimp only [EventOp.enables]
    split
    · next hij => rw [if_pos hij.symm, Source.setEnabled_enabled]; rfl
    · next hij => rw [if_neg (Ne.symm hij)]; rfl
  | setTime j usec =>
    show ((sdEventSourceSetTime e j usec).source i).enabled = _
    unfold sdEventSourceSetTime
    split
    · rfl
    · exact modify_enabled (fun s => s.setTime_enabled e.now usec) j
  | ref j => exact modify_enabled (f := fun s => { s with refCount := s.refCount + 1 }) (fun _ => rfl) j
  | unref j =>
    show ((sdEventSourceUnref e j).source i).enabled = _
    unfold sdEventSourceUnref
    split
    · refine modify_enabled (e := e.unlink j) (f := fun s =>
        { s with refCount := 0, userMask := 0, work := none, live := false }) (fun _ => rfl) j
    · exact modify_enabled (f := fun s => { s with refCount := s.refCount - 1 }) (fun _ => rfl) j
  | exit code => rfl

theorem exec_enabled (op : EventOp) (hi : i < e.nSources)
    (hlive : ((op.exec e).source i).live = true) :
    ((op.exec e).source i).enabled = (op.enables i).getD (e.source i).enabled := by
  unfold EventOp.exec at hlive ⊢
  split
  · exact run_enabled op hi
  · next hallowed =>
    rw [if_neg hallowed] at hlive
    cases op with
    | setEnabled j enabled =>
      have hji : j ≠ i := by
        rintro rfl
        exact hallowed hlive
      rw [EventOp.enables, if_neg hji]
      rfl
    | _ => rfl

theorem foldl_enabled (ops : List EventOp) : ∀ (r : Running), i < r.loop.nSources →
    ((ops.foldl Running.exec r).loop.source i).live = true →
    ((ops.foldl Running.exec r).loop.source i).enabled =
      (lastEnabled i ops).getD (r.loop.source i).enabled := by
  induction ops with
  | nil => exact fun r _ _ => rfl
  | cons op ops ih =>
    intro r hi hlive
    have hi' : i < (r.exec op).loop.nSources := hi.trans_le (exec_nSources op)
    have hlive' := (foldl_kept ops _ hi').2.live hlive
    rw [lastEnabled_cons, ← exec_enabled op hi hlive']
    exact ih _ hi' hlive

end

structure Settled (h : Handlers) (i : Nat) (r : Running) (l : List (Loop × Ran)) (e : Loop)
    (t : SourceType) : Prop where
  bound : i < r.loop.nSources
  type : (r.loop.source i).type = t
  enabled : (r.loop.source i).live = true → (r.loop.source i).enabled =
    ((lastEnabled i (h.act l ⟨t, i⟩)).getD (e.source i).enabled).shot

/-- A property of each call of the source's handler since `r₀`, other than for a file. -/
def Running.EachCall (r₀ r : Running) (i : Nat)
    (P : List (Loop × Ran) → Loop → SourceType → Prop) : Prop :=
  ∀ l e t post, r.log = l ++ (e, ⟨t, i⟩) :: post → r₀.log.length ≤ l.length → t ≠ .io → P l e t

def Shot (h : Handlers) (i : Nat) (r₀ r : Running) : Prop :=
  r₀.EachCall r i fun l e t => Settled h i r l e t ∧ (r.loop.source i).pending = false

def Chosen (h : Handlers) (i : Nat) (r₀ r : Running) : Prop :=
  r₀.EachCall r i (Settled h i r)

section
variable {h : Handlers} {i j : Nat} {r₀ r r' : Running} {l : List (Loop × Ran)} {e : Loop}
  {t : SourceType}

theorem append_eq_snoc {α : Type*} {l₁ l : List α} {a b : α} {post : List α}
    (heq : l₁ ++ [a] = l ++ b :: post) :
    (post = [] ∧ l₁ = l ∧ a = b) ∨ ∃ post', post = post' ++ [a] ∧ l₁ = l ++ b :: post' := by
  rcases List.eq_nil_or_concat post with rfl | ⟨post', c, rfl⟩
  · obtain ⟨rfl, hab⟩ := List.append_inj' heq rfl
    exact Or.inl ⟨rfl, rfl, List.singleton_inj.mp hab⟩
  · rw [List.concat_eq_append, ← List.cons_append, ← List.append_assoc] at heq
    obtain ⟨rfl, hab⟩ := List.append_inj' heq rfl
    obtain rfl := List.singleton_inj.mp hab
    exact Or.inr ⟨post', List.concat_eq_append, rfl⟩

theorem eachCall_self {P : List (Loop × Ran) → Loop → SourceType → Prop} :
    r.EachCall r i P := by
  intro l e t post hlog hlen
  have := congrArg List.length hlog
  rw [List.length_append, List.length_cons] at this
  omega

theorem Settled.congr (hs : Settled h i r l e t) (hn : r.loop.nSources ≤ r'.loop.nSources)
    (htype : (r'.loop.source i).type = (r.loop.source i).type)
    (hlive : (r'.loop.source i).live = true → (r.loop.source i).live = true ∧
      (r'.loop.source i).enabled = (r.loop.source i).enabled) : Settled h i r' l e t := by
  refine ⟨hs.bound.trans_le hn, htype.trans hs.type, fun hl => ?_⟩
  obtain ⟨hl, henabled⟩ := hlive hl
  rw [henabled]
  exact hs.enabled hl

theorem Settled.modify (hs : Settled h i r l e t) {f : Source → Source}
    (hf : ∀ s, (f s).live = s.live ∧ (f s).type = s.type)
    (hj : j = i → ∀ s, (f s).enabled = s.enabled) : Settled h i (r.modify j f) l e t := by
  have hsource : (r.modify j f).loop.source i =
      if i = j then f (r.loop.source j) else r.loop.source i := modify_source _ _
  refine hs.congr le_rfl ?_ fun hl => ?_
  · rw [hsource]
    split
    · next hij => rw [(hf _).2, hij]
    · rfl
  · rw [hsource] at hl ⊢
    split
    · next hij =>
      rw [if_pos hij, (hf _).1] at hl
      rw [hj hij.symm, hij]
      exact ⟨hl, rfl⟩
    · next hij =>
      rw [if_neg hij] at hl
      exact ⟨hl, rfl⟩

theorem call_log (h : Handlers) (r : Running) (c : Ran) :
    (r.call h c).log = r.log ++ [(r.loop, c)] := by
  have hfold : ∀ (ops : List EventOp) (r : Running), (ops.foldl Running.exec r).log = r.log := by
    intro ops
    induction ops with
    | nil => exact fun r => rfl
    | cons op ops ih => exact fun r => ih (r.exec op)
  exact hfold _ _

theorem call_enabled (h : Handlers) (c : Ran) (hi : i < r.loop.nSources)
    (hlive : ((r.call h c).loop.source i).live = true) :
    ((r.call h c).loop.source i).enabled =
      (lastEnabled i (h.act r.log c)).getD (r.loop.source i).enabled :=
  foldl_enabled (h.act r.log c) { r with log := r.log ++ [(r.loop, c)] } hi hlive

theorem lastEnabled_of_own (hown : h.Own i) {c : Ran} (hc : c.source ≠ i)
    (l : List (Loop × Ran)) : lastEnabled i (h.act l c) = none := by
  unfold lastEnabled
  rw [List.filterMap_eq_nil_iff.mpr (hown l c hc)]
  rfl

theorem Settled.call (hown : h.Own i) (hs : Settled h i r l e t) {c : Ran} (hc : c.source ≠ i) :
    Settled h i (r.call h c) l e t := by
  obtain ⟨hn, hkept⟩ := call_kept h c hs.bound
  refine ⟨hn, hkept.type.trans hs.type, fun hl => ?_⟩
  rw [call_enabled h c hs.bound hl, lastEnabled_of_own hown hc]
  exact hs.enabled (hkept.live hl)

theorem Settled.own (htype : (r.loop.source i).type = t)
    (hi : i < r.loop.nSources) :
    Settled h i ((r.call h ⟨t, i⟩).modify i Source.shot) r.log r.loop t := by
  obtain ⟨hn, hkept⟩ := call_kept h ⟨t, i⟩ hi
  have hsource : ((r.call h ⟨t, i⟩).modify i Source.shot).loop.source i =
      ((r.call h ⟨t, i⟩).loop.source i).shot := (modify_source _ _).trans (if_pos rfl)
  refine ⟨hn, ?_, fun hl => ?_⟩
  · rw [hsource]
    exact hkept.type.trans htype
  · rw [hsource] at hl ⊢
    rw [← call_enabled h ⟨t, i⟩ hi hl]
    rfl

theorem EachCall.call {P : List (Loop × Ran) → Loop → SourceType → Prop} {c : Ran}
    (hold : r₀.EachCall r i P) (hlog : r'.log = r.log ++ [(e, c)])
    (hnew : c.source = i → c.type ≠ .io → P r.log e c.type) : r₀.EachCall r' i P := by
  intro l e' t post heq hl ht
  rw [hlog] at heq
  obtain ⟨-, rfl, hc⟩ | ⟨post', -, hr⟩ := append_eq_snoc heq
  · obtain ⟨rfl, rfl⟩ := Prod.mk.inj hc
    exact hnew rfl ht
  · exact hold l e' t post' hr hl ht

theorem EachCall.imp {P Q : List (Loop × Ran) → Loop → SourceType → Prop}
    (hold : r₀.EachCall r i P) (hlog : r'.log = r.log)
    (hPQ : ∀ l e t, t ≠ .io → P l e t → Q l e t) : r₀.EachCall r' i Q :=
  fun l e t post heq hl ht => hPQ l e t ht (hold l e t post (hlog ▸ heq) hl ht)

theorem Shot.modify (hs : Shot h i r₀ r) {f : Source → Source}
    (hf : ∀ s, (f s).live = s.live ∧ (f s).type = s.type)
    (hj : j = i → ∀ s, (f s).enabled = s.enabled)
    (hpending : ∀ s, s.pending = false → (f s).pending = false) :
    Shot h i r₀ (r.modify j f) := by
  refine EachCall.imp hs rfl fun l e t _ ⟨hset, hp⟩ => ⟨hset.modify hf hj, ?_⟩
  have hsource : (r.modify j f).loop.source i =
      if i = j then f (r.loop.source j) else r.loop.source i := modify_source _ _
  rw [hsource]
  split
  · next hij => exact hpending _ (hij ▸ hp)
  · exact hp

theorem call_pending (h : Handlers) (c : Ran) (hi : i < r.loop.nSources)
    (hp : (r.loop.source i).pending = false) : ((r.call h c).loop.source i).pending = false := by
  rw [Bool.eq_false_iff]
  exact fun htrue => absurd ((call_kept h c hi).2.pending htrue) (by rw [hp]; exact nofun)

theorem Shot.call (hown : h.Own i) (hs : Shot h i r₀ r) {c : Ran} (hc : c.source ≠ i) :
    Shot h i r₀ (r.call h c) := by
  refine EachCall.call (EachCall.imp hs rfl fun l e t _ ⟨hset, hp⟩ => ?_) (call_log h r c)
    fun heq => absurd heq hc
  exact ⟨hset.call hown hc, call_pending h c hset.bound hp⟩

theorem Shot.visit_self (hs : Shot h i r₀ r) (hp : Placed r.loop)
    (hlive : (r.loop.source i).live = true) : Shot h i r₀ (visit h t i r).1 := by
  unfold visit
  split
  swap
  · exact hs
  next hdue =>
  have hnone : r₀.EachCall r i fun _ _ _ => False := fun l e t post heq hl ht => by
    have hpending := (hs l e t post heq hl ht).2
    simp only [Source.isDue, hpending, Bool.false_and] at hdue
    exact absurd hdue Bool.false_ne_true
  have hsource : (r.modify i Source.unpend).loop.source i = (r.loop.source i).unpend :=
    (modify_source _ _).trans (if_pos rfl)
  have hlog : (r.modify i Source.unpend).log = r.log := rfl
  have hi : i < (r.modify i Source.unpend).loop.nSources := hp.bound i hlive
  generalize r.modify i Source.unpend = r₁ at hsource hlog hi
  unfold Running.callOn
  split
  swap
  · exact EachCall.imp hnone hlog fun _ _ _ _ => False.elim
  next htype =>
  have hnone₁ : r₀.EachCall r₁ i fun _ _ _ => False := EachCall.imp hnone hlog fun _ _ _ _ => id
  have hpending := call_pending h ⟨t, i⟩ hi (by rw [hsource]; rfl)
  dsimp only
  split
  · refine EachCall.call (EachCall.imp hnone₁ rfl fun _ _ _ _ => False.elim)
      (call_log h r₁ ⟨t, i⟩) fun _ _ => ⟨.own htype hi, ?_⟩
    have hshot : ((r₁.call h ⟨t, i⟩).modify i Source.shot).loop.source i =
        ((r₁.call h ⟨t, i⟩).loop.source i).shot := (modify_source _ _).trans (if_pos rfl)
    rw [hshot]
    exact hpending
  · next hdead =>
    obtain ⟨hn, hkept⟩ := call_kept h ⟨t, i⟩ hi
    exact EachCall.call (EachCall.imp hnone₁ rfl fun _ _ _ _ => False.elim)
      (call_log h r₁ ⟨t, i⟩) fun _ _ =>
        ⟨⟨hn, hkept.type.trans htype, fun hl => absurd hl hdead⟩, hpending⟩

theorem Shot.visit_other (hown : h.Own i) (hs : Shot h i r₀ r) (hji : j ≠ i) :
    Shot h i r₀ (visit h t j r).1 := by
  have hkept : ∀ s : Source, s.shot.live = s.live ∧ s.shot.type = s.type :=
    fun _ => ⟨rfl, rfl⟩
  have h₁ : Shot h i r₀ (r.modify j Source.unpend) :=
    hs.modify (fun _ => ⟨rfl, rfl⟩) (fun _ _ => rfl) fun _ _ => rfl
  have h₂ := h₁.call hown (c := ⟨t, j⟩) hji
  unfold visit Running.callOn
  split
  swap
  · exact hs
  split
  swap
  · exact h₁
  dsimp only
  split
  · exact h₂.modify hkept (fun heq => absurd heq hji) fun _ hp => hp
  · exact h₂

theorem Shot.forList (hown : h.Own i) (hs : Shot h i r₀ r) (ht : t ≠ .io) (hp : Placed r.loop)
    (k : SourceList) (fuel : Nat) : (forList (visit h t) k fuel r).1.Has (Shot h i r₀) := by
  refine Stable.forEachSafe (fun j r' hlive hr => ?_) k fuel _ _ ⟨hp, hs⟩
  refine ⟨(lasting_true.visit trivial ht hlive ⟨hr.1, trivial⟩).1, ?_⟩
  by_cases hji : j = i
  · subst hji
    exact hr.2.visit_self hr.1 hlive
  · exact hr.2.visit_other hown hji

theorem Shot.chosen (hs : Shot h i r₀ r) : Chosen h i r₀ r :=
  EachCall.imp hs rfl fun _ _ _ _ => And.left

theorem Chosen.dispatchFiles (hown : h.Own i) (l : List Nat) : ∀ {r : Running},
    Chosen h i r₀ r → Chosen h i r₀ (dispatchFiles h l r) := by
  induction l with
  | nil => exact id
  | cons j l ih =>
    intro r hr
    unfold Event.dispatchFiles
    dsimp only
    split
    · exact ih hr
    split
    · next hio =>
      refine ih (EachCall.call (EachCall.imp hr rfl fun l e t ht hset => ?_)
        (call_log h r ⟨.io, j⟩) fun _ hne => absurd rfl hne)
      refine hset.call hown (c := ⟨.io, j⟩) fun hji => ?_
      have hji : j = i := hji
      exact absurd (hset.type.symm.trans (hji ▸ hio)) ht
    split
    · exact ih (EachCall.imp hr rfl fun l e t _ hset =>
        hset.modify (fun _ => ⟨rfl, rfl⟩) fun _ _ => rfl)
    · exact ih hr

theorem chosen_dispatch (hown : h.Own i) (hp : Placed r.loop) (fuel : Nat) :
    Chosen h i r (sdEventDispatch h fuel r).1 := by
  have hdefer := Shot.forList hown (t := .defer) (r := r) eachCall_self (by decide) hp
    .deferSources fuel
  unfold sdEventDispatch
  dsimp only
  generalize forList (visit h .defer) .deferSources fuel r = x at hdefer ⊢
  obtain ⟨hp₁, h₁⟩ := hdefer
  split
  swap
  · exact h₁.chosen
  unfold dispatchRest
  split
  · exact h₁.chosen
  dsimp only
  have htime := h₁.forList hown (t := .time) (by decide) hp₁ .timerSources fuel
  generalize forList (visit h .time) .timerSources fuel x.1 = y at htime ⊢
  obtain ⟨-, h₂⟩ := htime
  split
  swap
  · exact h₂.chosen
  exact EachCall.imp (h₂.chosen.dispatchFiles hown (h.files y.1)) rfl fun l e t _ hset =>
    hset.congr le_rfl rfl fun hl => ⟨hl, rfl⟩

end

/-- In every state that can be reached, a deferred source or a time source that is run and still
there in the end is as its own handler has chosen exactly if the handler has not chosen, last of all,
to run once more. -/
theorem choice_persists_iff (ops : List LoopOp) (h : Handlers) (fuel i : Nat) (hown : h.Own i)
    (l : List (Loop × Ran)) (e : Loop) (t : SourceType) (post : List (Loop × Ran))
    (hlog : (sdEventDispatch h fuel (eventRun ops)).1.log = l ++ (e, ⟨t, i⟩) :: post)
    (hlen : (eventRun ops).log.length ≤ l.length) (ht : t = .defer ∨ t = .time)
    (hlive : ((sdEventDispatch h fuel (eventRun ops)).1.loop.source i).live = true) :
    ChoicePersists e (h.act l ⟨t, i⟩) (sdEventDispatch h fuel (eventRun ops)).1.loop i ↔
      lastEnabled i (h.act l ⟨t, i⟩) ≠ some .oneshot := by
  have hio : t ≠ .io := by rcases ht with rfl | rfl <;> decide
  have hset := chosen_dispatch hown (eventRun_placed ops) fuel l e t post hlog hlen hio
  have henabled := hset.enabled hlive
  constructor
  · intro hpersists heq
    have hchoice := hpersists.enabled
    rw [henabled, choice, heq] at hchoice
    have hoff : Enabled.off = .oneshot := hchoice
    exact absurd hoff nofun
  · intro hne
    refine ⟨?_, fun heq => absurd heq hne⟩
    rw [henabled, choice]
    rcases hlast : lastEnabled i (h.act l ⟨t, i⟩) with _ | v
    · rfl
    · cases v with
      | oneshot => exact absurd hlast hne
      | _ => rfl

def setting (enabled : Enabled) : Handlers where
  act _ c := if c.source = 0 then [.setEnabled 0 enabled] else []
  files _ := []

theorem setting_own (enabled : Enabled) : (setting enabled).Own 0 := by
  intro l c hc op hop
  unfold setting at hop
  dsimp only at hop
  rw [if_neg hc] at hop
  exact absurd hop List.not_mem_nil

def deferCalled : Loop := ((eventRun [.call .addDefer, .prepare]).modify 0 Source.unpend).loop

theorem setting_log (enabled : Enabled) :
    (sdEventDispatch (setting enabled) 2 (eventRun [.call .addDefer, .prepare])).1.log =
      [] ++ (deferCalled, ⟨.defer, 0⟩) :: [] := by
  cases enabled <;> rfl

theorem choice_persists_iff_on :
    ChoicePersists deferCalled ((setting .on).act [] ⟨.defer, 0⟩)
      (sdEventDispatch (setting .on) 2 (eventRun [.call .addDefer, .prepare])).1.loop 0 :=
  (choice_persists_iff _ (setting .on) 2 0 (setting_own .on) [] deferCalled .defer []
    (setting_log .on) (by decide) (Or.inl rfl) (by decide)).mpr (by decide)

/-- A deferred source that its handler sets to run once more is off. -/
theorem not_choice_persists : ¬∀ (ops : List LoopOp) (h : Handlers) (fuel i : Nat), h.Own i →
    ∀ l e t post, (sdEventDispatch h fuel (eventRun ops)).1.log = l ++ (e, ⟨t, i⟩) :: post →
      (eventRun ops).log.length ≤ l.length → t = .defer ∨ t = .time →
      ((sdEventDispatch h fuel (eventRun ops)).1.loop.source i).live = true →
      ChoicePersists e (h.act l ⟨t, i⟩) (sdEventDispatch h fuel (eventRun ops)).1.loop i := by
  intro hall
  have hpersists := hall _ (setting .oneshot) 2 0 (setting_own .oneshot) [] deferCalled .defer []
    (setting_log .oneshot) (by decide) (Or.inl rfl) (by decide)
  exact absurd hpersists.enabled (by decide)

end Basu.Event
