import Basu.Event.Placed

/-! Which sources one call of `sd_event_dispatch` runs. The loop over a list saves the link behind
the source it is at, and follows it when the handler is back. -/

namespace Basu.Event
open Function

structure Turn where
  source : Nat
  saved : Link
  before : Running
  after : Running

def turns (v : Nat → Running → Running × Outcome) (k : SourceList) :
    Nat → Link → Link → Running → List Turn
  | 0, _, _, _ => []
  | _ + 1, .head _, _, _ => []
  | fuel + 1, .entry i, safe, r =>
    if !(r.loop.source i).live then []
    else
      let x := v i r
      ⟨i, safe, r, x.1⟩ :: match x.2 with
        | .done => turns v k fuel safe (x.1.loop.next safe) x.1
        | _ => []

def listTurns (v : Nat → Running → Running × Outcome) (k : SourceList) (fuel : Nat) (r : Running) :
    List Turn :=
  let iter := r.loop.next (.head k)
  turns v k fuel iter (r.loop.next iter) r

def Turn.Called (u : Turn) : Prop := (u.before.loop.source u.source).isDue = true

def Running.callsSince (r r₀ : Running) : List (Loop × EventOp) := r.calls.drop r₀.calls.length

def Running.ranSince (r r₀ : Running) : List Ran :=
  (r.log.drop r₀.log.length).map Prod.snd

/-- A source of the list that was due at the start, has been linked and due after every call since,
and has not been run. -/
def Owed (t : SourceType) (k : SourceList) (r₀ r : Running) (i : Nat) : Prop :=
  i ∈ r₀.loop.list k ∧ (r₀.loop.source i).isDue = true ∧
    (∀ c ∈ r.callsSince r₀, (c.2.exec c.1).isLinked i = true ∧
      ((c.2.exec c.1).source i).isDue = true) ∧
    ⟨t, i⟩ ∉ r.ranSince r₀

def Turn.InOrder (t : SourceType) (k : SourceList) (r₀ : Running) (u : Turn) : Prop :=
  ∃ l l', u.before.loop.list k = l ++ u.source :: l' ∧
    ∀ i, Owed t k r₀ u.before i → i = u.source ∨ i ∈ l'

/-- The source is still there when its handler is back, and the link saved before leads into the
list, in front of every source that is still owed a call. -/
def Turn.Careful (t : SourceType) (k : SourceList) (r₀ : Running) (u : Turn) : Prop :=
  (u.after.loop.source u.source).live = true ∧
    ∃ l l', u.after.loop.list k = l ++ l' ∧ u.saved = Link.first k l' ∧
      ∀ i, Owed t k r₀ u.after i → i ∈ l'

/-- From here on the loop over a list comes to its end; it calls the handlers in order, none of them
twice since the start in `r₀`, and owes no call in the end. -/
structure Serves (h : Handlers) (t : SourceType) (k : SourceList) (r₀ : Running) (fuel : Nat)
    (iter safe : Link) (r : Running) : Prop where
  done : (forEachSafe (visit h t) k fuel iter safe r).2 = .done
  inOrder : ∀ u ∈ turns (visit h t) k fuel iter safe r, u.Called → u.InOrder t k r₀
  once : ((forEachSafe (visit h t) k fuel iter safe r).1.ranSince r₀).Nodup
  all : ∀ i, ¬ Owed t k r₀ (forEachSafe (visit h t) k fuel iter safe r).1 i

def Served (h : Handlers) (t : SourceType) (k : SourceList) (fuel : Nat) (r : Running) : Prop :=
  Serves h t k r fuel (r.loop.next (.head k)) (r.loop.next (r.loop.next (.head k))) r

def Careful (h : Handlers) (t : SourceType) (k : SourceList) (fuel : Nat) (r : Running) : Prop :=
  ∀ u ∈ listTurns (visit h t) k fuel r, u.Called → u.Careful t k r

section links
variable {e : Loop} {k : SourceList} {i : Nat} {l l' : List Nat}

theorem after_append (hi : i ∉ l) : Link.after k i (l ++ i :: l') = Link.first k l' := by
  induction l with
  | nil =>
    rw [List.nil_append, Link.after, if_pos rfl]
  | cons j l ih =>
    rw [List.cons_append, Link.after, if_neg]
    · exact ih fun h => hi (List.mem_cons_of_mem _ h)
    · exact fun h => hi (h ▸ List.mem_cons_self)

theorem next_entry (h : Placed e) (hl : e.list k = l ++ i :: l') :
    e.next (.entry i) = Link.first k l' := by
  have hi : i ∈ e.list k := by
    rw [hl]
    exact List.mem_append_right _ List.mem_cons_self
  have hnot : i ∉ l := by
    intro hin
    have hnodup := hl ▸ h.nodup k
    exact (List.nodup_append.mp hnodup).2.2 i hin i List.mem_cons_self rfl
  unfold Loop.next
  dsimp only
  split
  · next hnone =>
    have hk := List.find?_eq_none.mp hnone k (by cases k <;> decide)
    exact absurd (decide_eq_true hi) hk
  · next k' hsome =>
    have hk := List.find?_some (p := fun k => decide (i ∈ e.list k)) hsome
    have hk' : k' = k := h.apart k' k i (of_decide_eq_true hk) hi
    rw [hk', hl]
    exact after_append hnot

end links

section calls
variable {r r₀ : Running} {h : Handlers} {i : Nat} {k : SourceList} {t : SourceType}

structure Follows (r₀ r : Running) : Prop where
  calls : r₀.calls.length ≤ r.calls.length
  log : r₀.log.length ≤ r.log.length

theorem Follows.refl (r : Running) : Follows r r := ⟨le_rfl, le_rfl⟩

theorem callsSince_exec (hr : Follows r₀ r) (op : EventOp) :
    (r.exec op).callsSince r₀ = r.callsSince r₀ ++ [(r.loop, op)] := by
  unfold Running.callsSince Running.exec
  exact List.drop_append_of_le_length hr.calls

theorem foldl_exec (ops : List EventOp) : ∀ (r : Running), Follows r₀ r →
    Follows r₀ (ops.foldl Running.exec r) ∧
    (ops.foldl Running.exec r).log = r.log ∧
    (∀ c ∈ r.callsSince r₀, c ∈ (ops.foldl Running.exec r).callsSince r₀) ∧
    ∀ P : Loop → Prop, P r.loop →
      (∀ c ∈ (ops.foldl Running.exec r).callsSince r₀, P (c.2.exec c.1)) →
      P (ops.foldl Running.exec r).loop := by
  induction ops with
  | nil => exact fun r hr => ⟨hr, rfl, fun _ hc => hc, fun _ hP _ => hP⟩
  | cons op ops ih =>
    intro r hr
    have hcalls := callsSince_exec hr op
    have hr' : Follows r₀ (r.exec op) := by
      refine ⟨hr.calls.trans ?_, hr.log⟩
      unfold Running.exec
      simp only [List.length_append]
      exact Nat.le_add_right _ _
    obtain ⟨hf, hlog, hin, hP⟩ := ih (r.exec op) hr'
    refine ⟨hf, hlog, fun c hc => hin c ?_, fun P _ hall => hP P ?_ hall⟩
    · rw [hcalls]
      exact List.mem_append_left _ hc
    · refine hall (r.loop, op) (hin _ ?_)
      rw [hcalls]
      exact List.mem_append_right _ List.mem_cons_self

theorem call_keeps {P : Loop → Prop} (hP : ∀ e op, P e → P (EventOp.exec e op)) (h : Handlers)
    (c : Ran) (hr : P r.loop) : P (r.call h c).loop := by
  unfold Running.call
  have hops : ∀ (ops : List EventOp) (r' : Running), P r'.loop →
      P (ops.foldl Running.exec r').loop := by
    intro ops
    induction ops with
    | nil => exact fun _ hr => hr
    | cons op ops ih => exact fun r' hr => ih _ (hP r'.loop op hr)
  exact hops _ _ hr

theorem exec_mem {e : Loop} (hp : Placed e) {j : Nat} (hj : j ∈ e.list k) (op : EventOp) :
    ((op.exec e).source j).live = false ∨ j ∈ (op.exec e).list k ∨
      j ∈ (op.exec e).list .sources := by
  have hadded : ∀ {e' s K}, Added e e' s K → j ∈ e'.list k := by
    intro e' s K ha
    by_cases hk : K = some k
    · exact (ha.perm k hk).mem_iff.mpr (List.mem_cons_of_mem _ hj)
    · rw [ha.other k hk]
      exact hj
  unfold EventOp.exec
  split
  swap
  · exact .inr (.inl hj)
  cases op with
  | addIo events r => exact .inr (.inl (hadded (addIo_added events r)))
  | addTime usec r => exact .inr (.inl (hadded (addTime_added usec r)))
  | addDefer => exact .inr (.inl (hadded addDefer_added))
  | addPost => exact .inr (.inl (hadded addPost_added))
  | addExit => exact .inr (.inl (hadded addExit_added))
  | setPriority i priority =>
    refine .inr ?_
    by_cases hi : e.isLinked i = true
    swap
    · exact .inl ((congrFun (setPriority_list_of_not hi priority) k).symm ▸ hj)
    have hperm := perm_setPriority_list hi priority
    by_cases hji : j = i
    · rw [hji] at hj ⊢
      by_cases hd : (e.source i).type = .defer
      · -- only the list of the deferred sources holds any
        have hk : k = .deferSources := by
          by_cases hk : k = .sources
          · exact absurd hd (hp.strange i (hk ▸ hj))
          · have hown := (hp.own k hk i hj).2
            rw [hd] at hown
            exact (Option.some.inj hown).symm
        rw [SourceType.target, if_pos hd, ← hk] at hperm
        exact .inl (hperm.mem_iff.mpr List.mem_cons_self)
      · rw [SourceType.target, if_neg hd] at hperm
        exact .inr (hperm.mem_iff.mpr List.mem_cons_self)
    · have herase : j ∈ (e.list k).erase i := (List.mem_erase_of_ne hji).mpr hj
      refine .inl ?_
      by_cases hk : k = (e.source i).type.target
      · rw [← hk] at hperm
        exact hperm.mem_iff.mpr (List.mem_cons_of_mem _ herase)
      · show j ∈ (sdEventSourceSetPriority e i priority).list k
        rw [setPriority_list hi, if_neg hk]
        exact herase
  | setTime i usec =>
    refine .inr (.inl ?_)
    show j ∈ (sdEventSourceSetTime e i usec).list k
    unfold sdEventSourceSetTime
    split <;> exact hj
  | unref i =>
    show ((sdEventSourceUnref e i).source j).live = false ∨ j ∈ (sdEventSourceUnref e i).list k ∨ _
    unfold sdEventSourceUnref
    split
    · by_cases hji : j = i
      · refine .inl ?_
        rw [modify_source, if_pos hji]
      · exact .inr (.inl ((List.mem_erase_of_ne hji).mpr hj))
    · exact .inr (.inl hj)
  | _ => exact .inr (.inl hj)

def Stays (k : SourceList) (j : Nat) (e : Loop) : Prop :=
  Placed e ∧ j < e.nSources ∧
    ((e.source j).live = false ∨ j ∈ e.list k ∨ j ∈ e.list .sources)

theorem exec_stays (j : Nat) (e : Loop) (op : EventOp) (h : Stays k j e) :
    Stays k j (op.exec e) := by
  obtain ⟨hp, hb, hj⟩ := h
  refine ⟨hp.exec op, hb.trans_le (exec_nSources op), ?_⟩
  rcases hj with hdead | hj | hj
  · refine .inl (Bool.eq_false_iff.mpr fun hl => ?_)
    exact absurd (hdead.symm.trans ((exec_kept op hb).live hl)) Bool.false_ne_true
  · exact exec_mem hp hj op
  · exact (exec_mem hp hj op).imp_right fun h => .inr (h.elim id id)

def Loop.Waiting (e : Loop) (j : Nat) : Prop :=
  (e.source j).live = true ∧ (e.source j).pending = true

theorem exec_waiting {e : Loop} (op : EventOp) (j : Nat) (h : (op.exec e).Waiting j) :
    e.Waiting j := by
  unfold EventOp.exec at h
  split at h
  · rcases run_kept (e := e) op j with hk | ⟨-, hp⟩
    · exact ⟨hk.live h.1, hk.pending h.2⟩
    · exact absurd (hp.symm.trans h.2) Bool.false_ne_true
  · exact h

def Loop.Ready (e : Loop) (j : Nat) : Prop := e.isLinked j = true ∧ (e.source j).isDue = true

structure Turned (t : SourceType) (r₀ r r' : Running) (i : Nat) : Prop where
  placed : Placed r'.loop
  follows : Follows r₀ r'
  ran : r'.ranSince r₀ = r.ranSince r₀ ++ [⟨t, i⟩]
  calls : ∀ c ∈ r.callsSince r₀, c ∈ r'.callsSince r₀
  waiting : ∀ j, r'.loop.Waiting j → r.loop.Waiting j
  quiet : ∀ j, j = i ∨ (r.loop.source j).pending = false → (r'.loop.source j).pending = false
  ready : ∀ j, j ≠ i → r.loop.Ready j → (∀ c ∈ r'.callsSince r₀, (c.2.exec c.1).Ready j) →
    r'.loop.Ready j
  stays : ∀ k j, Stays k j r.loop → Stays k j r'.loop

theorem Turned.shot {r' : Running} (h : Turned t r₀ r r' i)
    (hi : (r'.loop.source i).type ≠ .io) : Turned t r₀ r (r'.modify i Source.shot) i := by
  have hsource : ∀ j, (r'.modify i Source.shot).loop.source j =
      if j = i then (r'.loop.source i).shot else r'.loop.source j := modify_source _
  have hsame : ∀ j, ((r'.modify i Source.shot).loop.source j).live = (r'.loop.source j).live ∧
      ((r'.modify i Source.shot).loop.source j).pending = (r'.loop.source j).pending := by
    intro j
    rw [hsource]
    split
    · next hj => rw [hj]; exact ⟨rfl, rfl⟩
    · exact ⟨rfl, rfl⟩
  have hplaced : Placed (r'.modify i Source.shot).loop := (Inner.shot hi).placed h.placed
  refine ⟨hplaced, ⟨h.follows.calls, h.follows.log⟩, h.ran, h.calls, fun j hj => h.waiting j ?_, fun j hj => ?_,
    fun j hj hr hc => ?_, fun k j hj => ⟨hplaced, (h.stays k j hj).2.1, ?_⟩⟩
  · exact ⟨(hsame j).1 ▸ hj.1, (hsame j).2 ▸ hj.2⟩
  · rw [(hsame j).2]
    exact h.quiet j hj
  · obtain ⟨hlinked, hdue⟩ := h.ready j hj hr hc
    refine ⟨hlinked, ?_⟩
    rw [hsource, if_neg hj]
    exact hdue
  · rw [(hsame j).1]
    exact (h.stays k j hj).2.2

theorem turned_call (hp : Placed r.loop) (hf : Follows r₀ r) (h : Handlers) :
    Turned t r₀ r ((r.modify i Source.unpend).call h ⟨t, i⟩) i := by
  have hsource : ∀ j, (r.modify i Source.unpend).loop.source j =
      if j = i then (r.loop.source i).unpend else r.loop.source j := modify_source _
  have hplaced : Placed (r.modify i Source.unpend).loop :=
    (Inner.unpend t).placed hp
  generalize hr₁ : (r.modify i Source.unpend) = r₁ at hsource hplaced
  have hlist : r₁.loop.list = r.loop.list := by rw [← hr₁]; rfl
  have hn : r₁.loop.nSources = r.loop.nSources := by rw [← hr₁]; rfl
  have hcalls : r₁.calls = r.calls := by rw [← hr₁]; rfl
  have hlog : r₁.log = r.log := by rw [← hr₁]; rfl
  have hf₁ : Follows r₀ { r₁ with log := r₁.log ++ [(r₁.loop, ⟨t, i⟩)] } := by
    refine ⟨by rw [hcalls]; exact hf.calls, ?_⟩
    rw [hlog, List.length_append]
    exact hf.log.trans (Nat.le_add_right _ _)
  obtain ⟨hfollows, hlog', hin, hP⟩ := foldl_exec (h.act r₁.log ⟨t, i⟩) _ hf₁
  refine ⟨call_keeps (fun _ op h => h.exec op) h _ hplaced, hfollows, ?_, fun c hc => hin c ?_,
    fun j hj => ?_, fun j hj => ?_, fun j hj hr hc => ?_, fun k j hj => ?_⟩
  · unfold Running.ranSince
    have hlog'' : (r₁.call h ⟨t, i⟩).log = r.log ++ [(r₁.loop, ⟨t, i⟩)] := by
      rw [← hlog]
      exact hlog'
    rw [hlog'', List.drop_append_of_le_length hf.log, List.map_append]
    rfl
  · unfold Running.callsSince at hc ⊢
    rw [hcalls]
    exact hc
  · have hw := call_keeps (P := fun e => ∀ j, e.Waiting j → r₁.loop.Waiting j)
      (fun _ op hP j hj => hP j (exec_waiting op j hj)) h ⟨t, i⟩ (fun _ hj => hj) j hj
    unfold Loop.Waiting at hw ⊢
    rw [hsource] at hw
    split at hw
    · exact absurd hw.2 Bool.false_ne_true
    · exact hw
  · refine call_keeps (P := fun e => (e.source j).pending = false)
      (fun _ op hP => exec_pending op hP) h ⟨t, i⟩ ?_
    rw [hsource]
    split
    · rfl
    · next hne => exact hj.resolve_left hne
  · refine hP (fun e => e.Ready j) ⟨?_, ?_⟩ hc
    · refine isLinked_iff.mpr ?_
      show ∃ k, j ∈ r₁.loop.list k
      rw [hlist]
      exact isLinked_iff.mp hr.1
    · show (r₁.loop.source j).isDue = true
      rw [hsource, if_neg hj]
      exact hr.2
  · refine call_keeps (P := Stays k j) (exec_stays j) h ⟨t, i⟩ ⟨hplaced, ?_, ?_⟩
    · rw [hn]
      exact hj.2.1
    · have hlive : (r₁.loop.source j).live = (r.loop.source j).live := by
        rw [hsource]
        split
        · next hji => rw [hji]; rfl
        · rfl
      rw [hlive, hlist]
      exact hj.2.2

theorem visit_due (hp : Placed r.loop) (hf : Follows r₀ r) (ht : t ≠ .io)
    (hlive : (r.loop.source i).live = true) (hdue : (r.loop.source i).isDue = true)
    (htype : (r.loop.source i).type = t) : Turned t r₀ r (visit h t i r).1 i ∧
      (visit h t i r).2 =
        if ((visit h t i r).1.loop.source i).live then .done else .undefined := by
  have hcall := turned_call (i := i) (t := t) hp hf h
  have hkept := call_kept h ⟨t, i⟩ (r := r.modify i Source.unpend)
    (hp.bound i hlive)
  have hsource : (r.modify i Source.unpend).loop.source i =
      (r.loop.source i).unpend := (modify_source _ _).trans (if_pos rfl)
  have htype' : ((r.modify i Source.unpend).loop.source i).type = t := by
    rw [hsource]
    exact htype
  unfold Event.visit Running.callOn
  rw [if_pos hdue, if_pos htype']
  dsimp only
  split
  · next hl =>
    have hio : ((Running.call h (r.modify i Source.unpend) ⟨t, i⟩).loop.source
        i).type ≠ .io := by
      rw [hkept.2.type, htype']
      exact ht
    refine ⟨hcall.shot hio, ?_⟩
    refine (if_pos ?_).symm
    exact (congrArg Source.live ((modify_source _ _).trans (if_pos rfl))).trans hl
  · next hl => exact ⟨hcall, rfl⟩

theorem visit_stranger (hdue : (r.loop.source i).isDue = true)
    (htype : (r.loop.source i).type ≠ t) : (visit h t i r).2 = .undefined := by
  unfold Event.visit Running.callOn
  rw [if_pos hdue, if_neg]
  intro heq
  refine htype (Eq.trans ?_ heq)
  exact (congrArg Source.type ((modify_source (e := r.loop)
    Source.unpend i).trans (if_pos rfl))).symm

theorem visit_not_due (hdue : ¬ (r.loop.source i).isDue = true) : visit h t i r = (r, .done) :=
  if_neg hdue

theorem Turned.owed {r' : Running} (h : Turned t r₀ r r' i) {j : Nat} (hj : Owed t k r₀ r' j) :
    Owed t k r₀ r j ∧ j ≠ i := by
  obtain ⟨hin, hdue, hcalls, hran⟩ := hj
  rw [h.ran] at hran
  refine ⟨⟨hin, hdue, fun c hc => hcalls c (h.calls c hc), fun hj => ?_⟩, ?_⟩
  · exact hran (List.mem_append_left _ hj)
  · rintro rfl
    exact hran (List.mem_append_right _ List.mem_cons_self)

end calls

section list
variable {h : Handlers} {t : SourceType} {k : SourceList} {r₀ : Running}

structure At (k : SourceList) (iter safe : Link) (r : Running) (l' : List Nat) : Prop where
  rest : ∃ l, r.loop.list k = l ++ l'
  first : iter = Link.first k l'
  next : safe = r.loop.next iter

theorem At.saved {iter safe : Link} {r : Running} {i : Nat} {l' : List Nat} (hp : Placed r.loop)
    (h : At k iter safe r (i :: l')) : iter = .entry i ∧ safe = Link.first k l' := by
  obtain ⟨⟨l, hl⟩, hiter, hsafe⟩ := h
  refine ⟨hiter, hsafe.trans ?_⟩
  rw [hiter]
  exact next_entry hp hl

theorem At.mem {iter safe : Link} {r : Running} {i : Nat} {l' : List Nat}
    (h : At k iter safe r (i :: l')) : i ∈ r.loop.list k := by
  obtain ⟨l, hl⟩ := h.rest
  rw [hl]
  exact List.mem_append_right _ List.mem_cons_self

theorem forEachSafe_live {v : Nat → Running → Running × Outcome} {n i : Nat} {s : Link}
    {r : Running} (hl : (r.loop.source i).live = true) (hv : (v i r).2 = .done) :
    forEachSafe v k (n + 1) (.entry i) s r =
      forEachSafe v k n s ((v i r).1.loop.next s) (v i r).1 ∧
    turns v k (n + 1) (.entry i) s r =
      ⟨i, s, r, (v i r).1⟩ :: turns v k n s ((v i r).1.loop.next s) (v i r).1 := by
  constructor
  · rw [forEachSafe, if_neg (by rw [hl]; decide)]
    dsimp only
    rw [hv]
  · rw [turns, if_neg (by rw [hl]; decide)]
    dsimp only
    rw [hv]

theorem forEachSafe_stop {v : Nat → Running → Running × Outcome} {n i : Nat} {safe : Link}
    {r : Running} (hv : (v i r).2 ≠ .done) :
    (forEachSafe v k (n + 1) (.entry i) safe r).2 ≠ .done := by
  rw [forEachSafe]
  split
  · exact Outcome.noConfusion
  · dsimp only
    split
    · next h => exact absurd h hv
    · exact hv

def Astray (e : Loop) (x : Link) : Prop :=
  x = .head .sources ∨ ∃ j, x = .entry j ∧ Stays .sources j e

theorem astray_first {e : Loop} (hp : Placed e) {l l' : List Nat}
    (hl : e.list .sources = l ++ l') : Astray e (Link.first .sources l') := by
  cases l' with
  | nil => exact .inl rfl
  | cons j l' =>
    have hj : j ∈ e.list .sources := by
      rw [hl]
      exact List.mem_append_right _ List.mem_cons_self
    exact .inr ⟨j, rfl, hp, hp.listed _ j hj, .inr (.inl hj)⟩

theorem Turned.astray {r r' : Running} {i : Nat} (h : Turned t r₀ r r' i) {x : Link}
    (hx : Astray r.loop x) : Astray r'.loop x :=
  hx.imp_right fun ⟨j, hj, hs⟩ => ⟨j, hj, h.stays _ j hs⟩

theorem not_done_of_astray (ht : t ≠ .io) (hk : k ≠ .sources) : ∀ (n : Nat) {iter safe : Link}
    {r : Running}, Placed r.loop → Astray r.loop iter → safe = r.loop.next iter →
      (forEachSafe (visit h t) k n iter safe r).2 ≠ .done
  | 0, _, _, _, _, _, _ => Outcome.noConfusion
  | n + 1, _, _, r, _, .inl rfl, _ => by
    rw [forEachSafe, if_neg fun heq => hk heq.symm]
    exact Outcome.noConfusion
  | n + 1, _, safe, r, hp, .inr ⟨j, rfl, hj⟩, hsafe => by
    by_cases hlive : (r.loop.source j).live = true
    swap
    · rw [forEachSafe, if_pos (by rw [Bool.eq_false_iff.mpr hlive]; rfl)]
      exact Outcome.noConfusion
    have hmem : j ∈ r.loop.list .sources := by
      rcases hj.2.2 with hdead | hmem | hmem
      · exact absurd hdead (by rw [hlive]; decide)
      · exact hmem
      · exact hmem
    obtain ⟨l, l', hl⟩ := List.append_of_mem hmem
    have hsafe' : Astray r.loop safe := by
      rw [hsafe, next_entry hp hl]
      exact astray_first hp (l := l ++ [j]) (by rw [hl, List.append_assoc]; rfl)
    by_cases hv : (visit h t j r).2 = .done
    swap
    · exact forEachSafe_stop hv
    rw [(forEachSafe_live hlive hv).1]
    by_cases hdue : (r.loop.source j).isDue = true
    · by_cases htype : (r.loop.source j).type = t
      · have hturned := (visit_due (h := h) hp (.refl r) ht hlive hdue htype).1
        exact not_done_of_astray ht hk n hturned.placed (hturned.astray hsafe') rfl
      · exact absurd hv (by rw [visit_stranger hdue htype]; exact Outcome.noConfusion)
    · rw [visit_not_due hdue]
      exact not_done_of_astray ht hk n hp hsafe' rfl

theorem Turned.saved {r r' : Running} {i : Nat} {l l' : List Nat} (h : Turned t r₀ r r' i)
    (hp : Placed r.loop) (hl : r.loop.list k = l ++ i :: l') :
    (∃ l₁ l₂, r'.loop.list k = l₁ ++ l₂ ∧ Link.first k l' = Link.first k l₂) ∨
      Astray r'.loop (Link.first k l') := by
  cases l' with
  | nil => exact .inl ⟨r'.loop.list k, [], (List.append_nil _).symm, rfl⟩
  | cons j l' =>
    have hj : j ∈ r.loop.list k := by
      rw [hl]
      exact List.mem_append_right _ (List.mem_cons_of_mem _ List.mem_cons_self)
    obtain ⟨hp', hb, hdead | hin | hin⟩ := h.stays k j ⟨hp, hp.listed k j hj, .inr (.inl hj)⟩
    · exact .inr (.inr ⟨j, rfl, hp', hb, .inl hdead⟩)
    · obtain ⟨l₁, l₂, heq⟩ := List.append_of_mem hin
      exact .inl ⟨l₁, j :: l₂, heq, rfl⟩
    · exact .inr (.inr ⟨j, rfl, hp', hb, .inr (.inl hin)⟩)

theorem rest_unique {l₁ l₂ l₁' l₂' : List Nat} {i : Nat} (hnodup : (l₁ ++ i :: l₂).Nodup)
    (h : l₁ ++ i :: l₂ = l₁' ++ i :: l₂') : l₂ = l₂' := by
  have hout := List.nodup_append.mp hnodup
  have h₁ : i ∉ l₁ := fun hi => hout.2.2 i hi i List.mem_cons_self rfl
  have h₂ : i ∉ l₂ := (List.nodup_cons.mp hout.2.1).1
  exact ((List.append_cons_inj_of_notMem h₁ h₂).mp h).2.2

theorem serves_succ {n i : Nat} {safe : Link} {r : Running}
    (hl : (r.loop.source i).live = true) (hv : (visit h t i r).2 = .done) :
    Serves h t k r₀ (n + 1) (.entry i) safe r ↔
      (Turn.Called ⟨i, safe, r, (visit h t i r).1⟩ →
        Turn.InOrder t k r₀ ⟨i, safe, r, (visit h t i r).1⟩) ∧
      Serves h t k r₀ n safe ((visit h t i r).1.loop.next safe) (visit h t i r).1 := by
  obtain ⟨heach, hturns⟩ := forEachSafe_live (k := k) (n := n) (s := safe) hl hv
  constructor
  · rintro ⟨hdone, horder, honce, hall⟩
    rw [heach] at hdone honce hall
    rw [hturns] at horder
    exact ⟨horder _ List.mem_cons_self, hdone,
      fun u hu => horder u (List.mem_cons_of_mem _ hu), honce, hall⟩
  · rintro ⟨hturn, hdone, horder, honce, hall⟩
    rw [← heach] at hdone honce hall
    refine ⟨hdone, fun u hu => ?_, honce, hall⟩
    rw [hturns] at hu
    rcases List.mem_cons.mp hu with rfl | hu
    · exact hturn
    · exact horder u hu

theorem careful_of_serves (ht : t ≠ .io) (hk : k ≠ .sources) (htk : t.list = some k) :
    ∀ (n : Nat) {iter safe : Link} {r : Running} {l' : List Nat}, Placed r.loop → Follows r₀ r →
      At k iter safe r l' → Serves h t k r₀ n iter safe r → (∀ j, Owed t k r₀ r j → j ∈ l') ∧
        ∀ m, ∀ u ∈ turns (visit h t) k m iter safe r, u.Called → u.Careful t k r₀ := by
  intro n
  induction n with
  | zero => exact fun _ _ _ hserves => absurd hserves.done Outcome.noConfusion
  | succ n ih =>
    intro iter safe r l' hp hf hat hserves
    cases l' with
    | nil =>
      obtain rfl : iter = .head k := hat.first
      refine ⟨fun j hj => absurd hj (hserves.all j), fun m u hu => ?_⟩
      cases m <;> exact absurd hu List.not_mem_nil
    | cons i l' =>
      obtain ⟨l, hl⟩ := hat.rest
      obtain ⟨rfl, hsafe⟩ := hat.saved hp
      have hlive := (hp.own k hk i hat.mem).1
      have htype := hp.type_of_mem htk hk i hat.mem
      have hv : (visit h t i r).2 = .done := by
        by_contra hv
        exact forEachSafe_stop hv hserves.done
      obtain ⟨horder, hrest⟩ := (serves_succ hlive hv).mp hserves
      have hhead : ∀ {P : Turn → Prop}, P ⟨i, safe, r, (visit h t i r).1⟩ →
          (∀ m, ∀ u ∈ turns (visit h t) k m safe ((visit h t i r).1.loop.next safe)
            (visit h t i r).1, P u) →
          ∀ m, ∀ u ∈ turns (visit h t) k m (.entry i) safe r, P u := by
        intro P h₀ h₁ m u hu
        cases m with
        | zero => exact absurd hu List.not_mem_nil
        | succ m =>
          rw [(forEachSafe_live hlive hv).2] at hu
          rcases List.mem_cons.mp hu with rfl | hu
          · exact h₀
          · exact h₁ m u hu
      by_cases hdue : (r.loop.source i).isDue = true
      · -- the order says what is owed before the turn, the rest of the loop what is owed after it
        obtain ⟨hturned, hout⟩ := visit_due (h := h) hp hf ht hlive hdue htype
        obtain ⟨l₁, l₁', hl₁, howed⟩ := horder hdue
        obtain rfl : l' = l₁' := rest_unique (hl ▸ hp.nodup k) (hl.symm.trans hl₁)
        rcases hturned.saved hp hl with ⟨l₂, l₂', hl₂, hfirst⟩ | hastray
        swap
        · refine absurd hrest.done (not_done_of_astray ht hk n hturned.placed ?_ rfl)
          exact hsafe ▸ hastray
        have hat' : At k safe ((visit h t i r).1.loop.next safe) (visit h t i r).1 l₂' :=
          ⟨⟨l₂, hl₂⟩, hsafe.trans hfirst, rfl⟩
        obtain ⟨howed', hcareful⟩ := ih hturned.placed hturned.follows hat' hrest
        refine ⟨fun j hj => List.mem_cons.mpr (howed j hj), hhead (fun _ => ⟨?_, ?_⟩) hcareful⟩
        · by_contra hdead
          rw [if_neg hdead] at hout
          exact absurd (hout.symm.trans hv) Outcome.noConfusion
        · exact ⟨l₂, l₂', hl₂, hsafe.trans hfirst, howed'⟩
      · have hat' : At k safe (r.loop.next safe) r l' :=
          ⟨⟨l ++ [i], by rw [hl, List.append_assoc]; rfl⟩, hsafe, rfl⟩
        have hsame := visit_not_due (h := h) (t := t) hdue
        rw [hsame] at hrest hhead
        obtain ⟨howed', hcareful⟩ := ih hp hf hat' hrest
        exact ⟨fun j hj => List.mem_cons_of_mem _ (howed' j hj),
          hhead (fun hcalled => absurd hcalled hdue) hcareful⟩

/-- No handler was called twice, and those called have nothing pending. -/
structure RanOnce (t : SourceType) (r₀ r : Running) : Prop where
  nodup : (r.ranSince r₀).Nodup
  quiet : ∀ j, ⟨t, j⟩ ∈ r.ranSince r₀ → (r.loop.source j).pending = false

theorem RanOnce.turned {r r' : Running} {i : Nat} (h : RanOnce t r₀ r) (hr : Turned t r₀ r r' i)
    (hi : (r.loop.source i).pending = true) : RanOnce t r₀ r' := by
  have hnew : ⟨t, i⟩ ∉ r.ranSince r₀ := fun hin => by
    rw [h.quiet i hin] at hi
    exact Bool.false_ne_true hi
  refine ⟨?_, fun j hj => hr.quiet j ?_⟩
  · rw [hr.ran, List.nodup_append]
    refine ⟨h.nodup, List.nodup_singleton _, fun x hx y hy heq => hnew ?_⟩
    rw [List.mem_singleton] at hy
    exact hy ▸ heq ▸ hx
  · rw [hr.ran] at hj
    rcases List.mem_append.mp hj with hj | hj
    · exact .inr (h.quiet j hj)
    · exact .inl (congrArg Ran.source (List.mem_singleton.mp hj))

theorem serves_of_careful (ht : t ≠ .io) (hk : k ≠ .sources) (htk : t.list = some k) (n : Nat) :
    ∀ {L : List Nat} {iter safe : Link} {r : Running} {l' : List Nat}, L.length = n →
      (∀ j, r.loop.Waiting j → j ∈ L) → Placed r.loop → Follows r₀ r → At k iter safe r l' →
      RanOnce t r₀ r → (∀ j, Owed t k r₀ r j → r.loop.Ready j) →
      (∀ j, Owed t k r₀ r j → j ∈ l') →
      (∀ m, ∀ u ∈ turns (visit h t) k m iter safe r, u.Called → u.Careful t k r₀) →
      ∃ m, Serves h t k r₀ m iter safe r := by
  induction n using Nat.strong_induction_on with
  | h n ih =>
  intro L iter safe r l' hL hwaiting hp hf hat honce hready howed hcareful
  induction l' generalizing iter safe with
  | nil =>
    obtain rfl : iter = .head k := hat.first
    have hend : forEachSafe (visit h t) k 1 (.head k) safe r = (r, .done) := by
      rw [forEachSafe, if_pos rfl]
    refine ⟨1, ?_, fun u hu => absurd hu List.not_mem_nil, ?_, fun j hj => ?_⟩
    · rw [hend]
    · rw [hend]
      exact honce.nodup
    · rw [hend] at hj
      exact absurd (howed j hj) List.not_mem_nil
  | cons i l' ihl =>
    obtain ⟨l, hl⟩ := hat.rest
    obtain ⟨rfl, hsafe⟩ := hat.saved hp
    have hlive := (hp.own k hk i hat.mem).1
    have htype := hp.type_of_mem htk hk i hat.mem
    -- the turn of `i`, and then the rest of the loop
    have hstep : (visit h t i r).2 = .done →
        (Turn.Called ⟨i, safe, r, (visit h t i r).1⟩ →
          Turn.InOrder t k r₀ ⟨i, safe, r, (visit h t i r).1⟩) →
        ((∀ m, ∀ u ∈ turns (visit h t) k m safe ((visit h t i r).1.loop.next safe)
            (visit h t i r).1, u.Called → u.Careful t k r₀) →
          ∃ m, Serves h t k r₀ m safe ((visit h t i r).1.loop.next safe) (visit h t i r).1) →
        ∃ m, Serves h t k r₀ m (.entry i) safe r := by
      intro hv hturn hrest
      obtain ⟨m, hm⟩ := hrest fun m u hu => by
        refine hcareful (m + 1) u ?_
        rw [(forEachSafe_live hlive hv).2]
        exact List.mem_cons_of_mem _ hu
      exact ⟨m + 1, (serves_succ hlive hv).mpr ⟨hturn, hm⟩⟩
    by_cases hdue : (r.loop.source i).isDue = true
    · obtain ⟨hturned, hout⟩ := visit_due (h := h) hp hf ht hlive hdue htype
      have hpending : (r.loop.source i).pending = true := (Bool.and_eq_true_iff.mp hdue).1
      have hturn : (⟨i, safe, r, (visit h t i r).1⟩ : Turn) ∈
          turns (visit h t) k 1 (.entry i) safe r := by
        rw [turns, if_neg (by rw [hlive]; decide)]
        exact List.mem_cons_self
      obtain ⟨hlive', l₂, l₂', hl₂, hfirst, howed'⟩ := hcareful 1 _ hturn hdue
      have hv : (visit h t i r).2 = .done := hout.trans (if_pos hlive')
      refine hstep hv (fun _ => ⟨l, l', hl, fun j hj => List.mem_cons.mp (howed j hj)⟩) ?_
      refine ih (L.erase i).length ?_ rfl (fun j hj => ?_) hturned.placed hturned.follows
        ⟨⟨l₂, hl₂⟩, hfirst, rfl⟩ (honce.turned hturned hpending) (fun j hj => ?_) howed'
      · rw [← hL]
        exact List.length_erase_of_mem (hwaiting i ⟨hlive, hpending⟩) ▸
          Nat.sub_lt (List.length_pos_of_mem (hwaiting i ⟨hlive, hpending⟩)) Nat.one_pos
      · refine (List.mem_erase_of_ne ?_).mpr (hwaiting j (hturned.waiting j hj))
        rintro rfl
        exact absurd (hturned.quiet j (.inl rfl)) (by rw [hj.2]; decide)
      · obtain ⟨hj', hne⟩ := hturned.owed hj
        exact hturned.ready j hne (hready j hj') hj.2.2.1
    · have hsame := visit_not_due (h := h) (t := t) hdue
      refine hstep (by rw [hsame]) (fun hcalled => absurd hcalled hdue) ?_
      rw [hsame]
      have hat' : At k safe (r.loop.next safe) r l' :=
        ⟨⟨l ++ [i], by rw [hl, List.append_assoc]; rfl⟩, hsafe, rfl⟩
      refine fun hc => ihl hat' (fun j hj => ?_) hc
      rcases List.mem_cons.mp (howed j hj) with rfl | hj'
      · exact absurd (hready j hj).2 hdue
      · exact hj'

theorem served_iff_careful {r : Running} (hp : Placed r.loop) (ht : t ≠ .io) (hk : k ≠ .sources)
    (htk : t.list = some k) : (∃ n, Served h t k n r) ↔ ∀ n, Careful h t k n r := by
  have hat : At k (r.loop.next (.head k)) (r.loop.next (r.loop.next (.head k))) r
      (r.loop.list k) := ⟨⟨[], rfl⟩, rfl, rfl⟩
  have hran : r.ranSince r = [] := by
    unfold Running.ranSince
    rw [List.drop_length]
    rfl
  constructor
  · rintro ⟨n, hn⟩
    exact (careful_of_serves ht hk htk n hp (.refl r) hat hn).2
  · intro hcareful
    exact serves_of_careful ht hk htk (List.range r.loop.nSources).length rfl
      (fun j hj => List.mem_range.mpr (hp.bound j hj.1)) hp (.refl r) hat
      ⟨by rw [hran]; exact List.nodup_nil, fun j hj => absurd (hran ▸ hj) List.not_mem_nil⟩
      (fun j hj => ⟨isLinked_iff.mpr ⟨k, hj.1⟩, hj.2.1⟩) (fun j hj => hj.1) hcareful

theorem forEachSafe_mono {v : Nat → Running → Running × Outcome} : ∀ {n m : Nat}
    {iter safe : Link} {r : Running}, n ≤ m → (forEachSafe v k n iter safe r).2 = .done →
      forEachSafe v k m iter safe r = forEachSafe v k n iter safe r ∧
        turns v k m iter safe r = turns v k n iter safe r
  | 0, _, _, _, _, _, hdone => absurd hdone Outcome.noConfusion
  | _ + 1, 0, _, _, _, hle, _ => absurd hle (Nat.not_succ_le_zero _)
  | _ + 1, _ + 1, .head _, _, _, _, _ => ⟨rfl, rfl⟩
  | n + 1, m + 1, .entry i, safe, r, hle, hdone => by
    have hv : (v i r).2 = .done := by
      by_contra hv
      exact forEachSafe_stop hv hdone
    have hl : (r.loop.source i).live = true := by
      by_contra hl
      rw [forEachSafe, if_pos (by rw [Bool.eq_false_iff.mpr hl]; rfl)] at hdone
      exact Outcome.noConfusion hdone
    rw [(forEachSafe_live hl hv).1] at hdone
    obtain ⟨heach, hturns⟩ := forEachSafe_mono (Nat.le_of_succ_le_succ hle) hdone
    rw [(forEachSafe_live hl hv).1, (forEachSafe_live hl hv).1, (forEachSafe_live hl hv).2,
      (forEachSafe_live hl hv).2, heach, hturns]
    exact ⟨rfl, rfl⟩

theorem turns_mono {v : Nat → Running → Running × Outcome} {u : Turn} : ∀ {n m : Nat}
    {iter safe : Link} {r : Running}, n ≤ m → u ∈ turns v k n iter safe r →
      u ∈ turns v k m iter safe r
  | 0, _, _, _, _, _, hu => absurd hu List.not_mem_nil
  | _ + 1, 0, _, _, _, hle, _ => absurd hle (Nat.not_succ_le_zero _)
  | _ + 1, _ + 1, .head _, _, _, _, hu => absurd hu List.not_mem_nil
  | n + 1, m + 1, .entry i, safe, r, hle, hu => by
    rw [turns] at hu ⊢
    split
    · next hl =>
      rw [if_pos hl] at hu
      exact hu
    · next hl =>
      rw [if_neg hl] at hu
      rcases List.mem_cons.mp hu with rfl | hu
      · exact List.mem_cons_self
      · refine List.mem_cons_of_mem _ ?_
        split at hu
        · exact turns_mono (Nat.le_of_succ_le_succ hle) hu
        · exact absurd hu List.not_mem_nil

theorem Served.mono {n m : Nat} {r : Running} (hn : Served h t k n r) (hle : n ≤ m) :
    Served h t k m r ∧
      forList (visit h t) k m r = forList (visit h t) k n r := by
  obtain ⟨heach, hturns⟩ := forEachSafe_mono hle hn.done
  refine ⟨⟨?_, ?_, ?_, ?_⟩, heach⟩
  · rw [heach]
    exact hn.done
  · rw [hturns]
    exact hn.inOrder
  · rw [heach]
    exact hn.once
  · rw [heach]
    exact hn.all

/-- The state in which `sd_event_dispatch` looks for an exit. -/
def afterDeferred (h : Handlers) (fuel : Nat) (r : Running) : Running :=
  (forList (visit h .defer) .deferSources fuel r).1

/-- `sd_event_dispatch` comes to its end, and has run each deferred source that was due at the start
and stayed so, once and in order, and the same for the time sources if no exit was requested. -/
structure DispatchServes (h : Handlers) (fuel : Nat) (r : Running) : Prop where
  done : (sdEventDispatch h fuel r).2 = .done
  defer : Served h .defer .deferSources fuel r
  time : (afterDeferred h fuel r).loop.exitRequested = false →
    Served h .time .timerSources fuel (afterDeferred h fuel r)

/-- No handler of a deferred source leads the loop over them astray, and none of a time source, if
it comes to that, the loop over those. -/
def DispatchCareful (h : Handlers) (fuel : Nat) (r : Running) : Prop :=
  Careful h .defer .deferSources fuel r ∧
    ((forList (visit h .defer) .deferSources fuel r).2 = .done →
      (afterDeferred h fuel r).loop.exitRequested = false →
      Careful h .time .timerSources fuel (afterDeferred h fuel r))

theorem afterDeferred_placed (h : Handlers) (fuel : Nat) {r : Running} (hp : Placed r.loop) :
    Placed (afterDeferred h fuel r).loop :=
  (lasting_true.forList trivial (by decide) .deferSources fuel ⟨hp, trivial⟩).1

/-- In every state that can be reached, whatever the handlers do, `sd_event_dispatch` comes to its
end and runs every source that stays due once and in order, exactly if each handler leaves its own
source alone and the saved link in the list, in front of all that are still owed a call. -/
theorem dispatch_serves (ops : List LoopOp) (h : Handlers) :
    (∃ fuel, DispatchServes h fuel (eventRun ops)) ↔
      ∀ fuel, DispatchCareful h fuel (eventRun ops) := by
  have hp := eventRun_placed ops
  generalize eventRun ops = r at hp
  have hdefer := served_iff_careful (h := h) (t := .defer) hp (by decide) (by decide) rfl
  have htime := fun fuel => served_iff_careful (h := h) (t := .time)
    (afterDeferred_placed h fuel hp) (by decide) (by decide) rfl
  constructor
  · rintro ⟨n, hn⟩ m
    refine ⟨hdefer.mp ⟨n, hn.defer⟩ m, fun hdone hexit => ?_⟩
    -- both runs of the first loop come to the same end
    have hsame : afterDeferred h m r = afterDeferred h n r := by
      rcases Nat.le_total n m with hle | hle
      · exact congrArg Prod.fst (hn.defer.mono hle).2
      · exact congrArg Prod.fst (forEachSafe_mono hle hdone).1.symm
    rw [hsame] at hexit ⊢
    exact (htime n).mp ⟨n, hn.time hexit⟩ m
  · intro hcareful
    obtain ⟨n, hn⟩ := hdefer.mpr fun m => (hcareful m).1
    have hdone : ∀ m, n ≤ m → (forList (visit h .defer) .deferSources m r).2 = .done :=
      fun m hle => (congrArg Prod.snd (hn.mono hle).2).trans hn.done
    have hsame : ∀ m, n ≤ m → afterDeferred h m r = afterDeferred h n r :=
      fun m hle => congrArg Prod.fst (hn.mono hle).2
    have hdispatch : ∀ m, n ≤ m →
        sdEventDispatch h m r = dispatchRest h m (afterDeferred h m r) := by
      intro m hle
      unfold sdEventDispatch
      dsimp only
      rw [hdone m hle]
      rfl
    by_cases hexit : (afterDeferred h n r).loop.exitRequested = true
    · refine ⟨n, ?_, hn, fun hno => absurd (hexit.symm.trans hno) (by decide)⟩
      rw [hdispatch n le_rfl, dispatchRest, if_pos hexit]
    · have hexit' := Bool.eq_false_iff.mpr hexit
      obtain ⟨n', hn'⟩ := (htime n).mpr fun m u hu => by
        have hle := Nat.le_max_left n m
        have hcareful' := (hcareful (max n m)).2 (hdone _ hle) (by rw [hsame _ hle]; exact hexit')
        rw [hsame _ hle] at hcareful'
        exact hcareful' u (turns_mono (Nat.le_max_right n m) hu)
      -- enough fuel for both loops
      have hle := Nat.le_max_left n n'
      have hserved := (hn'.mono (Nat.le_max_right n n')).1
      refine ⟨max n n', ?_, (hn.mono hle).1, fun _ => ?_⟩
      · have hdone' : (forList (visit h .time) .timerSources (max n n') (afterDeferred h n r)).2 =
            .done := hserved.done
        rw [hdispatch _ hle, hsame _ hle, dispatchRest, if_neg hexit]
        dsimp only
        rw [hdone']
      · rw [hsame _ hle]
        exact hserved

def droppingNext : Handlers where
  act _ c := if c.source = 0 then [.unref 1] else []
  files _ := []

/-- A handler that drops the last reference to the source behind its own leaves the loop with a
pointer to it. -/
theorem not_dispatch_serves : ¬ ∀ (ops : List LoopOp) (h : Handlers),
    ∃ fuel, DispatchServes h fuel (eventRun ops) := by
  intro hall
  obtain ⟨fuel, hserves⟩ := hall [.call .addDefer, .call .addDefer, .prepare] droppingNext
  have hdone := hserves.done
  rcases fuel with _ | _ | fuel
  · exact absurd hdone (by decide)
  · exact absurd hdone (by decide)
  · have hundefined : (sdEventDispatch droppingNext (fuel + 2)
        (eventRun [.call .addDefer, .call .addDefer, .prepare])).2 = .undefined := by rfl
    exact absurd (hundefined.symm.trans hdone) (by decide)

end list

end Basu.Event
