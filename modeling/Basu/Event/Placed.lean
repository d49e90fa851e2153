import Basu.Event.Dispatch

/-! What each call does to the sources and the lists, and what holds of them in every state of every
run: a source is in one list at most, and only the list of the IO sources holds strangers. -/

namespace Basu.Event
open Function

section insert
variable {p : Nat → Int}

theorem perm_insertSorted (p : Nat → Int) (i : Nat) (l : List Nat) :
    (insertSorted p i l).Perm (i :: l) := by
  induction l with
  | nil => exact .refl _
  | cons j l ih =>
    rw [insertSorted]
    split
    · exact .refl _
    · exact (ih.cons j).trans (.swap i j l)

theorem perm_deferInsertSorted (p : Nat → Int) (i : Nat) (l : List Nat) :
    (deferInsertSorted p i l).Perm (i :: l) := by
  induction l with
  | nil => exact .refl _
  | cons j l ih =>
    have hrec : (j :: deferInsertSorted p i l).Perm (i :: j :: l) :=
      (ih.cons j).trans (.swap i j l)
    rw [deferInsertSorted]
    split
    · split
      · exact hrec
      · exact .refl _
    · exact hrec

theorem sorted_cons_of_perm {i j : Nat} {l l' : List Nat}
    (hl : (j :: l).Pairwise fun a b => p a ≤ p b) (hperm : l'.Perm (i :: l)) (hj : p j ≤ p i)
    (hl' : l'.Pairwise fun a b => p a ≤ p b) : (j :: l').Pairwise fun a b => p a ≤ p b := by
  refine List.pairwise_cons.mpr ⟨fun a ha => ?_, hl'⟩
  rcases List.mem_cons.mp (hperm.mem_iff.mp ha) with rfl | ha
  · exact hj
  · exact (List.pairwise_cons.mp hl).1 a ha

theorem sorted_cons_cons {i j : Nat} {l : List Nat} (hl : (j :: l).Pairwise fun a b => p a ≤ p b)
    (hj : p i ≤ p j) : (i :: j :: l).Pairwise fun a b => p a ≤ p b := by
  refine List.pairwise_cons.mpr ⟨fun a ha => ?_, hl⟩
  rcases List.mem_cons.mp ha with rfl | ha
  · exact hj
  · exact hj.trans ((List.pairwise_cons.mp hl).1 a ha)

theorem sorted_insertSorted (i : Nat) : ∀ {l : List Nat}, l.Pairwise (fun a b => p a ≤ p b) →
    (insertSorted p i l).Pairwise fun a b => p a ≤ p b
  | [], _ => List.pairwise_singleton _ _
  | j :: l, hl => by
    rw [insertSorted]
    split
    · next hj => exact sorted_cons_cons hl hj
    · next hj =>
      have ih := sorted_insertSorted i (List.pairwise_cons.mp hl).2
      exact sorted_cons_of_perm hl (perm_insertSorted p i l) (not_le.mp hj).le ih

theorem sorted_deferInsertSorted (i : Nat) : ∀ {l : List Nat}, l.Pairwise (fun a b => p a ≤ p b) →
    (deferInsertSorted p i l).Pairwise fun a b => p a ≤ p b
  | [], _ => List.pairwise_singleton _ _
  | j :: l, hl => by
    have ih := sorted_deferInsertSorted i (List.pairwise_cons.mp hl).2
    have hperm := perm_deferInsertSorted p i l
    rw [deferInsertSorted]
    split
    · next hj =>
      split
      · next heq => exact sorted_cons_of_perm hl hperm heq.ge ih
      · exact sorted_cons_cons hl hj
    · next hj => exact sorted_cons_of_perm hl hperm (not_le.mp hj).le ih

end insert

def Loop.Sorted (e : Loop) (l : List Nat) : Prop :=
  l.Pairwise fun i j => (e.source i).priority ≤ (e.source j).priority

theorem Loop.Sorted.congr {e e' : Loop} {l : List Nat} (h : e.Sorted l)
    (hp : ∀ j ∈ l, (e'.source j).priority = (e.source j).priority) : e'.Sorted l := by
  refine List.Pairwise.imp_of_mem (fun {a b} ha hb hab => ?_) h
  rw [hp a ha, hp b hb]
  exact hab

section
variable {e e' : Loop} {i : Nat}

theorem modify_source (f : Source → Source) (j : Nat) :
    (e.modify i f).source j = if j = i then f (e.source i) else e.source j := by
  simp only [Loop.modify, Loop.setSource, update_apply]

theorem setList_list (k : SourceList) (l : List Nat) (k' : SourceList) :
    (e.setList k l).list k' = if k' = k then l else e.list k' := by
  simp only [Loop.setList, update_apply]

theorem isLinked_iff : e.isLinked i = true ↔ ∃ k, i ∈ e.list k := by
  unfold Loop.isLinked
  rw [List.any_eq_true]
  constructor
  · rintro ⟨k, -, hk⟩
    exact ⟨k, by simpa using hk⟩
  · rintro ⟨k, hk⟩
    refine ⟨k, ?_, by simpa using hk⟩
    cases k <;> decide

structure Added (e e' : Loop) (s : Source) (K : Option SourceList) : Prop where
  nSources : e'.nSources = e.nSources + 1
  source : ∀ j, e'.source j = if j = e.nSources then s else e.source j
  perm : ∀ k, K = some k → (e'.list k).Perm (e.nSources :: e.list k)
  other : ∀ k, K ≠ some k → e'.list k = e.list k
  sorted : ∀ k, K = some k → k = .sources ∨ k = .deferSources → e'.Sorted (e.list k) →
    e'.Sorted (e'.list k)
  rest : e'.now = e.now ∧ e'.exitRequested = e.exitRequested ∧ e'.state = e.state

theorem Added.modify {s : Source} {K : Option SourceList} (h : Added e e' s K)
    (f : Source → Source) (hf : (f s).priority = s.priority) :
    Added e (e'.modify e.nSources f) (f s) K := by
  have hsource : ∀ j, (e'.modify e.nSources f).source j =
      if j = e.nSources then f s else e.source j := by
    intro j
    rw [modify_source, h.source, h.source, if_pos rfl]
    split <;> rfl
  have hpri : ∀ j, ((e'.modify e.nSources f).source j).priority = (e'.source j).priority := by
    intro j
    rw [hsource, h.source]
    split
    · exact hf
    · rfl
  refine ⟨h.nSources, hsource, h.perm, h.other, fun k hK hk hs => ?_, h.rest⟩
  have hs' := h.sorted k hK hk (hs.congr fun j _ => (hpri j).symm)
  exact hs'.congr fun j _ => hpri j

theorem Added.put {s : Source} (h : Added e e' s none) {k : SourceList} {l : List Nat}
    (hl : l.Perm (e.nSources :: e.list k))
    (hs : k = .sources ∨ k = .deferSources → e'.Sorted (e.list k) → e'.Sorted l) :
    Added e (e'.setList k l) s (some k) := by
  refine ⟨h.nSources, h.source, fun k' hk => ?_, fun k' hk => ?_, fun k' hK hk => ?_, h.rest⟩
  · rw [setList_list, if_pos (Option.some.inj hk).symm, ← Option.some.inj hk]
    exact hl
  · rw [setList_list, if_neg fun heq => hk (congrArg some heq.symm)]
    exact h.other k' (by simp)
  · rw [setList_list, if_pos (Option.some.inj hK).symm, ← Option.some.inj hK]
    exact hs (Option.some.inj hK ▸ hk)

theorem sourceNew_added {t : SourceType} (ht : t ≠ .io) :
    Added e (e.sourceNew t) { type := t } none := by
  unfold Loop.sourceNew
  rw [if_neg ht]
  exact ⟨rfl, fun j => update_apply _ _ _ _, fun k hk => absurd hk (by simp), fun k _ => rfl,
    fun k hk => absurd hk (by simp), rfl, rfl, rfl⟩

theorem sourceNewIo_added : Added e (e.sourceNew .io) { type := .io } (some .sources) := by
  have h : Added e ({ e with nSources := e.nSources + 1 }.setSource e.nSources { type := .io })
      { type := .io } none :=
    ⟨rfl, fun j => update_apply _ _ _ _, fun k hk => absurd hk (by simp), fun k _ => rfl,
      fun k hk => absurd hk (by simp), rfl, rfl, rfl⟩
  unfold Loop.sourceNew
  rw [if_pos rfl]
  exact h.put (perm_insertSorted _ _ _) fun _ hs => sorted_insertSorted _ hs

def newIo (events : UInt32) (r : AddResult) : Source :=
  { type := .io, events := events, live := r.fileOk, userMask := if r.fileOk then r.initialMask else 0 }

theorem addIo_added (events : UInt32) (r : AddResult) :
    Added e (sdEventAddIo e events r) (newIo events r) (some .sources) := by
  have h := (sourceNewIo_added (e := e)).modify (fun s => { s with events := events }) rfl
  unfold sdEventAddIo newIo
  dsimp only
  cases r.fileOk with
  | false => exact h.modify (fun s => { s with live := false }) rfl
  | true => exact h.modify (fun s => { s with userMask := r.initialMask }) rfl

def newTime (now usec : UInt64) (r : AddResult) : Source :=
  if !r.pipeOk then { type := .time, live := false }
  else
    { type := .time, live := r.fileOk, usec := now + usec, owed := true
      work := some (now.toNat + usec.toNat)
      userMask := if r.fileOk then r.initialMask ||| epollin else 0 }

def newTimeList (r : AddResult) : Option SourceList :=
  if r.pipeOk && r.fileOk then some .timerSources else none

theorem addTime_added (usec : UInt64) (r : AddResult) :
    Added e (sdEventAddTime e usec r) (newTime e.now usec r) (newTimeList r) := by
  have h := sourceNew_added (e := e) (t := .time) (by decide)
  have hnow : (e.sourceNew .time).now = e.now := h.rest.1
  have hlist : (e.sourceNew .time).list .timerSources = e.list .timerSources :=
    h.other _ (by simp)
  unfold sdEventAddTime newTime newTimeList
  dsimp only
  cases r.pipeOk with
  | false => exact h.modify (fun s => { s with live := false }) rfl
  | true =>
    have htimed := h.modify (fun s =>
      { s with usec := e.now + usec, owed := true, work := some (e.now.toNat + usec.toNat) }) rfl
    rw [hnow]
    cases r.fileOk with
    | false => exact htimed.modify (fun s => { s with live := false }) rfl
    | true =>
      have hselected := htimed.modify
        (fun s => { s with userMask := r.initialMask ||| epollin }) rfl
      refine hselected.put ?_ fun hk => absurd hk (by decide)
      show ((e.sourceNew .time).list .timerSources ++ [e.nSources]).Perm _
      rw [hlist]
      exact List.perm_append_singleton _ _

theorem addDefer_added :
    Added e (sdEventAddDefer e) { type := .defer, enabled := .oneshot } (some .deferSources) := by
  have h := (sourceNew_added (e := e) (t := .defer) (by decide)).modify
    (fun s => { s with enabled := .oneshot }) rfl
  have hlist := h.other .deferSources (by simp)
  refine h.put ?_ fun _ hs => ?_
  · rw [hlist]
    exact perm_deferInsertSorted _ _ _
  · rw [hlist]
    exact sorted_deferInsertSorted _ hs

theorem addPost_added : Added e (sdEventAddPost e) { type := .post } none :=
  sourceNew_added (by decide)

theorem addExit_added : Added e (sdEventAddExit e) { type := .exit } (some .exitSources) := by
  have h := sourceNew_added (e := e) (t := .exit) (by decide)
  refine h.put ?_ fun hk => absurd hk (by decide)
  rw [h.other .exitSources (by simp)]
  exact List.perm_append_singleton _ _

/-! ## Moving and dropping sources -/

theorem Source.setEnabled_kept (s : Source) (enabled : Enabled) :
    (s.setEnabled enabled).live = s.live ∧ (s.setEnabled enabled).type = s.type ∧
      (s.setEnabled enabled).priority = s.priority ∧
      (s.setEnabled enabled).pending = s.pending := by
  unfold Source.setEnabled
  dsimp only
  split_ifs <;> exact ⟨rfl, rfl, rfl, rfl⟩

theorem Source.setTime_kept (s : Source) (now usec : UInt64) :
    (s.setTime now usec).live = s.live ∧ (s.setTime now usec).type = s.type ∧
      (s.setTime now usec).priority = s.priority ∧ (s.setTime now usec).pending = false := by
  unfold Source.setTime
  dsimp only
  split_ifs <;> exact ⟨rfl, rfl, rfl, rfl⟩

theorem Source.timerWork_kept (s : Source) : s.timerWork.live = s.live ∧
    s.timerWork.type = s.type ∧ s.timerWork.priority = s.priority := by
  unfold Source.timerWork
  dsimp only
  split_ifs <;> exact ⟨rfl, rfl, rfl⟩

theorem setPriority_source (priority : Int) (j : Nat) :
    (sdEventSourceSetPriority e i priority).source j =
      if j = i then { e.source i with priority := priority } else e.source j := by
  have hmodify : ∀ j, ((e.unlink i).modify i fun s => { s with priority := priority }).source j =
      if j = i then { e.source i with priority := priority } else e.source j :=
    fun j => modify_source (e := e.unlink i) _ j
  unfold sdEventSourceSetPriority
  split
  · dsimp only
    split <;> exact hmodify j
  · exact modify_source _ j

theorem setPriority_nSources (priority : Int) :
    (sdEventSourceSetPriority e i priority).nSources = e.nSources := by
  unfold sdEventSourceSetPriority
  dsimp only
  split_ifs <;> rfl

def SourceType.target (t : SourceType) : SourceList := if t = .defer then .deferSources else .sources

theorem setPriority_list (hi : e.isLinked i = true) (priority : Int) (k : SourceList) :
    (sdEventSourceSetPriority e i priority).list k =
      if k = (e.source i).type.target then
        (if k = .deferSources then deferInsertSorted else insertSorted)
          (fun j => ((sdEventSourceSetPriority e i priority).source j).priority) i
          ((e.list k).erase i)
      else (e.list k).erase i := by
  have htype : (((e.unlink i).modify i fun s => { s with priority := priority }).source i).type =
      (e.source i).type := by
    rw [modify_source, if_pos rfl]
    rfl
  unfold sdEventSourceSetPriority SourceType.target
  dsimp only
  rw [if_pos hi, htype]
  split
  · rw [Loop.deferSourceInsertSorted, setList_list]
    split
    · next hk =>
      rw [hk]
      rfl
    · rfl
  · rw [Loop.sourceInsertSorted, setList_list]
    split
    · next hk =>
      rw [if_neg (by rw [hk]; decide), hk]
      rfl
    · rfl

theorem perm_setPriority_list (hi : e.isLinked i = true) (priority : Int) :
    ((sdEventSourceSetPriority e i priority).list (e.source i).type.target).Perm
      (i :: (e.list (e.source i).type.target).erase i) := by
  rw [setPriority_list hi, if_pos rfl]
  split
  · exact perm_deferInsertSorted _ _ _
  · exact perm_insertSorted _ _ _

theorem setPriority_list_of_not (hi : ¬ e.isLinked i = true) (priority : Int) :
    (sdEventSourceSetPriority e i priority).list = e.list := by
  unfold sdEventSourceSetPriority
  rw [if_neg hi]
  rfl

def SourceType.list : SourceType → Option SourceList
  | .io => some .sources
  | .time => some .timerSources
  | .signal => some .signalSources
  | .defer => some .deferSources
  | .exit => some .exitSources
  | .child => none
  | .post => none

/-- What holds of the lists whatever is called: a source is in one of them at most, and any but that
of the IO sources holds live sources of its type. -/
structure Placed (e : Loop) : Prop where
  bound : ∀ i, (e.source i).live = true → i < e.nSources
  listed : ∀ k, ∀ i ∈ e.list k, i < e.nSources
  nodup : ∀ k, (e.list k).Nodup
  apart : ∀ k k' i, i ∈ e.list k → i ∈ e.list k' → k = k'
  own : ∀ k, k ≠ .sources → ∀ i ∈ e.list k,
    (e.source i).live = true ∧ (e.source i).type.list = some k
  strange : ∀ i ∈ e.list .sources, (e.source i).type ≠ .defer

theorem Placed.congr (h : Placed e) (hlist : e'.list = e.list)
    (hsource : ∀ j, (e'.source j).live = (e.source j).live ∧
      (e'.source j).type = (e.source j).type) (hn : e'.nSources = e.nSources) : Placed e' := by
  refine ⟨fun j hj => ?_, fun k j hj => ?_, fun k => ?_, fun k k' j hj hj' => ?_,
    fun k hk j hj => ?_, fun j hj => ?_⟩
  · rw [hn]
    exact h.bound j ((hsource j).1 ▸ hj)
  · rw [hn]
    exact h.listed k j (hlist ▸ hj)
  · rw [hlist]
    exact h.nodup k
  · rw [hlist] at hj hj'
    exact h.apart k k' j hj hj'
  · rw [(hsource j).1, (hsource j).2]
    exact h.own k hk j (hlist ▸ hj)
  · rw [(hsource j).2]
    exact h.strange j (hlist ▸ hj)

theorem Placed.modify (h : Placed e) {f : Source → Source}
    (hf : (f (e.source i)).live = (e.source i).live ∧ (f (e.source i)).type = (e.source i).type) :
    Placed (e.modify i f) := by
  refine h.congr rfl (fun j => ?_) rfl
  rw [modify_source]
  split
  · next hj => rw [hj]; exact hf
  · exact ⟨rfl, rfl⟩

theorem Placed.add (h : Placed e) {s : Source} {K : Option SourceList} (ha : Added e e' s K)
    (hown : ∀ k, K = some k → k ≠ .sources → s.live = true ∧ s.type.list = some k)
    (hstrange : K = some .sources → s.type ≠ .defer) : Placed e' := by
  have hold : ∀ k, ∀ j ∈ e.list k, e'.source j = e.source j := by
    intro k j hj
    rw [ha.source, if_neg (h.listed k j hj).ne]
  have hmem : ∀ {k j}, j ∈ e'.list k → j ∈ e.list k ∨ j = e.nSources ∧ K = some k := by
    intro k j hj
    by_cases hk : K = some k
    · rcases List.mem_cons.mp ((ha.perm k hk).mem_iff.mp hj) with hj | hj
      · exact .inr ⟨hj, hk⟩
      · exact .inl hj
    · rw [ha.other k hk] at hj
      exact .inl hj
  have hnew : e'.source e.nSources = s := by rw [ha.source, if_pos rfl]
  refine ⟨fun j hj => ?_, fun k j hj => ?_, fun k => ?_, fun k k' j hj hj' => ?_,
    fun k hk j hj => ?_, fun j hj => ?_⟩
  · rw [ha.nSources]
    rw [ha.source] at hj
    split at hj
    · next heq => exact heq ▸ Nat.lt_succ_self _
    · exact (h.bound j hj).trans (Nat.lt_succ_self _)
  · rw [ha.nSources]
    rcases hmem hj with hj | ⟨rfl, -⟩
    · exact (h.listed k j hj).trans (Nat.lt_succ_self _)
    · exact Nat.lt_succ_self _
  · by_cases hk : K = some k
    · rw [(ha.perm k hk).nodup_iff]
      exact List.nodup_cons.mpr ⟨fun hin => lt_irrefl _ (h.listed k _ hin), h.nodup k⟩
    · rw [ha.other k hk]
      exact h.nodup k
  · rcases hmem hj with hj | ⟨rfl, hk⟩ <;> rcases hmem hj' with hj' | ⟨heq, hk'⟩
    · exact h.apart k k' j hj hj'
    · exact absurd (heq ▸ h.listed k j hj) (lt_irrefl _)
    · exact absurd (h.listed k' _ hj') (lt_irrefl _)
    · exact Option.some.inj (hk.symm.trans hk')
  · rcases hmem hj with hj | ⟨rfl, hK⟩
    · rw [hold k j hj]
      exact h.own k hk j hj
    · rw [hnew]
      exact hown k hK hk
  · rcases hmem hj with hj | ⟨rfl, hK⟩
    · rw [hold _ j hj]
      exact h.strange j hj
    · rw [hnew]
      exact hstrange hK

theorem Placed.mem_erase (h : Placed e) {k : SourceList} {j : Nat} (hj : j ∈ (e.list k).erase i) :
    j ∈ e.list k ∧ j ≠ i := by
  refine ⟨List.mem_of_mem_erase hj, ?_⟩
  rintro rfl
  exact (h.nodup k).not_mem_erase hj

theorem Placed.setPriority (h : Placed e) (hlive : (e.source i).live = true) (priority : Int) :
    Placed (sdEventSourceSetPriority e i priority) := by
  have hkept : ∀ j, ((sdEventSourceSetPriority e i priority).source j).live = (e.source j).live ∧
      ((sdEventSourceSetPriority e i priority).source j).type = (e.source j).type := by
    intro j
    rw [setPriority_source]
    split
    · next hj => rw [hj]; exact ⟨rfl, rfl⟩
    · exact ⟨rfl, rfl⟩
  have hn : (sdEventSourceSetPriority e i priority).nSources = e.nSources := by
    unfold sdEventSourceSetPriority
    dsimp only
    split_ifs <;> rfl
  by_cases hi : e.isLinked i = true
  swap
  · exact h.congr (setPriority_list_of_not hi priority) hkept hn
  have hperm := perm_setPriority_list hi priority
  have hother : ∀ k, k ≠ (e.source i).type.target →
      (sdEventSourceSetPriority e i priority).list k = (e.list k).erase i := by
    intro k hk
    rw [setPriority_list hi, if_neg hk]
  have hmem : ∀ {k j}, j ∈ (sdEventSourceSetPriority e i priority).list k →
      (j ∈ e.list k ∧ j ≠ i) ∨ j = i ∧ k = (e.source i).type.target := by
    intro k j hj
    by_cases hk : k = (e.source i).type.target
    · rw [hk] at hj ⊢
      rcases List.mem_cons.mp (hperm.mem_iff.mp hj) with hj | hj
      · exact .inr ⟨hj, rfl⟩
      · exact .inl (h.mem_erase hj)
    · rw [hother k hk] at hj
      exact .inl (h.mem_erase hj)
  have hbound := h.bound i hlive
  refine ⟨fun j hj => ?_, fun k j hj => ?_, fun k => ?_, fun k k' j hj hj' => ?_,
    fun k hk j hj => ?_, fun j hj => ?_⟩
  · rw [hn]
    exact h.bound j ((hkept j).1 ▸ hj)
  · rw [hn]
    rcases hmem hj with ⟨hj, -⟩ | ⟨rfl, -⟩
    · exact h.listed k j hj
    · exact hbound
  · by_cases hk : k = (e.source i).type.target
    · rw [hk, hperm.nodup_iff]
      exact List.nodup_cons.mpr ⟨(h.nodup _).not_mem_erase, (h.nodup _).erase i⟩
    · rw [hother k hk]
      exact (h.nodup k).erase i
  · rcases hmem hj with ⟨hj, hne⟩ | ⟨rfl, hk⟩ <;> rcases hmem hj' with ⟨hj', hne'⟩ | ⟨heq, hk'⟩
    · exact h.apart k k' j hj hj'
    · exact absurd heq hne
    · exact absurd rfl hne'
    · exact hk.trans hk'.symm
  · rw [(hkept j).1, (hkept j).2]
    rcases hmem hj with ⟨hj, -⟩ | ⟨rfl, htarget⟩
    · exact h.own k hk j hj
    · rw [SourceType.target] at htarget
      split at htarget
      · next hd =>
        rw [htarget, hd]
        exact ⟨hlive, rfl⟩
      · exact absurd htarget hk
  · rw [(hkept j).2]
    rcases hmem hj with ⟨hj, -⟩ | ⟨rfl, htarget⟩
    · exact h.strange j hj
    · rw [SourceType.target] at htarget
      split at htarget
      · exact absurd htarget (by decide)
      · assumption

theorem Placed.drop (h : Placed e) {f : Source → Source} (hf : ∀ s, (f s).live = false) :
    Placed ((e.unlink i).modify i f) := by
  have hsource : ∀ j, ((e.unlink i).modify i f).source j =
      if j = i then f (e.source i) else e.source j := fun j => modify_source (e := e.unlink i) f j
  have hmem : ∀ {k j}, j ∈ ((e.unlink i).modify i f).list k → j ∈ e.list k ∧ j ≠ i :=
    fun hj => h.mem_erase hj
  refine ⟨fun j hj => ?_, fun k j hj => h.listed k j (hmem hj).1, fun k => (h.nodup k).erase i,
    fun k k' j hj hj' => h.apart k k' j (hmem hj).1 (hmem hj').1, fun k hk j hj => ?_,
    fun j hj => ?_⟩
  · rw [hsource] at hj
    split at hj
    · exact absurd ((hf _).symm.trans hj) (by decide)
    · exact h.bound j hj
  · rw [hsource, if_neg (hmem hj).2]
    exact h.own k hk j (hmem hj).1
  · rw [hsource, if_neg (hmem hj).2]
    exact h.strange j (hmem hj).1

theorem Placed.ref (h : Placed e) : Placed (sdEventSourceRef e i) :=
  h.modify (f := fun s => { s with refCount := s.refCount + 1 }) ⟨rfl, rfl⟩

theorem Placed.unref (h : Placed e) : Placed (sdEventSourceUnref e i) := by
  unfold sdEventSourceUnref
  split
  · exact h.drop fun _ => rfl
  · exact h.modify (f := fun s => { s with refCount := s.refCount - 1 }) ⟨rfl, rfl⟩

theorem Placed.exec (h : Placed e) (op : EventOp) : Placed (op.exec e) := by
  unfold EventOp.exec
  split
  swap
  · exact h
  next hallowed =>
  cases op with
  | addIo events r =>
    exact h.add (addIo_added events r) (fun k hk hne => absurd (Option.some.inj hk).symm hne)
      fun _ => by unfold newIo; exact SourceType.noConfusion
  | addTime usec r =>
    refine h.add (addTime_added usec r) (fun k hk _ => ?_) fun hk => ?_
    · unfold newTimeList at hk
      unfold newTime
      split at hk
      · next hok =>
        obtain ⟨hpipe, hfile⟩ := Bool.and_eq_true_iff.mp hok
        rw [← Option.some.inj hk, hpipe, hfile]
        exact ⟨rfl, rfl⟩
      · exact absurd hk (by simp)
    · unfold newTime
      split <;> exact SourceType.noConfusion
  | addDefer =>
    exact h.add addDefer_added (fun k hk _ => ⟨rfl, hk⟩) fun hk => absurd hk (by decide)
  | addPost =>
    exact h.add addPost_added (fun k hk _ => absurd hk (by simp)) fun hk => absurd hk (by decide)
  | addExit =>
    exact h.add addExit_added (fun k hk _ => ⟨rfl, hk⟩) fun hk => absurd hk (by decide)
  | setPriority i priority => exact h.setPriority hallowed priority
  | setEnabled i enabled =>
    have hkept := (e.source i).setEnabled_kept enabled
    exact h.modify (f := fun s => s.setEnabled enabled) ⟨hkept.1, hkept.2.1⟩
  | setTime i usec =>
    show Placed (sdEventSourceSetTime e i usec)
    unfold sdEventSourceSetTime
    split
    · exact h
    · have hkept := (e.source i).setTime_kept e.now usec
      exact h.modify ⟨hkept.1, hkept.2.1⟩
  | ref i => exact h.ref
  | unref i => exact h.unref
  | exit code => exact h.congr rfl (fun _ => ⟨rfl, rfl⟩) rfl

/-! ## What calls leave alone -/

structure Kept (s s' : Source) : Prop where
  type : s'.type = s.type
  live : s'.live = true → s.live = true
  pending : s'.pending = true → s.pending = true

theorem Kept.refl (s : Source) : Kept s s := ⟨rfl, id, id⟩

theorem Kept.trans {s₁ s₂ s₃ : Source} (h : Kept s₁ s₂) (h' : Kept s₂ s₃) : Kept s₁ s₃ :=
  ⟨h'.type.trans h.type, fun hl => h.live (h'.live hl), fun hp => h.pending (h'.pending hp)⟩

theorem modify_kept {f : Source → Source} (hf : Kept (e.source i) (f (e.source i))) (j : Nat) :
    Kept (e.source j) ((e.modify i f).source j) := by
  rw [modify_source]
  split
  · next hj => rw [hj]; exact hf
  · exact .refl _

theorem run_kept (op : EventOp) (i : Nat) : Kept (e.source i) ((op.run e).source i) ∨
    i = e.nSources ∧ ((op.run e).source i).pending = false := by
  have hadded : ∀ {e' s K}, Added e e' s K → s.pending = false →
      Kept (e.source i) (e'.source i) ∨ i = e.nSources ∧ (e'.source i).pending = false := by
    intro e' s K ha hs
    rw [ha.source]
    split
    · next hi => exact .inr ⟨hi, hs⟩
    · exact .inl (.refl _)
  cases op with
  | addIo events r => exact hadded (addIo_added events r) rfl
  | addTime usec r =>
    refine hadded (addTime_added usec r) ?_
    unfold newTime
    split <;> rfl
  | addDefer => exact hadded addDefer_added rfl
  | addPost => exact hadded addPost_added rfl
  | addExit => exact hadded addExit_added rfl
  | setPriority j priority =>
    refine .inl ?_
    show Kept _ ((sdEventSourceSetPriority e j priority).source i)
    rw [setPriority_source]
    split
    · next hi => rw [hi]; exact ⟨rfl, id, id⟩
    · exact .refl _
  | setEnabled j enabled =>
    refine .inl ?_
    have hkept := (e.source j).setEnabled_kept enabled
    refine modify_kept (f := fun s => s.setEnabled enabled) ⟨hkept.2.1, ?_, ?_⟩ i
    · exact fun h => hkept.1 ▸ h
    · exact fun h => hkept.2.2.2 ▸ h
  | setTime j usec =>
    refine .inl ?_
    show Kept _ ((sdEventSourceSetTime e j usec).source i)
    unfold sdEventSourceSetTime
    split
    · exact .refl _
    · have hkept := (e.source j).setTime_kept e.now usec
      refine modify_kept ⟨hkept.2.1, fun h => hkept.1 ▸ h, fun h => ?_⟩ i
      exact absurd (hkept.2.2.2.symm.trans h) Bool.false_ne_true
  | ref j =>
    exact .inl (modify_kept (f := fun s => { s with refCount := s.refCount + 1 }) ⟨rfl, id, id⟩ i)
  | unref j =>
    refine .inl ?_
    show Kept _ ((sdEventSourceUnref e j).source i)
    unfold sdEventSourceUnref
    split
    · exact modify_kept (e := e.unlink j) ⟨rfl, fun h => absurd h Bool.false_ne_true, id⟩ i
    · exact modify_kept (f := fun s => { s with refCount := s.refCount - 1 }) ⟨rfl, id, id⟩ i
  | exit code => exact .inl (.refl _)

theorem exec_kept (op : EventOp) (hi : i < e.nSources) :
    Kept (e.source i) ((op.exec e).source i) := by
  unfold EventOp.exec
  split
  · rcases run_kept (e := e) op i with h | ⟨heq, -⟩
    · exact h
    · exact absurd (heq ▸ hi) (lt_irrefl _)
  · exact .refl _

theorem exec_pending (op : EventOp) (hi : (e.source i).pending = false) :
    ((op.exec e).source i).pending = false := by
  unfold EventOp.exec
  split
  · rcases run_kept op i with h | ⟨-, h⟩
    · rw [Bool.eq_false_iff]
      exact fun hp => absurd (h.pending hp) (by rw [hi]; decide)
    · exact h
  · exact hi

theorem exec_nSources (op : EventOp) : e.nSources ≤ (op.exec e).nSources := by
  have hadded : ∀ {e' s K}, Added e e' s K → e.nSources ≤ e'.nSources := by
    intro e' s K ha
    rw [ha.nSources]
    exact Nat.le_succ _
  unfold EventOp.exec
  split
  swap
  · exact le_rfl
  cases op with
  | addIo events r => exact hadded (addIo_added events r)
  | addTime usec r => exact hadded (addTime_added usec r)
  | addDefer => exact hadded addDefer_added
  | addPost => exact hadded addPost_added
  | addExit => exact hadded addExit_added
  | setPriority j priority => exact (setPriority_nSources priority).ge
  | setTime j usec =>
    show e.nSources ≤ (sdEventSourceSetTime e j usec).nSources
    unfold sdEventSourceSetTime
    split <;> exact Nat.le_refl _
  | unref j =>
    show e.nSources ≤ (sdEventSourceUnref e j).nSources
    unfold sdEventSourceUnref
    split <;> exact Nat.le_refl _
  | _ => exact le_rfl

theorem foldl_kept (ops : List EventOp) : ∀ (r : Running), i < r.loop.nSources →
    i < (ops.foldl Running.exec r).loop.nSources ∧
      Kept (r.loop.source i) ((ops.foldl Running.exec r).loop.source i) := by
  induction ops with
  | nil => exact fun r hi => ⟨hi, .refl _⟩
  | cons op ops ih =>
    intro r hi
    obtain ⟨hn, hk⟩ := ih (r.exec op) (hi.trans_le (exec_nSources op))
    exact ⟨hn, (exec_kept op hi).trans hk⟩

theorem call_kept (h : Handlers) (c : Ran) {r : Running} (hi : i < r.loop.nSources) :
    i < (r.call h c).loop.nSources ∧ Kept (r.loop.source i) ((r.call h c).loop.source i) :=
  foldl_kept (h.act r.log c) { r with log := r.log ++ [(r.loop, c)] } hi

end

/-! ## What the loop does to a source -/

inductive Inner : SourceType → (Source → Source) → Prop
  | unpend (t) : Inner t Source.unpend
  | shot {t} (ht : t ≠ .io) : Inner t Source.shot
  | notify : Inner .time Source.notify
  | processTimer : Inner .time Source.processTimer
  | processDeferred : Inner .defer Source.processDeferred

theorem Inner.keeps {t : SourceType} {f : Source → Source} (hf : Inner t f) (s : Source) :
    (f s).live = s.live ∧ (f s).type = s.type ∧ (f s).priority = s.priority := by
  cases hf with
  | unpend => exact ⟨rfl, rfl, rfl⟩
  | shot => exact ⟨rfl, rfl, rfl⟩
  | notify => exact ⟨rfl, rfl, rfl⟩
  | processTimer =>
    unfold Source.processTimer
    dsimp only
    split_ifs <;> exact ⟨rfl, rfl, rfl⟩
  | processDeferred =>
    unfold Source.processDeferred
    split_ifs <;> exact ⟨rfl, rfl, rfl⟩

theorem Inner.placed {t : SourceType} {f : Source → Source} (hf : Inner t f) {e : Loop} {i : Nat}
    (h : Placed e) : Placed (e.modify i f) := h.modify ⟨(hf.keeps _).1, (hf.keeps _).2.1⟩

/-- A property that calls, the loop's own changes and the handlers of some types keep. -/
structure Stable (T : SourceType → Prop) (I : Running → Prop) : Prop where
  exec : ∀ r op, Placed r.loop → I r → I (r.exec op)
  inner : ∀ r i f, Inner (r.loop.source i).type f → Placed r.loop → I r → I (r.modify i f)
  log : ∀ (r : Running) c, T c.type → I r → I { r with log := r.log ++ [(r.loop, c)] }

/-- A property that whatever happens to the loop keeps. -/
structure Lasting (I : Running → Prop) : Prop extends Stable (fun _ => True) I where
  state : ∀ (r : Running) prepared state, I r →
    I { r with loop := { r.loop with prepared := prepared, state := state } }
  tick : ∀ (r : Running) t, I r → I (r.update fun e => e.tick t)
  expire : ∀ (r : Running) i, I r → I (r.update fun e => e.expire i)

section stable
variable {T : SourceType → Prop} {I : Running → Prop} {r : Running} {h : Handlers}

def Running.Has (r : Running) (I : Running → Prop) : Prop := Placed r.loop ∧ I r

theorem Stable.modify (hI : Stable T I) {i : Nat} {f : Source → Source}
    (hf : Inner (r.loop.source i).type f) (hr : r.Has I) : (r.modify i f).Has I :=
  ⟨hf.placed hr.1, hI.inner r i f hf hr.1 hr.2⟩

theorem Stable.call (hI : Stable T I) (h : Handlers) {c : Ran} (hc : T c.type) (hr : r.Has I) :
    (r.call h c).Has I := by
  unfold Running.call
  have hops : ∀ (ops : List EventOp) (r' : Running), r'.Has I →
      (ops.foldl Running.exec r').Has I := by
    intro ops
    induction ops with
    | nil => exact fun r' hr => hr
    | cons op ops ih => exact fun r' hr => ih _ ⟨hr.1.exec op, hI.exec r' op hr.1 hr.2⟩
  exact hops _ _ ⟨hr.1, hI.log r c hc hr.2⟩

theorem Stable.callOn (hI : Stable T I) {t : SourceType} (hT : T t) (ht : t ≠ .io) {i : Nat}
    (hlive : (r.loop.source i).live = true) (hr : r.Has I) : (r.callOn h t i).1.Has I := by
  unfold Running.callOn
  split
  · next htype =>
    have hc := hI.call h (c := ⟨t, i⟩) hT hr
    have hkept := (call_kept h ⟨t, i⟩ (hr.1.bound i hlive)).2
    dsimp only
    split
    · refine hI.modify (.shot ?_) hc
      rw [hkept.type, htype]
      exact ht
    · exact hc
  · exact hr

theorem Stable.visit (hI : Stable T I) {t : SourceType} (hT : T t) (ht : t ≠ .io) {i : Nat}
    (hlive : (r.loop.source i).live = true) (hr : r.Has I) : (visit h t i r).1.Has I := by
  unfold Event.visit
  split
  · refine hI.callOn hT ht ?_ (hI.modify (.unpend _) hr)
    have hmodify := modify_source (e := r.loop) (i := i) Source.unpend i
    rw [if_pos rfl] at hmodify
    exact (congrArg Source.live hmodify).trans hlive
  · exact hr

theorem Stable.visitExit (hI : Stable T I) (hT : T .exit) {i : Nat} (hlive : (r.loop.source i).live = true)
    (hr : r.Has I) : (visitExit h i r).1.Has I := by
  unfold Event.visitExit
  split
  · exact hI.callOn hT (by decide) hlive hr
  · exact hr

theorem Stable.forEachSafe {v : Nat → Running → Running × Outcome}
    (hv : ∀ i r, (r.loop.source i).live = true → Running.Has r I → (v i r).1.Has I)
    (k : SourceList) (fuel : Nat) : ∀ (iter safe : Link) {r : Running}, r.Has I →
      (forEachSafe v k fuel iter safe r).1.Has I := by
  induction fuel with
  | zero => exact fun _ _ _ hr => hr
  | succ fuel ih =>
    intro iter safe r hr
    cases iter with
    | head k' => exact hr
    | entry i =>
      rw [Event.forEachSafe]
      split
      · exact hr
      · next hlive =>
        have hv' := hv i r (by simpa using hlive) hr
        dsimp only
        split
        · exact ih _ _ hv'
        · exact hv'

theorem Stable.dispatchFiles (hI : Stable T I) (hT : T .io) (h : Handlers) (l : List Nat) :
    ∀ {r : Running}, r.Has I → (dispatchFiles h l r).Has I := by
  induction l with
  | nil => exact fun hr => hr
  | cons i l ih =>
    intro r hr
    unfold Event.dispatchFiles
    dsimp only
    split
    · exact ih hr
    · split
      · exact ih (hI.call h hT hr)
      · split
        · next htime => exact ih (hI.modify (htime ▸ .notify) hr)
        · exact ih hr

theorem Stable.forList (hI : Stable T I) {t : SourceType} (hT : T t) (ht : t ≠ .io)
    (k : SourceList) (fuel : Nat) (hr : r.Has I) :
    (forList (Event.visit h t) k fuel r).1.Has I :=
  Stable.forEachSafe (fun _ _ hl hr => hI.visit hT ht hl hr) k fuel _ _ hr

theorem Lasting.withState (hI : Lasting I) (prepared : Bool) (state : LoopState) (hr : r.Has I) :
    Running.Has { r with loop := { r.loop with prepared := prepared, state := state } } I :=
  ⟨hr.1.congr rfl (fun _ => ⟨rfl, rfl⟩) rfl, hI.state _ _ _ hr.2⟩

theorem Lasting.dispatchRest (hI : Lasting I) (fuel : Nat) (hr : r.Has I) :
    (dispatchRest h fuel r).1.Has I := by
  unfold Event.dispatchRest
  split
  · exact hr
  · have htimers := hI.forList (h := h) (t := .time) trivial (by decide) .timerSources fuel hr
    dsimp only
    split
    · exact hI.withState _ _ (hI.dispatchFiles trivial h _ htimers)
    · exact htimers

theorem Lasting.dispatch (hI : Lasting I) (fuel : Nat) (hr : r.Has I) :
    (sdEventDispatch h fuel r).1.Has I := by
  have hdeferred := hI.forList (h := h) (t := .defer) trivial (by decide) .deferSources fuel hr
  unfold sdEventDispatch
  dsimp only
  split
  · exact hI.dispatchRest fuel hdeferred
  · exact hdeferred

theorem Stable.forEach (hI : Stable T I) {t : SourceType} {f : Source → Source} (hf : Inner t f)
    (l : List Nat) : ∀ {r : Running}, (∀ i ∈ l, (r.loop.source i).type = t) → r.Has I →
      (r.update fun e => l.foldl (fun e i => e.modify i f) e).Has I := by
  induction l with
  | nil => exact fun _ hr => hr
  | cons i l ih =>
    intro r ht hr
    have hi := ht i List.mem_cons_self
    refine ih (r := r.modify i f) (fun j hj => ?_) (hI.modify (hi ▸ hf) hr)
    show ((r.loop.modify i f).source j).type = t
    rw [modify_source]
    split
    · rw [(hf.keeps _).2.1]
      exact hi
    · exact ht j (List.mem_cons_of_mem _ hj)

theorem Placed.type_of_mem {e : Loop} (h : Placed e) {t : SourceType} {k : SourceList}
    (ht : t.list = some k) (hk : k ≠ .sources) : ∀ i ∈ e.list k, (e.source i).type = t := by
  intro i hi
  have hlist := (h.own k hk i hi).2
  generalize (e.source i).type = t' at hlist
  cases t <;> cases ht <;> cases t' <;> first | rfl | cases hlist

theorem Lasting.prepare (hI : Lasting I) (hr : r.Has I) : (r.update sdEventPrepare).Has I := by
  have h₁ := hI.withState r.loop.prepared .preparing hr
  have h₂ := hI.forEach .processTimer (r.loop.list .timerSources)
    (h₁.1.type_of_mem rfl (by decide)) h₁
  have h₃ := hI.forEach .processDeferred _ (h₂.1.type_of_mem rfl (by decide)) h₂
  exact hI.withState true .armed h₃

theorem Placed.tick {e : Loop} (h : Placed e) (t : UInt64) : Placed (e.tick t) := by
  unfold Loop.tick
  split
  · exact h.congr rfl (fun _ => ⟨rfl, rfl⟩) rfl
  · exact h

theorem Placed.expire {e : Loop} (h : Placed e) (i : Nat) : Placed (e.expire i) := by
  unfold Loop.expire
  split
  · have hkept := (e.source i).timerWork_kept
    exact h.modify ⟨hkept.1, hkept.2.1⟩
  · exact h

theorem Lasting.step (hI : Lasting I) (op : LoopOp) (hr : r.Has I) : (op.exec r).Has I := by
  cases op with
  | call op => exact ⟨hr.1.exec op, hI.exec r op hr.1 hr.2⟩
  | tick t => exact ⟨hr.1.tick t, hI.tick r t hr.2⟩
  | expire i => exact ⟨hr.1.expire i, hI.expire r i hr.2⟩
  | prepare => exact hI.prepare hr
  | waitBegin =>
    show (r.update sdEventWaitBegin).Has I
    unfold Running.update sdEventWaitBegin
    split
    · exact hr
    · exact hI.prepare hr
  | waitEnd ret => exact hI.withState r.loop.prepared _ hr
  | dispatch h fuel => exact hI.dispatch fuel hr
  | exitHandlers h fuel =>
    exact Stable.forEachSafe (fun i _ hl hr => hI.visitExit trivial hl hr) .exitSources fuel _ _ hr

theorem placed_initial : Placed {} where
  bound _ hi := absurd hi Bool.false_ne_true
  listed _ _ hi := absurd hi List.not_mem_nil
  nodup _ := List.nodup_nil
  apart _ _ _ hi := absurd hi List.not_mem_nil
  own _ _ _ hi := absurd hi List.not_mem_nil
  strange _ hi := absurd hi List.not_mem_nil

theorem Lasting.foldl (hI : Lasting I) (ops : List LoopOp) :
    ∀ {r : Running}, r.Has I → (ops.foldl LoopOp.exec r).Has I := by
  induction ops with
  | nil => exact id
  | cons op ops ih => exact fun hr => ih (hI.step op hr)

theorem Lasting.run (hI : Lasting I) (h0 : I {}) (ops : List LoopOp) : (eventRun ops).Has I :=
  hI.foldl ops ⟨placed_initial, h0⟩

theorem lasting_true : Lasting fun _ => True where
  exec _ _ _ _ := trivial
  inner _ _ _ _ _ _ := trivial
  log _ _ _ _ := trivial
  state _ _ _ _ := trivial
  tick _ _ _ := trivial
  expire _ _ _ := trivial

theorem eventRun_placed (ops : List LoopOp) : Placed (eventRun ops).loop :=
  (lasting_true.run trivial ops).1

/-! ## Laws that only calls can break -/

/-- A property of the state that the loop keeps, and the condition under which a call keeps it. -/
structure Lawful (J : Loop → Prop) (P : Loop → EventOp → Prop) : Prop where
  exec : ∀ e op, J e → (P e op ↔ J (op.exec e))
  inner : ∀ e i f, Inner (e.source i).type f → J e → J (e.modify i f)
  state : ∀ (e : Loop) prepared state, J e → J { e with prepared := prepared, state := state }
  tick : ∀ e t, J e → J (e.tick t)
  expire : ∀ e i, J e → J (e.expire i)

def Running.Calls (r : Running) (P : Loop → EventOp → Prop) : Prop := ∀ c ∈ r.calls, P c.1 c.2

def Running.Always (r : Running) (J : Loop → Prop) : Prop :=
  J r.loop ∧ ∀ c ∈ r.calls, J c.1 ∧ J (c.2.exec c.1)

theorem Lawful.lasting {J : Loop → Prop} {P : Loop → EventOp → Prop} (hJ : Lawful J P) :
    Lasting fun r => r.Calls P → r.Always J where
  exec r op _ hr hP := by
    obtain ⟨hl, hcalls⟩ := hr fun c hc => hP c (List.mem_append_left _ hc)
    have hop := hP (r.loop, op) (List.mem_append_right _ List.mem_cons_self)
    have hl' := (hJ.exec r.loop op hl).mp hop
    refine ⟨hl', fun c hc => ?_⟩
    rcases List.mem_append.mp hc with hc | hc
    · exact hcalls c hc
    · obtain rfl := List.mem_singleton.mp hc
      exact ⟨hl, hl'⟩
  inner r i f hf _ hr hP := ⟨hJ.inner r.loop i f hf (hr hP).1, (hr hP).2⟩
  state r prepared state hr hP := ⟨hJ.state r.loop prepared state (hr hP).1, (hr hP).2⟩
  log _ _ _ hr hP := hr hP
  tick r t hr hP := ⟨hJ.tick r.loop t (hr hP).1, (hr hP).2⟩
  expire r i hr hP := ⟨hJ.expire r.loop i (hr hP).1, (hr hP).2⟩

theorem Lawful.run {J : Loop → Prop} {P : Loop → EventOp → Prop} (hJ : Lawful J P) (h0 : J {})
    (ops : List LoopOp) : (eventRun ops).Calls P ↔ (eventRun ops).Always J := by
  constructor
  · refine (hJ.lasting.run (fun _ => ⟨h0, fun c hc => ?_⟩) ops).2
    exact absurd hc List.not_mem_nil
  · exact fun h c hc => (hJ.exec c.1 c.2 (h.2 c hc).1).mpr (h.2 c hc).2

end stable

end Basu.Event
