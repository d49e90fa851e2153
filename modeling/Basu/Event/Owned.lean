import Basu.Event.Placed

/-! Who holds references to event loops and sources. The last `sd_event_unref` drops one of every
source that is linked, and an `sd_event_add_io` that cannot set up its file frees the source where
it is linked. -/

namespace Basu.Event
open Lib
open Function

structure CountedLoop where
  loop : Loop := {}
  refCount : Nat := 0
  live : Bool := false

def sdEventNew : CountedLoop := { refCount := 1, live := true }

def sdEventRef (c : CountedLoop) : CountedLoop := { c with refCount := c.refCount + 1 }

/-- One turn of the loops in `sd_event_unref`. -/
def dropSource (e : Loop) (i : Nat) : Loop := sdEventSourceUnref (e.unlink i) i

def dropList (e : Loop) (k : SourceList) : Loop := (e.list k).foldl dropSource e

def sdEventUnref (c : CountedLoop) : CountedLoop :=
  if c.refCount = 1 then
    { loop := SourceList.all.foldl dropList c.loop, refCount := 0, live := false }
  else { c with refCount := c.refCount - 1 }

/-- A loop and what the application holds of it: so many references to the loop, and to each of its
sources. -/
structure Owner where
  event : CountedLoop := {}
  held : Nat := 0
  sources : Nat → Nat := fun _ => 0

/-- The calls on a loop and on its sources. `sd_event_add_exit` need not return the source. -/
inductive OwnerOp
  | ref
  | unref
  | addIo (events : UInt32) (r : AddResult)
  | addTime (usec : UInt64) (r : AddResult)
  | addDefer
  | addExit (returned : Bool)
  | sourceRef (i : Nat)
  | sourceUnref (i : Nat)

def OwnerOp.allowed (o : Owner) : OwnerOp → Bool
  | .sourceRef i => 0 < o.sources i
  | .sourceUnref i => 0 < o.sources i
  | _ => 0 < o.held

def Owner.add (o : Owner) (e : Loop) (returned : Bool) : Owner :=
  { o with
    event := { o.event with loop := e }
    sources := update o.sources o.event.loop.nSources
      (if returned && (e.source o.event.loop.nSources).live then 1 else 0) }

def OwnerOp.run (o : Owner) : OwnerOp → Owner
  | .ref => { o with event := sdEventRef o.event, held := o.held + 1 }
  | .unref => { o with event := sdEventUnref o.event, held := o.held - 1 }
  | .addIo events r => o.add (sdEventAddIo o.event.loop events r) true
  | .addTime usec r => o.add (sdEventAddTime o.event.loop usec r) true
  | .addDefer => o.add (sdEventAddDefer o.event.loop) true
  | .addExit returned => o.add (sdEventAddExit o.event.loop) returned
  | .sourceRef i =>
    { o with
      event := { o.event with loop := sdEventSourceRef o.event.loop i }
      sources := update o.sources i (o.sources i + 1) }
  | .sourceUnref i =>
    { o with
      event := { o.event with loop := sdEventSourceUnref o.event.loop i }
      sources := update o.sources i (o.sources i - 1) }

def OwnerOp.exec (o : Owner) (op : OwnerOp) : Owner := if op.allowed o then op.run o else o

structure Owners where
  owner : Nat → Owner := fun _ => {}
  nOwners : Nat := 0

inductive OwnersOp
  | new
  | call (n : Nat) (op : OwnerOp)

def OwnersOp.exec (w : Owners) : OwnersOp → Owners
  | .new =>
    { owner := update w.owner w.nOwners { event := sdEventNew, held := 1 }, nOwners := w.nOwners + 1 }
  | .call n op => { w with owner := update w.owner n (op.exec (w.owner n)) }

/-- A source that the application holds is there and counts its references; what a loop has linked
has not been freed. -/
structure Owner.Accounted (o : Owner) : Prop where
  counted : ∀ i, 0 < o.sources i →
    (o.event.loop.source i).live = true ∧ (o.event.loop.source i).refCount = o.sources i
  intact : o.event.live = true → ∀ k, ∀ i ∈ o.event.loop.list k,
    (o.event.loop.source i).live = true

def Owners.Accounted (w : Owners) : Prop := ∀ n, (w.owner n).Accounted

/-- The last reference to a loop is dropped only when the application holds none to a source that
is linked, and the file of an IO source can be set up. -/
def OwnerOp.Orderly (o : Owner) : OwnerOp → Prop
  | .unref => o.held = 1 → ∀ k, ∀ i ∈ o.event.loop.list k, o.sources i = 0
  | .addIo _ r => 0 < o.held → r.fileOk = true
  | _ => True

def OwnersOp.Orderly (w : Owners) : OwnersOp → Prop
  | .new => True
  | .call n op => op.Orderly (w.owner n)

structure Owner.Base (o : Owner) : Prop where
  refCount : o.event.refCount = o.held
  live : o.event.live = true ↔ 0 < o.held
  placed : o.event.live = true → Placed o.event.loop
  bound : ∀ i, 0 < o.sources i → i < o.event.loop.nSources

variable {e e' : Loop} {i j : Nat} {o : Owner}

theorem sourceUnref_source (e : Loop) (i j : Nat) :
    ((sdEventSourceUnref e i).source j).refCount =
      if j = i then (e.source i).refCount - 1 else (e.source j).refCount := by
  unfold sdEventSourceUnref
  split
  · next h =>
    rw [modify_source]
    split
    · rw [h]
    · rfl
  · rw [modify_source]
    split <;> rfl

theorem sourceUnref_of_ne (h : j ≠ i) : (sdEventSourceUnref e i).source j = e.source j := by
  unfold sdEventSourceUnref
  split
  · rw [modify_source, if_neg h]
    rfl
  · rw [modify_source, if_neg h]

theorem sourceUnref_nSources : (sdEventSourceUnref e i).nSources = e.nSources := by
  unfold sdEventSourceUnref
  split <;> rfl

theorem mem_list_sourceUnref {k : SourceList} (h : j ∈ (sdEventSourceUnref e i).list k) :
    j ∈ e.list k := by
  unfold sdEventSourceUnref at h
  split at h
  · exact List.mem_of_mem_erase h
  · exact h

theorem mem_list_of_ne {k : SourceList} (hj : j ≠ i) (h : j ∈ e.list k) :
    j ∈ (sdEventSourceUnref e i).list k := by
  unfold sdEventSourceUnref
  split
  · exact (List.mem_erase_of_ne hj).mpr h
  · exact h

theorem dropSource_refCount (e : Loop) (i j : Nat) :
    ((dropSource e i).source j).refCount =
      if j = i then (e.source i).refCount - 1 else (e.source j).refCount :=
  sourceUnref_source _ _ _

theorem dropAll_nSources (e : Loop) : (SourceList.all.foldl dropList e).nSources = e.nSources := by
  refine List.foldlRecOn (motive := fun e' : Loop => e'.nSources = e.nSources) _ _ rfl ?_
  intro e' he k _
  refine List.foldlRecOn (motive := fun e' : Loop => e'.nSources = e.nSources) _ _ he ?_
  intro e' he i _
  exact (sourceUnref_nSources (e := e'.unlink i)).trans he

theorem dropAll_source (h : ∀ k, j ∉ e.list k) :
    (SourceList.all.foldl dropList e).source j = e.source j := by
  have hkept : ∀ (e' : Loop) (i : Nat), i ≠ j →
      (∀ k, j ∉ e'.list k) ∧ e'.source j = e.source j →
      (∀ k, j ∉ (dropSource e' i).list k) ∧ (dropSource e' i).source j = e.source j := by
    rintro e' i hi ⟨hout, hj⟩
    refine ⟨fun k hk => hout k (List.mem_of_mem_erase (mem_list_sourceUnref hk)), ?_⟩
    exact (sourceUnref_of_ne (e := e'.unlink i) hi.symm).trans hj
  refine (List.foldlRecOn (motive := fun e' : Loop =>
    (∀ k, j ∉ e'.list k) ∧ e'.source j = e.source j) _ _ ⟨h, rfl⟩ ?_).2
  intro e' he k _
  refine List.foldlRecOn (motive := fun e' : Loop =>
    (∀ k, j ∉ e'.list k) ∧ e'.source j = e.source j) _ _ he ?_
  intro e'' he'' i hi
  exact hkept e'' i (fun hij => he.1 k (hij ▸ hi)) he''

theorem dropSource_le {n : Nat} (h : (e.source j).refCount ≤ n) :
    ((dropSource e i).source j).refCount ≤ n := by
  rw [dropSource_refCount]
  split
  · next hj =>
    rw [hj] at h
    exact (Nat.sub_le _ _).trans h
  · exact h

theorem dropSources_lt {n : Nat} (hn : 0 < n) : ∀ (l : List Nat) {e : Loop}, j ∈ l →
    (e.source j).refCount ≤ n → ((l.foldl dropSource e).source j).refCount < n
  | [], _, hj, _ => absurd hj List.not_mem_nil
  | i :: l, e, hj, hle => by
    rcases List.mem_cons.mp hj with rfl | hj
    · have hone : ((dropSource e j).source j).refCount < n := by
        rw [dropSource_refCount, if_pos rfl]
        omega
      refine List.foldlRecOn (motive := fun e' : Loop => (e'.source j).refCount < n) l dropSource
        hone fun e' he i _ => ?_
      exact Nat.lt_of_le_of_lt (dropSource_le le_rfl) he
    · exact dropSources_lt hn l hj (dropSource_le hle)

theorem dropLists_le {n : Nat} (ks : List SourceList) (h : (e.source j).refCount ≤ n) :
    ((ks.foldl dropList e).source j).refCount ≤ n := by
  refine List.foldlRecOn (motive := fun e' : Loop => (e'.source j).refCount ≤ n) _ _ h ?_
  intro e' he k _
  refine List.foldlRecOn (motive := fun e' : Loop => (e'.source j).refCount ≤ n) _ _ he ?_
  exact fun e' he i _ => dropSource_le he

theorem dropLists_lt {n : Nat} {k : SourceList} (hn : 0 < n) : ∀ (ks : List SourceList) {e : Loop},
    k ∈ ks → j ∈ e.list k → (e.source j).refCount ≤ n →
    ((ks.foldl dropList e).source j).refCount < n
  | [], _, hk, _, _ => absurd hk List.not_mem_nil
  | k' :: ks, e, hk, hj, hle => by
    rw [List.foldl_cons]
    by_cases hj' : j ∈ e.list k'
    · have hlt := dropSources_lt hn (e.list k') hj' hle
      have hrest := dropLists_le (e := dropList e k') ks (Nat.le_sub_one_of_lt hlt)
      omega
    · have hk' : k ∈ ks := by
        rcases List.mem_cons.mp hk with rfl | hk
        · exact absurd hj hj'
        · exact hk
      -- What is dropped here are other sources, so this one stays in its list.
      obtain ⟨hmem, hle'⟩ : j ∈ (dropList e k').list k ∧
          ((dropList e k').source j).refCount ≤ n := by
        refine List.foldlRecOn (motive := fun e' : Loop =>
          j ∈ e'.list k ∧ (e'.source j).refCount ≤ n) _ _ ⟨hj, hle⟩ ?_
        intro e' he i hi
        have hne : j ≠ i := fun hji => hj' (hji ▸ hi)
        refine ⟨mem_list_of_ne (e := e'.unlink i) hne ?_, dropSource_le he.2⟩
        exact (List.mem_erase_of_ne hne).mpr he.1
      exact dropLists_lt hn ks hk' hmem hle'

theorem dropAll_lt {n : Nat} {k : SourceList} (hn : 0 < n) (hk : j ∈ e.list k)
    (hle : (e.source j).refCount ≤ n) :
    ((SourceList.all.foldl dropList e).source j).refCount < n :=
  dropLists_lt hn _ (by cases k <;> decide) hk hle

section add
variable {s : Source} {K : Option SourceList} {returned : Bool}

theorem Owner.Base.add (h : o.Base) (ha : Added o.event.loop e' s K)
    (hp : Placed o.event.loop → Placed e') : (o.add e' returned).Base where
  refCount := h.refCount
  live := h.live
  placed hl := hp (h.placed hl)
  bound i hi := by
    change i < e'.nSources
    rw [ha.nSources]
    by_cases hin : i = o.event.loop.nSources
    · rw [hin]
      exact Nat.lt_succ_self _
    · change 0 < update o.sources _ _ i at hi
      rw [update_of_ne hin] at hi
      exact (h.bound i hi).trans (Nat.lt_succ_self _)

theorem Owner.Accounted.add (h : o.Accounted) (hbase : o.Base)
    (ha : Added o.event.loop e' s K) (hs : s.refCount = 1)
    (hlive : ∀ k, K = some k → s.live = true) : (o.add e' returned).Accounted where
  counted i hi := by
    change (e'.source i).live = true ∧ (e'.source i).refCount = update o.sources _ _ i
    change 0 < update o.sources _ _ i at hi
    by_cases hin : i = o.event.loop.nSources
    · subst hin
      rw [update_self, ha.source, if_pos rfl] at hi ⊢
      split at hi
      · next hret => exact ⟨(Bool.and_eq_true_iff.mp hret).2, by rw [if_pos hret, hs]⟩
      · exact absurd hi (lt_irrefl 0)
    · rw [update_of_ne hin] at hi ⊢
      rw [ha.source, if_neg hin]
      exact h.counted i hi
  intact hl k i hi := by
    change (e'.source i).live = true
    have hold : ∀ i ∈ o.event.loop.list k, (e'.source i).live = true := by
      intro i hi
      rw [ha.source, if_neg ((hbase.placed hl).listed k i hi).ne]
      exact h.intact hl k i hi
    change i ∈ e'.list k at hi
    by_cases hK : K = some k
    · rcases List.mem_cons.mp ((ha.perm k hK).mem_iff.mp hi) with rfl | hi
      · rw [ha.source, if_pos rfl]
        exact hlive k hK
      · exact hold i hi
    · rw [ha.other k hK] at hi
      exact hold i hi

end add

theorem newTime_refCount (now usec : UInt64) (r : AddResult) : (newTime now usec r).refCount = 1 := by
  unfold newTime
  split <;> rfl

theorem newTime_live {now usec : UInt64} {r : AddResult} {k : SourceList}
    (h : newTimeList r = some k) : (newTime now usec r).live = true := by
  unfold newTimeList at h
  unfold newTime
  split at h
  · next hok =>
    obtain ⟨hpipe, hfile⟩ := Bool.and_eq_true_iff.mp hok
    rw [hpipe, hfile]
    rfl
  · cases h

theorem Owner.Base.unref (h : o.Base) (hheld : 0 < o.held) :
    Owner.Base { o with event := sdEventUnref o.event, held := o.held - 1 } := by
  have hcount := h.refCount
  have hlive := h.live.mpr hheld
  unfold sdEventUnref
  split
  · next hone =>
    refine ⟨?_, iff_of_false Bool.false_ne_true ?_, fun hf => absurd hf Bool.false_ne_true,
      fun i hi => ?_⟩
    · dsimp only
      omega
    · dsimp only
      omega
    · dsimp only
      rw [dropAll_nSources]
      exact h.bound i hi
  · next hone =>
    refine ⟨?_, iff_of_true hlive ?_, h.placed, h.bound⟩
    · dsimp only
      omega
    · dsimp only
      omega

theorem Owner.Base.exec (h : o.Base) (op : OwnerOp) : (op.exec o).Base := by
  unfold OwnerOp.exec
  split
  swap
  · exact h
  next hallowed =>
  cases op with
  | ref =>
    refine ⟨congrArg (· + 1) h.refCount, iff_of_true ?_ (Nat.succ_pos _), h.placed, h.bound⟩
    exact h.live.mpr (of_decide_eq_true hallowed)
  | unref => exact h.unref (of_decide_eq_true hallowed)
  | addIo events r => exact h.add (addIo_added events r) fun hp => hp.exec (.addIo events r)
  | addTime usec r => exact h.add (addTime_added usec r) fun hp => hp.exec (.addTime usec r)
  | addDefer => exact h.add addDefer_added fun hp => hp.exec .addDefer
  | addExit returned => exact h.add addExit_added fun hp => hp.exec .addExit
  | sourceRef i =>
    refine ⟨h.refCount, h.live, fun hl => (h.placed hl).ref, fun j hj => ?_⟩
    change 0 < update o.sources i _ j at hj
    by_cases hji : j = i
    · rw [hji]
      exact h.bound i (of_decide_eq_true hallowed)
    · rw [update_of_ne hji] at hj
      exact h.bound j hj
  | sourceUnref i =>
    refine ⟨h.refCount, h.live, fun hl => (h.placed hl).unref, fun j hj => ?_⟩
    change j < (sdEventSourceUnref o.event.loop i).nSources
    rw [sourceUnref_nSources]
    change 0 < update o.sources i _ j at hj
    by_cases hji : j = i
    · rw [hji]
      exact h.bound i (of_decide_eq_true hallowed)
    · rw [update_of_ne hji] at hj
      exact h.bound j hj

theorem Owner.Accounted.unref (h : o.Accounted) (hbase : o.Base)
    (hop : o.held = 1 → ∀ k, ∀ i ∈ o.event.loop.list k, o.sources i = 0) :
    Owner.Accounted { o with event := sdEventUnref o.event, held := o.held - 1 } := by
  unfold sdEventUnref
  split
  · next hone =>
    refine ⟨fun i hi => ?_, fun hf => absurd hf Bool.false_ne_true⟩
    have hout : ∀ k, i ∉ o.event.loop.list k := by
      intro k hk
      have hzero := hop (hbase.refCount.symm.trans hone) k i hk
      change 0 < o.sources i at hi
      omega
    dsimp only
    rw [dropAll_source hout]
    exact h.counted i hi
  · exact ⟨h.counted, h.intact⟩

theorem Owner.Accounted.sourceRef (h : o.Accounted) (hi : 0 < o.sources i) :
    Owner.Accounted { o with
      event := { o.event with loop := sdEventSourceRef o.event.loop i }
      sources := update o.sources i (o.sources i + 1) } where
  counted j hj := by
    change ((sdEventSourceRef o.event.loop i).source j).live = true ∧
      ((sdEventSourceRef o.event.loop i).source j).refCount = update o.sources i _ j
    change 0 < update o.sources i _ j at hj
    unfold sdEventSourceRef
    rw [modify_source]
    by_cases hji : j = i
    · subst hji
      obtain ⟨hlive, hcount⟩ := h.counted j hi
      rw [update_self, if_pos rfl]
      exact ⟨hlive, congrArg (· + 1) hcount⟩
    · rw [update_of_ne hji] at hj ⊢
      rw [if_neg hji]
      exact h.counted j hj
  intact hl k j hj := by
    change ((sdEventSourceRef o.event.loop i).source j).live = true
    unfold sdEventSourceRef
    rw [modify_source]
    split
    · next hji =>
      subst hji
      exact h.intact hl k j hj
    · exact h.intact hl k j hj

theorem Owner.Accounted.sourceUnref (h : o.Accounted) (hbase : o.Base) (hi : 0 < o.sources i) :
    Owner.Accounted { o with
      event := { o.event with loop := sdEventSourceUnref o.event.loop i }
      sources := update o.sources i (o.sources i - 1) } where
  counted j hj := by
    change ((sdEventSourceUnref o.event.loop i).source j).live = true ∧
      ((sdEventSourceUnref o.event.loop i).source j).refCount = update o.sources i _ j
    change 0 < update o.sources i _ j at hj
    by_cases hji : j = i
    · subst hji
      obtain ⟨hlive, hcount⟩ := h.counted j hi
      rw [update_self] at hj ⊢
      unfold sdEventSourceUnref
      rw [if_neg (by omega), modify_source, if_pos rfl]
      exact ⟨hlive, congrArg (· - 1) hcount⟩
    · rw [update_of_ne hji] at hj ⊢
      rw [sourceUnref_of_ne hji]
      exact h.counted j hj
  intact hl k j hj := by
    change ((sdEventSourceUnref o.event.loop i).source j).live = true
    by_cases hji : j = i
    · subst hji
      -- A source that was freed has left its list, where it stood once.
      change j ∈ (sdEventSourceUnref o.event.loop j).list k at hj
      unfold sdEventSourceUnref at hj ⊢
      split at hj
      · exact absurd rfl ((hbase.placed hl).mem_erase hj).2
      · next hne =>
        rw [if_neg hne, modify_source, if_pos rfl]
        exact h.intact hl k j hj
    · rw [sourceUnref_of_ne hji]
      exact h.intact hl k j (mem_list_sourceUnref hj)

theorem Owner.Accounted.exec (h : o.Accounted) (hbase : o.Base) (op : OwnerOp)
    (hop : op.Orderly o) : (op.exec o).Accounted := by
  unfold OwnerOp.exec
  split
  swap
  · exact h
  next hallowed =>
  cases op with
  | ref => exact ⟨h.counted, h.intact⟩
  | unref => exact h.unref hbase hop
  | addIo events r =>
    exact h.add hbase (addIo_added events r) rfl fun _ _ => hop (of_decide_eq_true hallowed)
  | addTime usec r =>
    exact h.add hbase (addTime_added usec r) (newTime_refCount _ _ _) fun _ hk => newTime_live hk
  | addDefer => exact h.add hbase addDefer_added rfl fun _ _ => rfl
  | addExit returned => exact h.add hbase addExit_added rfl fun _ _ => rfl
  | sourceRef i => exact h.sourceRef (of_decide_eq_true hallowed)
  | sourceUnref i => exact h.sourceUnref hbase (of_decide_eq_true hallowed)

theorem Owner.Base.orderly (hbase : o.Base) (h : o.Accounted) (op : OwnerOp)
    (h' : (op.exec o).Accounted) : op.Orderly o := by
  cases op with
  | unref =>
    intro hheld k i hi
    by_contra hne
    have hpos := Nat.pos_of_ne_zero hne
    have hexec : OwnerOp.exec o .unref =
        { o with event := sdEventUnref o.event, held := o.held - 1 } :=
      if_pos (decide_eq_true (hheld ▸ Nat.one_pos))
    rw [hexec, sdEventUnref, if_pos (hbase.refCount.trans hheld)] at h'
    have hlt := dropAll_lt hpos hi (h.counted i hpos).2.le
    have heq := (h'.counted i hpos).2
    dsimp only at heq
    omega
  | addIo events r =>
    intro hheld
    have hexec : OwnerOp.exec o (.addIo events r) =
        o.add (sdEventAddIo o.event.loop events r) true := if_pos (decide_eq_true hheld)
    rw [hexec] at h'
    have ha := addIo_added (e := o.event.loop) events r
    have hlive := h'.intact (hbase.live.mpr hheld) .sources o.event.loop.nSources
      ((ha.perm .sources rfl).mem_iff.mpr List.mem_cons_self)
    change ((sdEventAddIo o.event.loop events r).source _).live = true at hlive
    rw [ha.source, if_pos rfl] at hlive
    exact hlive
  | _ => exact trivial

def Owners.Base (w : Owners) : Prop := ∀ n, (w.owner n).Base

theorem base_new : Owner.Base { event := sdEventNew, held := 1 } where
  refCount := rfl
  live := iff_of_true rfl Nat.one_pos
  placed _ := placed_initial
  bound _ hi := absurd hi (lt_irrefl 0)

theorem accounted_new : Owner.Accounted { event := sdEventNew, held := 1 } where
  counted _ hi := absurd hi (lt_irrefl 0)
  intact _ _ _ hi := absurd hi List.not_mem_nil

variable {w : Owners}

theorem Owners.Base.exec (h : w.Base) (op : OwnersOp) : (op.exec w).Base := by
  intro n
  cases op with
  | new =>
    change Owner.Base (update w.owner w.nOwners _ n)
    by_cases hn : n = w.nOwners
    · rw [hn, update_self]
      exact base_new
    · rw [update_of_ne hn]
      exact h n
  | call m op =>
    change Owner.Base (update w.owner m _ n)
    by_cases hn : n = m
    · rw [hn, update_self]
      exact (h m).exec op
    · rw [update_of_ne hn]
      exact h n

theorem Owners.Base.exec_iff (hbase : w.Base) (h : w.Accounted) (op : OwnersOp) :
    op.Orderly w ↔ (op.exec w).Accounted := by
  cases op with
  | new =>
    refine iff_of_true trivial fun n => ?_
    change Owner.Accounted (update w.owner w.nOwners _ n)
    by_cases hn : n = w.nOwners
    · rw [hn, update_self]
      exact accounted_new
    · rw [update_of_ne hn]
      exact h n
  | call m op =>
    constructor
    · intro hop n
      change Owner.Accounted (update w.owner m _ n)
      by_cases hn : n = m
      · rw [hn, update_self]
        exact (h m).exec (hbase m) op hop
      · rw [update_of_ne hn]
        exact h n
    · intro h'
      have hm : Owner.Accounted (update w.owner m (op.exec (w.owner m)) m) := h' m
      rw [update_self] at hm
      exact (hbase m).orderly (h m) op hm

/-- The references are accounted for in all states of a run if and only if no loop is given up
while a source that is linked in it is held, and no file of an IO source fails to be set up. -/
theorem ownersRun_accounted (ops : List OwnersOp) :
    StepsAll OwnersOp.exec OwnersOp.Orderly {} ops ↔
      StatesAll OwnersOp.exec Owners.Accounted {} ops := by
  have hbase : Owners.Base {} := fun n =>
    ⟨rfl, iff_of_false Bool.false_ne_true (lt_irrefl 0), fun hf => absurd hf Bool.false_ne_true,
      fun i hi => absurd hi (lt_irrefl 0)⟩
  have hnone : Owners.Accounted {} := fun n =>
    ⟨fun i hi => absurd hi (lt_irrefl 0), fun hf => absurd hf Bool.false_ne_true⟩
  rw [stepsAll_iff_statesAll (P := OwnersOp.Orderly) (I := fun w => w.Base ∧ w.Accounted)
    (fun w op h => ⟨fun hp => ⟨h.1.exec op, (h.1.exec_iff h.2 op).mp hp⟩,
      fun h' => (h.1.exec_iff h.2 op).mpr h'.2⟩) ops ⟨hbase, hnone⟩]
  have hall := statesAll_of_kept (fun w op (h : w.Base) => h.exec op) ops hbase
  exact ⟨StatesAll.imp (fun w h => h.2) ops, fun h => hall.and ops h⟩

/-- The loop takes the source with it that the application has added. -/
theorem not_ownersRun_accounted :
    ¬StatesAll OwnersOp.exec Owners.Accounted {} [.new, .call 0 .addDefer, .call 0 .unref] := by
  intro h
  have hcounted := (h.last 0).counted 0 (by decide)
  exact absurd hcounted.1 (by decide)

end Basu.Event
