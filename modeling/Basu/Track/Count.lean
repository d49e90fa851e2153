import Basu.Track.Queue

/-! Counting the additions of a name to a recursive tracker. A name that is added once more raises
the counter of the tracker in place of the counter of its item, so that the additions are counted
only as long as no name is added twice. -/

namespace Basu
open Lib
open Function

inductive NameCall
  | add (name : Str) (failure : Option AddFailure) (creds : Option Errno)
  | remove (name : Str)
  deriving DecidableEq, Repr

/-- A tracker `t` of a bus and, for each name, the successful additions less the successful
removals since it was last absent. -/
structure Tracking where
  bus : TrackBus
  t : Nat
  balance : Str → Int

/-- The balance of a name after a call about it: `d` is added if the call succeeded, and it starts
anew while the name is absent. -/
def Tracking.settle {α : Type} (s : Tracking) (name : Str) (d : Int)
    (r : TrackBus × Except Errno α) : Tracking :=
  { s with
    bus := r.1
    balance := update s.balance name <|
      if sdBusTrackContains r.1 s.t name then
        match r.2 with
        | .ok _ => s.balance name + d
        | .error _ => s.balance name
      else 0 }

def NameCall.exec (s : Tracking) : NameCall → Tracking
  | .add name failure creds => s.settle name 1 (sdBusTrackAddName s.bus s.t name failure creds)
  | .remove name => s.settle name (-1) (sdBusTrackRemoveName s.bus s.t name)

def trackingRun (s : Tracking) (calls : List NameCall) : Tracking := calls.foldl NameCall.exec s

structure Tracking.Counts (n : Nat) (s : Tracking) : Prop where
  count : ∀ name, serviceNameIsValid name = true →
    ∃ k : Nat, sdBusTrackCountName s.bus s.t name = .ok k ∧ (k : Int) = s.balance name
  removeFails : ∀ name, (∃ r, (sdBusTrackRemoveName s.bus s.t name).2 = .error r) ↔
    s.balance name = 0
  contains : ∀ name, sdBusTrackContains s.bus s.t name = true ↔ 0 < s.balance name
  nRef : (s.bus.track s.t).nRef = n

def NameCall.AddsNew (s : Tracking) : NameCall → Prop
  | .add name _ _ => sdBusTrackContains s.bus s.t name = true →
    (s.bus.track s.t).nRef = uint32Max
  | .remove _ => True

variable {x y : Track} {b : TrackBus} {t n k : Nat} {name other : Str}

theorem Track.get_put (x : Track) (name other : Str) :
    (x.put name).get other = if other = name then some 0 else x.get other := by
  unfold Track.get Track.put Table.get
  dsimp only
  rw [List.find?_cons]
  by_cases h : other = name
  · subst h
    rw [if_pos rfl, decide_eq_true rfl]
    rfl
  · rw [if_neg h, decide_eq_false (Ne.symm h)]

theorem Track.get_remove (x : Track) (name other : Str) :
    (x.remove name).get other = if other = name then none else x.get other := by
  unfold Track.get Track.remove
  dsimp only
  by_cases h : other = name
  · subst h
    rw [if_pos rfl, Table.get_eq_none.mpr fun p hp => (Table.mem_remove.mp hp).2]
    rfl
  · rw [if_neg h]
    unfold Table.get Table.remove
    rw [List.find?_filter]
    congr 2
    funext p
    by_cases hp : p.1 = other
    · rw [hp, decide_eq_true h, decide_eq_true rfl]
      rfl
    · simp only [hp, decide_false, Bool.false_eq_true, and_false]

theorem Track.get_setItem (x : Track) (name other : Str) (k : Nat) :
    (x.setItem name k).get other =
      if other = name then (x.get name).map fun _ => k else x.get other := by
  unfold Track.get Track.setItem Table.get
  dsimp only
  induction x.names with
  | nil => split <;> rfl
  | cons p l ih =>
    rw [List.map_cons, List.find?_cons, List.find?_cons, List.find?_cons]
    by_cases hp : p.1 = name
    · rw [if_pos hp, hp]
      by_cases h : other = name
      · subst h
        rw [if_pos rfl]
        simp only [decide_true, Option.map_some]
      · rw [if_neg h] at ih ⊢
        simp only [decide_eq_false (Ne.symm h)]
        exact ih
    · rw [if_neg hp]
      by_cases h : other = name
      · subst h
        rw [if_pos rfl] at ih ⊢
        simp only [decide_eq_false hp]
        exact ih
      · rw [if_neg h] at ih ⊢
        by_cases ho : p.1 = other
        · simp only [decide_eq_true ho]
        · simp only [decide_eq_false ho]
          exact ih

structure SameItems (x y : Track) : Prop where
  get : ∀ name, y.get name = x.get name
  nRef : y.nRef = x.nRef
  recursive : y.recursive = x.recursive

theorem SameItems.refl (x : Track) : SameItems x x := ⟨fun _ => rfl, rfl, rfl⟩

theorem SameItems.trans {z : Track} (h : SameItems x y) (h' : SameItems y z) : SameItems x z :=
  ⟨fun name => (h'.get name).trans (h.get name), h'.nRef.trans h.nRef,
    h'.recursive.trans h.recursive⟩

theorem addToQueue_track (b : TrackBus) (t : Nat) :
    ∃ q, (busTrackAddToQueue b t).track t = { b.track t with inQueue := q } := by
  unfold busTrackAddToQueue
  split
  · exact ⟨true, setTrack_self b t _⟩
  · exact ⟨(b.track t).inQueue, rfl⟩

theorem addToQueue_items (b : TrackBus) (t : Nat) :
    SameItems (b.track t) ((busTrackAddToQueue b t).track t) := by
  obtain ⟨q, hq⟩ := addToQueue_track b t
  rw [hq]
  exact ⟨fun _ => rfl, rfl, rfl⟩

theorem removeFromQueue_items (b : TrackBus) (t : Nat) :
    SameItems (b.track t) ((busTrackRemoveFromQueue b t).track t) := by
  rw [removeFromQueue_track]
  exact ⟨fun _ => rfl, rfl, rfl⟩

theorem setTrack_items {x y : Track} (b : TrackBus) (t : Nat) (h : SameItems x y) :
    SameItems x ((b.setTrack t y).track t) := by
  rw [setTrack_self]
  exact h

structure ItemSet (x y : Track) (name : Str) (k : Option Nat) : Prop where
  get : ∀ other, y.get other = if other = name then k else x.get other
  nRef : y.nRef = x.nRef
  recursive : y.recursive = x.recursive

theorem ItemSet.same {z : Track} {k : Option Nat} (h : ItemSet x y name k) (h' : SameItems y z) :
    ItemSet x z name k :=
  ⟨fun other => (h'.get other).trans (h.get other), h'.nRef.trans h.nRef,
    h'.recursive.trans h.recursive⟩

theorem SameItems.set {z : Track} {k : Option Nat} (h : SameItems x y)
    (h' : ItemSet y z name k) : ItemSet x z name k :=
  ⟨fun other => by rw [h'.get, h.get], h'.nRef.trans h.nRef, h'.recursive.trans h.recursive⟩

theorem ItemSet.again {z : Track} {k k' : Option Nat} (h : ItemSet x y name k)
    (h' : ItemSet y z name k') : ItemSet x z name k' := by
  refine ⟨fun other => ?_, h'.nRef.trans h.nRef, h'.recursive.trans h.recursive⟩
  rw [h'.get, h.get]
  split <;> rfl

theorem ItemSet.gone (h : ItemSet x y name none) (hx : x.get name = none) : SameItems x y := by
  refine ⟨fun other => ?_, h.nRef, h.recursive⟩
  rw [h.get]
  split
  · next he => rw [he, hx]
  · rfl

theorem setTrack_set {x y : Track} {k : Option Nat} (b : TrackBus) (t : Nat)
    (h : ItemSet x y name k) : ItemSet x ((b.setTrack t y).track t) name k := by
  rw [setTrack_self]
  exact h

theorem removeNameFully_items (b : TrackBus) (t : Nat) (name : Str)
    (hc : (b.track t).contains name = true) :
    (busTrackRemoveNameFully b t name).2 = true ∧
      ItemSet (b.track t) ((busTrackRemoveNameFully b t name).1.track t) name none := by
  unfold busTrackRemoveNameFully
  rw [if_pos hc]
  refine ⟨rfl, ?_⟩
  have hremoved := setTrack_set b t ⟨Track.get_remove (b.track t) name, rfl, rfl⟩
  refine (hremoved.same (addToQueue_items _ t)).same (setTrack_items _ t ?_)
  exact ⟨fun _ => rfl, rfl, rfl⟩

theorem removeName_cases (b : TrackBus) (t : Nat) (name : Str)
    (hr : (b.track t).recursive = true) :
    (sdBusTrackRemoveName b t name = (b, .error .eunatch) ∧
      ((b.track t).get name).getD 0 = 0) ∨
    (∃ k, (b.track t).get name = some (k + 1) ∧
      (sdBusTrackRemoveName b t name).2 = .ok true ∧
      ItemSet (b.track t) ((sdBusTrackRemoveName b t name).1.track t) name
        (if k = 0 then none else some k)) := by
  unfold sdBusTrackRemoveName
  dsimp only
  rw [hr, Bool.not_true, if_neg Bool.false_ne_true]
  rcases hget : (b.track t).get name with _ | _ | k
  · exact .inl ⟨rfl, rfl⟩
  · exact .inl ⟨rfl, rfl⟩
  · refine .inr ⟨k, rfl, ?_⟩
    dsimp only
    rw [if_neg (Nat.succ_ne_zero k), Nat.add_sub_cancel]
    have hset : ItemSet (b.track t) ((b.setTrack t ((b.track t).setItem name k)).track t) name
        (some k) := by
      refine setTrack_set b t ⟨fun other => ?_, rfl, rfl⟩
      rw [Track.get_setItem, hget, Option.map_some]
    by_cases hk : k = 0
    · rw [if_pos hk, if_pos hk]
      have hc : ((b.setTrack t ((b.track t).setItem name k)).track t).contains name = true := by
        rw [Track.contains, hset.get, if_pos rfl]
        rfl
      obtain ⟨hok, hremoved⟩ := removeNameFully_items _ t name hc
      exact ⟨congrArg Except.ok hok, hset.again hremoved⟩
    · rw [if_neg hk, if_neg hk]
      exact ⟨rfl, hset⟩

theorem addNameEnd_items (b : TrackBus) (t : Nat) (name : Str) (creds : Option Errno)
    (hget : (b.track t).get name = some 0) :
    let r := addNameEnd b t name creds
    r.2 = (match creds with
      | some e => .error e
      | none => .ok true) ∧
      ItemSet (b.track t) (r.1.track t) name (creds.elim (some 1) fun _ => none) := by
  have hdone := setTrack_items (x := b.track t) b t
    (y := { b.track t with nAdding := (b.track t).nAdding - 1 }) ⟨fun _ => rfl, rfl, rfl⟩
  unfold addNameEnd
  dsimp only
  generalize b.setTrack t { b.track t with nAdding := (b.track t).nAdding - 1 } = b' at hdone ⊢
  cases creds with
  | some e =>
    have hremoved := setTrack_set b' t ⟨Track.get_remove (b'.track t) name, rfl, rfl⟩
    exact ⟨rfl, hdone.set (hremoved.same (addToQueue_items _ t))⟩
  | none =>
    have hset : ItemSet (b'.track t) ((b'.setTrack t ((b'.track t).setItem name 1)).track t) name
        (some 1) := by
      refine setTrack_set b' t ⟨fun other => ?_, rfl, rfl⟩
      rw [Track.get_setItem, hdone.get, hget, Option.map_some]
    have hout := hset.same (removeFromQueue_items _ t)
    exact ⟨rfl, hdone.set (hout.same (setTrack_items _ t ⟨fun _ => rfl, rfl, rfl⟩))⟩

theorem addName_cases (b : TrackBus) (t : Nat) (name : Str) (failure : Option AddFailure)
    (creds : Option Errno) (hr : (b.track t).recursive = true) :
    let r := sdBusTrackAddName b t name failure creds
    (∃ e, r.2 = .error e ∧ SameItems (b.track t) (r.1.track t) ∧
      ((b.track t).contains name = true → serviceNameIsValid name = true →
        (b.track t).nRef = uint32Max)) ∨
    (r.2 = .ok false ∧ (b.track t).contains name = true ∧ (b.track t).nRef ≠ uint32Max ∧
      (r.1.track t).nRef = (b.track t).nRef + 1 ∧
      (r.1.track t).recursive = true ∧ ∀ other, (r.1.track t).get other = (b.track t).get other) ∨
    (r.2 = .ok true ∧ (b.track t).get name = none ∧ serviceNameIsValid name = true ∧
      ItemSet (b.track t) (r.1.track t) name (some 1)) := by
  dsimp only
  unfold sdBusTrackAddName addNameBegin
  dsimp only
  cases hvalid : serviceNameIsValid name with
  | false => exact .inl ⟨.einval, rfl, .refl _, fun _ hv => absurd hv Bool.false_ne_true⟩
  | true =>
    rw [Bool.not_true, if_neg Bool.false_ne_true]
    by_cases hc : (b.track t).contains name = true
    · rw [if_pos hc, if_pos hr]
      by_cases hn : (b.track t).nRef = uint32Max
      · rw [if_pos hn]
        exact .inl ⟨.eoverflow, rfl, .refl _, fun _ _ => hn⟩
      · rw [if_neg hn]
        have hsame := removeFromQueue_items
          (b.setTrack t { b.track t with nRef := (b.track t).nRef + 1 }) t
        rw [setTrack_self] at hsame
        exact .inr (.inl ⟨rfl, hc, hn, hsame.nRef, hsame.recursive.trans hr, hsame.get⟩)
    · rw [if_neg hc]
      have hnone : (b.track t).get name = none := by
        rw [Track.contains, Option.not_isSome_iff_eq_none] at hc
        exact hc
      have hqueued := (removeFromQueue_items b t).trans
        (addToQueue_items (busTrackRemoveFromQueue b t) t)
      rcases failure with _ | (_ | e | e)
      · have hput : ItemSet (b.track t) (((busTrackRemoveFromQueue b t).setTrack t
            { ((busTrackRemoveFromQueue b t).track t).put name with
              nAdding := ((busTrackRemoveFromQueue b t).track t).nAdding + 1 }).track t) name
            (some 0) := by
          exact (removeFromQueue_items b t).set (setTrack_set _ t ⟨Track.get_put _ _, rfl, rfl⟩)
        obtain ⟨hres, hset⟩ := addNameEnd_items _ t name creds (by rw [hput.get, if_pos rfl])
        have hend := hput.again hset
        cases creds with
        | none => exact .inr (.inr ⟨hres, hnone, rfl, hend⟩)
        | some e =>
          exact .inl ⟨e, hres, ItemSet.gone hend hnone, fun hc' => absurd hc' hc⟩
      · exact .inl ⟨.enomem, rfl, .refl _, fun hc' => absurd hc' hc⟩
      · exact .inl ⟨e, rfl, hqueued, fun hc' => absurd hc' hc⟩
      · exact .inl ⟨e, rfl, hqueued, fun hc' => absurd hc' hc⟩

/-- What the calls of a run keep, however often a name is added. -/
structure Tracking.Base (s : Tracking) : Prop where
  recursive : (s.bus.track s.t).recursive = true
  valid : ∀ name, (s.bus.track s.t).contains name = true → serviceNameIsValid name = true

structure Tracking.Balanced (n : Nat) (s : Tracking) : Prop where
  get : ∀ name, s.balance name = (((s.bus.track s.t).get name).getD 0 : Nat)
  counted : ∀ name, (s.bus.track s.t).get name ≠ some 0
  nRef : (s.bus.track s.t).nRef = n

variable {s : Tracking} {name : Str}

theorem contains_iff_get_ne_none {x : Track} : x.contains name = true ↔ x.get name ≠ none := by
  rw [Track.contains, Option.isSome_iff_ne_none]

theorem Tracking.Base.removeName_fails_iff (h : s.Base) (name : Str) :
    (∃ r, (sdBusTrackRemoveName s.bus s.t name).2 = .error r) ↔
      ((s.bus.track s.t).get name).getD 0 = 0 := by
  rcases removeName_cases s.bus s.t name h.recursive with ⟨hr, hzero⟩ | ⟨k, hget, hr, -⟩
  · rw [hr]
    exact iff_of_true ⟨_, rfl⟩ hzero
  · rw [hr, hget]
    refine iff_of_false ?_ (Nat.succ_ne_zero k)
    rintro ⟨e, he⟩
    cases he

theorem Tracking.Base.balanced (h : s.Base) {n : Nat} (hc : s.Counts n) : s.Balanced n where
  get name := by
    by_cases hin : (s.bus.track s.t).contains name = true
    · obtain ⟨k, hk, hbalance⟩ := hc.count name (h.valid name hin)
      unfold sdBusTrackCountName at hk
      rw [h.valid name hin, Bool.not_true, if_neg Bool.false_ne_true] at hk
      rw [← hbalance, Except.ok.inj hk]
    · rw [contains_iff_get_ne_none, not_not] at hin
      have hzero : ((s.bus.track s.t).get name).getD 0 = 0 := by rw [hin]; rfl
      rw [(hc.removeFails name).mp ((h.removeName_fails_iff name).mpr hzero), hzero]
      rfl
  counted name hget := by
    have hzero : ((s.bus.track s.t).get name).getD 0 = 0 := by rw [hget]; rfl
    have hbalance := (hc.removeFails name).mp ((h.removeName_fails_iff name).mpr hzero)
    have hin : (s.bus.track s.t).contains name = true := by
      rw [contains_iff_get_ne_none, hget]
      exact Option.some_ne_none 0
    have hpos := (hc.contains name).mp hin
    omega
  nRef := hc.nRef

theorem Tracking.Base.counts (h : s.Base) {n : Nat} (hb : s.Balanced n) : s.Counts n where
  count name hvalid := by
    refine ⟨((s.bus.track s.t).get name).getD 0, ?_, (hb.get name).symm⟩
    unfold sdBusTrackCountName
    rw [hvalid, Bool.not_true, if_neg Bool.false_ne_true]
  removeFails name := by
    rw [h.removeName_fails_iff, hb.get, Int.natCast_eq_zero]
  contains name := by
    rw [hb.get, Int.natCast_pos]
    have hcounted := hb.counted name
    unfold sdBusTrackContains Track.contains
    rcases hget : (s.bus.track s.t).get name with _ | k
    · exact iff_of_false Bool.false_ne_true (Nat.lt_irrefl 0)
    · exact iff_of_true rfl (Nat.pos_of_ne_zero fun hk => hcounted (hget.trans (congrArg some hk)))
  nRef := hb.nRef

variable {α : Type} {r : TrackBus × Except Errno α} {d : Int} {n : Nat}

theorem Tracking.Balanced.settle (h : s.Balanced n)
    (hother : ∀ other, other ≠ name →
      (r.1.track s.t).get other = (s.bus.track s.t).get other)
    (hcounted : (r.1.track s.t).get name ≠ some 0)
    (hd : ∀ k, (r.1.track s.t).get name = some k → (match r.2 with
      | .ok _ => s.balance name + d
      | .error _ => s.balance name) = (k : Int))
    (hn : (r.1.track s.t).nRef = (s.bus.track s.t).nRef) : (s.settle name d r).Balanced n where
  get other := by
    change update s.balance name _ other = (((r.1.track s.t).get other).getD 0 : Nat)
    by_cases ho : other = name
    · subst ho
      rw [update_self]
      unfold sdBusTrackContains Track.contains
      rcases hget : (r.1.track s.t).get other with _ | k
      · rfl
      · exact (if_pos rfl).trans (hd k hget)
    · rw [update_of_ne ho, hother other ho, h.get]
  counted other := by
    change (r.1.track s.t).get other ≠ some 0
    by_cases ho : other = name
    · rw [ho]
      exact hcounted
    · rw [hother other ho]
      exact h.counted other
  nRef := hn.trans h.nRef

theorem Tracking.Base.settle (h : s.Base)
    (hother : ∀ other, other ≠ name →
      (r.1.track s.t).get other = (s.bus.track s.t).get other)
    (hname : (r.1.track s.t).get name ≠ none → serviceNameIsValid name = true)
    (hr : (r.1.track s.t).recursive = true) : (s.settle name d r).Base where
  recursive := hr
  valid other hin := by
    change (r.1.track s.t).contains other = true at hin
    rw [contains_iff_get_ne_none] at hin
    by_cases ho : other = name
    · rw [ho] at hin ⊢
      exact hname hin
    · rw [hother other ho] at hin
      exact h.valid other (contains_iff_get_ne_none.mpr hin)

theorem Tracking.Base.exec (h : s.Base) (c : NameCall) : (c.exec s).Base := by
  cases c with
  | add name failure creds =>
    rcases addName_cases s.bus s.t name failure creds h.recursive with
      ⟨e, -, hsame, -⟩ | ⟨-, hc, -, -, hrec, hget⟩ | ⟨-, -, hvalid, hset⟩
    · refine h.settle (fun other _ => hsame.get other) (fun hin => ?_)
        (hsame.recursive.trans h.recursive)
      rw [hsame.get] at hin
      exact h.valid name (contains_iff_get_ne_none.mpr hin)
    · exact h.settle (fun other _ => hget other) (fun _ => h.valid name hc) hrec
    · refine h.settle (fun other ho => ?_) (fun _ => hvalid) (hset.recursive.trans h.recursive)
      rw [hset.get, if_neg ho]
  | remove name =>
    rcases removeName_cases s.bus s.t name h.recursive with ⟨hr, -⟩ | ⟨k, hget, -, hset⟩
    · refine h.settle (fun other _ => by rw [hr]) (fun hin => ?_) (by rw [hr]; exact h.recursive)
      rw [hr] at hin
      exact h.valid name (contains_iff_get_ne_none.mpr hin)
    · refine h.settle (fun other ho => ?_) (fun _ => ?_) (hset.recursive.trans h.recursive)
      · rw [hset.get, if_neg ho]
      · refine h.valid name (contains_iff_get_ne_none.mpr ?_)
        rw [hget]
        exact Option.some_ne_none _

theorem Tracking.Balanced.exec (h : s.Balanced n) (hbase : s.Base) (c : NameCall)
    (hnew : c.AddsNew s) : (c.exec s).Balanced n := by
  cases c with
  | add name failure creds =>
    rcases addName_cases s.bus s.t name failure creds hbase.recursive with
      ⟨e, he, hsame, -⟩ | ⟨-, hc, hn, -⟩ | ⟨hok, hnone, -, hset⟩
    · refine h.settle (fun other _ => hsame.get other) ?_ (fun k hk => ?_) hsame.nRef
      · rw [hsame.get]
        exact h.counted name
      · rw [hsame.get] at hk
        rw [he, h.get, hk]
        rfl
    · exact absurd (hnew hc) hn
    · refine h.settle (fun other ho => ?_) ?_ (fun k hk => ?_) hset.nRef
      · rw [hset.get, if_neg ho]
      · rw [hset.get, if_pos rfl]
        decide
      · rw [hset.get, if_pos rfl] at hk
        rw [hok, h.get, hnone, ← Option.some.inj hk]
        rfl
  | remove name =>
    rcases removeName_cases s.bus s.t name hbase.recursive with ⟨hr, hzero⟩ | ⟨k, hget, hok, hset⟩
    · refine h.settle (fun other _ => by rw [hr]) ?_ (fun k hk => ?_) (by rw [hr])
      · rw [hr]
        exact h.counted name
      · rw [hr] at hk ⊢
        rw [h.get, hk]
        rfl
    · refine h.settle (fun other ho => ?_) ?_ (fun k' hk => ?_) hset.nRef
      · rw [hset.get, if_neg ho]
      · rw [hset.get, if_pos rfl]
        split
        · exact (Option.some_ne_none 0).symm
        · next hk => exact fun h => hk (Option.some.inj h)
      · rw [hset.get, if_pos rfl] at hk
        split at hk
        · cases hk
        · rw [hok, h.get, hget, ← Option.some.inj hk]
          exact Int.add_neg_cancel_right (k : Int) 1

theorem Tracking.Base.addsNew (hbase : s.Base) (h : s.Balanced n) (c : NameCall)
    (h' : (c.exec s).Balanced n) : c.AddsNew s := by
  cases c with
  | add name failure creds =>
    intro hc
    rcases addName_cases s.bus s.t name failure creds hbase.recursive with
      ⟨-, -, -, hmax⟩ | ⟨-, -, -, hn, -⟩ | ⟨-, hnone, -⟩
    · exact hmax hc (hbase.valid name hc)
    · have hafter := h'.nRef
      have hbefore := h.nRef
      change ((sdBusTrackAddName s.bus s.t name failure creds).1.track s.t).nRef = n at hafter
      omega
    · exact absurd hnone (contains_iff_get_ne_none.mp hc)
  | remove name => exact trivial

/-- On a recursive tracker the counts are right all along, and the tracker keeps its own counter,
if and only if no name is added that is there already. -/
theorem trackingRun_counts (b : TrackBus) (t : Nat) (hr : (b.track t).recursive = true)
    (hnames : (b.track t).names = []) (calls : List NameCall) :
    StepsAll NameCall.exec NameCall.AddsNew { bus := b, t := t, balance := fun _ => 0 } calls ↔
      StatesAll NameCall.exec (Tracking.Counts (b.track t).nRef)
        { bus := b, t := t, balance := fun _ => 0 } calls := by
  have hget : ∀ name, (b.track t).get name = none := by
    intro name
    rw [Track.get, hnames]
    rfl
  have hbase : Tracking.Base { bus := b, t := t, balance := fun _ => 0 } := by
    refine ⟨hr, fun name hin => ?_⟩
    exact absurd (hget name) (contains_iff_get_ne_none.mp hin)
  have hzero : Tracking.Balanced (b.track t).nRef { bus := b, t := t, balance := fun _ => 0 } := by
    refine ⟨fun name => ?_, fun name => ?_, rfl⟩
    · rw [hget]
      rfl
    · rw [hget]
      exact (Option.some_ne_none 0).symm
  rw [stepsAll_iff_statesAll (P := NameCall.AddsNew)
    (I := fun s => s.Base ∧ s.Balanced (b.track t).nRef)
    (fun s c h => ⟨fun hp => ⟨h.1.exec c, h.2.exec h.1 c hp⟩, fun h' => h.1.addsNew h.2 c h'.2⟩)
    calls ⟨hbase, hzero⟩]
  have hall := statesAll_of_kept (fun s c (h : s.Base) => h.exec c) calls hbase
  constructor
  · exact StatesAll.imp (fun s h => h.1.counts h.2) calls
  · intro hcounts
    exact StatesAll.imp (fun s h => ⟨h.1, h.1.balanced h.2⟩) calls (hall.and calls hcounts)

def recursiveBus : TrackBus := trackRun {} [.new false, .setRecursive 0 true]

def peerName : Str := [58, 49, 46, 50]

theorem trackingRun_counts_pair :
    StatesAll NameCall.exec (Tracking.Counts (recursiveBus.track 0).nRef)
      { bus := recursiveBus, t := 0, balance := fun _ => 0 }
      [.add peerName none none, .remove peerName] := by
  have hempty : (recursiveBus.track 0).names = [] := by decide
  refine (trackingRun_counts recursiveBus 0 (by decide) hempty _).mp ⟨fun hc => ?_, trivial, trivial⟩
  exact absurd hempty (names_ne_nil hc)

/-- A second addition of the name is counted by the tracker. -/
theorem not_trackingRun_counts :
    (recursiveBus.track 0).recursive = true ∧ (recursiveBus.track 0).names = [] ∧
      ¬StatesAll NameCall.exec (Tracking.Counts (recursiveBus.track 0).nRef)
        { bus := recursiveBus, t := 0, balance := fun _ => 0 }
        [.add peerName none none, .add peerName none none] := by
  refine ⟨by decide, by decide, fun h => ?_⟩
  have hn := h.last.nRef
  have htwo : ((trackingRun { bus := recursiveBus, t := 0, balance := fun _ => 0 }
      [.add peerName none none, .add peerName none none]).bus.track 0).nRef = 2 := by decide
  have hone : (recursiveBus.track 0).nRef = 1 := by decide
  change ((trackingRun _ _).bus.track 0).nRef = _ at hn
  rw [htwo, hone] at hn
  omega

end Basu
