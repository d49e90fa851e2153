import Basu.Track.Tracker
import Basu.Lib.Run

/-! The queue of trackers whose handler is due. A tracker stays in it when the bus closes it, since
`bus_track_close` returns early for a tracker without names; everything else about the queue holds
in every run. -/

namespace Basu
open Lib
open Function

def TrackFrame.adds (t : Nat) : TrackFrame → Bool
  | .adding u _ => u = t
  | .handling _ => false

def TrackFrame.track : TrackFrame → Nat
  | .adding t _ => t
  | .handling t => t

def HandlerCall.late (t : Nat) (c : HandlerCall) : Bool := c.track = t && c.closed

structure TrackBus.QueueOk (b : TrackBus) : Prop where
  linked : ∀ t, t ∈ b.trackQueue ↔ (b.track t).inQueue = true
  nodup : b.trackQueue.Nodup
  noNames : ∀ t ∈ b.trackQueue, (b.track t).names = []
  handler : ∀ t ∈ b.trackQueue, (b.track t).handler = true
  notAdding : ∀ t ∈ b.trackQueue, ∀ name, .adding t name ∉ b.frames
  notClosed : ∀ t ∈ b.trackQueue, (b.track t).inList = true
  calledEmpty : ∀ c ∈ b.called, c.nNames = 0
  lateOnce : ∀ t, b.called.countP (HandlerCall.late t) ≤ 1

def TrackOp.Spares (b : TrackBus) (op : TrackOp) : Prop :=
  op = .close → b.closing = true → ∀ t ∈ b.tracks.head?, (b.track t).inQueue = false

structure TrackOk (strict : Bool) (b : TrackBus) (t : Nat) (x : Track) : Prop where
  linked : t ∈ b.trackQueue ↔ x.inQueue = true
  idle : x.inQueue = true → x.names = [] ∧ x.handler = true ∧ x.nAdding = 0
  adding : x.nAdding = b.frames.countP (TrackFrame.adds t)
  fresh : b.nTracks ≤ t → x = {}
  late : 0 < b.called.countP (HandlerCall.late t) → x.inList = false
  notClosed : strict = true ∨ b.closing = false → x.inQueue = true → x.inList = true

structure TrackBus.Inv (strict : Bool) (b : TrackBus) : Prop where
  ok : ∀ t, TrackOk strict b t (b.track t)
  nodup : b.trackQueue.Nodup
  frames : ∀ f ∈ b.frames, f.track < b.nTracks
  tracks : ∀ t ∈ b.tracks, t < b.nTracks
  called : ∀ c ∈ b.called, c.track < b.nTracks ∧ c.nNames = 0
  lateOnce : ∀ t, b.called.countP (HandlerCall.late t) ≤ 1

variable {b b' : TrackBus} {t : Nat} {strict : Bool}

theorem TrackBus.Inv.queueOk (h : b.Inv true) : b.QueueOk where
  linked := fun t => (h.ok t).linked
  nodup := h.nodup
  noNames := fun t ht => ((h.ok t).idle ((h.ok t).linked.mp ht)).1
  handler := fun t ht => ((h.ok t).idle ((h.ok t).linked.mp ht)).2.1
  notAdding := fun t ht name hf => by
    have hadding := (h.ok t).adding
    rw [((h.ok t).idle ((h.ok t).linked.mp ht)).2.2] at hadding
    have hnone := List.countP_eq_zero.mp hadding.symm _ hf
    exact hnone (decide_eq_true rfl)
  notClosed := fun t ht => (h.ok t).notClosed (.inl rfl) ((h.ok t).linked.mp ht)
  calledEmpty := fun c hc => (h.called c hc).2
  lateOnce := h.lateOnce

theorem TrackBus.Inv.strict_iff (h : b.Inv false) : b.Inv true ↔ b.QueueOk := by
  refine ⟨fun h => h.queueOk, fun hq => { h with ok := fun t => ?_ }⟩
  exact { h.ok t with notClosed := fun _ ht => hq.notClosed t ((h.ok t).linked.mpr ht) }

/-! ## One tracker changes -/

theorem setTrack_self (b : TrackBus) (t : Nat) (x : Track) : (b.setTrack t x).track t = x :=
  update_self _ _ _

theorem setTrack_of_ne (b : TrackBus) {t u : Nat} (x : Track) (h : u ≠ t) :
    (b.setTrack t x).track u = b.track u := update_of_ne h _ _

theorem TrackBus.Inv.setTrack {x : Track} (h : b.Inv strict) (hx : TrackOk strict b t x) :
    (b.setTrack t x).Inv strict := by
  refine { h with ok := fun u => ?_ }
  by_cases hu : u = t
  · subst hu
    rw [setTrack_self]
    exact { hx with }
  · rw [setTrack_of_ne b x hu]
    exact { h.ok u with }

theorem TrackOk.setOut {x y : Track} (h : TrackOk strict b t x) (ht : t < b.nTracks)
    (hx : x.inQueue = false) (hy : y.inQueue = false) (ha : y.nAdding = x.nAdding)
    (hl : y.inList = true → x.inList = true) : TrackOk strict b t y := by
  have hnot : ¬y.inQueue = true := by
    rw [hy]
    exact Bool.false_ne_true
  refine { linked := ?_, idle := fun hq => absurd hq hnot, adding := ha.trans h.adding
           fresh := fun hle => absurd ht (Nat.not_lt_of_le hle), late := fun hc => ?_
           notClosed := fun _ hq => absurd hq hnot }
  · rw [h.linked, hx, hy]
  · have hgone := h.late hc
    by_contra hin
    rw [hl (Bool.eq_true_of_not_eq_false hin)] at hgone
    cases hgone

/-! ## Into the queue and out of it -/

structure SameRest (b b' : TrackBus) : Prop where
  nTracks : b'.nTracks = b.nTracks
  frames : b'.frames = b.frames
  closing : b'.closing = b.closing
  tracks : b'.tracks = b.tracks
  called : b'.called = b.called

theorem addToQueue_rest (b : TrackBus) (t : Nat) : SameRest b (busTrackAddToQueue b t) := by
  unfold busTrackAddToQueue
  split_ifs <;> exact ⟨rfl, rfl, rfl, rfl, rfl⟩

theorem removeFromQueue_rest (b : TrackBus) (t : Nat) :
    SameRest b (busTrackRemoveFromQueue b t) := by
  unfold busTrackRemoveFromQueue
  split_ifs <;> exact ⟨rfl, rfl, rfl, rfl, rfl⟩

theorem removeFromQueue_track (b : TrackBus) (t : Nat) :
    (busTrackRemoveFromQueue b t).track t = { b.track t with inQueue := false } := by
  unfold busTrackRemoveFromQueue
  split_ifs with hq
  · exact setTrack_self _ _ _
  · rw [Bool.not_eq_true] at hq
    rw [← hq]

theorem TrackBus.Inv.addToQueue (h : b.Inv strict) (t : Nat) :
    (busTrackAddToQueue b t).Inv strict := by
  unfold busTrackAddToQueue
  split_ifs with hmay
  swap
  · exact h
  simp only [Track.mayQueue, Bool.and_eq_true, Bool.not_eq_true', decide_eq_true_eq] at hmay
  obtain ⟨⟨⟨⟨hout, hadding⟩, hnames⟩, hhandler⟩, hlist⟩ := hmay
  have hnot : t ∉ b.trackQueue := by
    rw [(h.ok t).linked, hout]
    exact Bool.false_ne_true
  refine { h with ok := fun u => ?_, nodup := List.nodup_cons.mpr ⟨hnot, h.nodup⟩ }
  have hu := h.ok u
  by_cases he : u = t
  · subst he
    change TrackOk strict _ u ((b.setTrack u _).track u)
    rw [setTrack_self]
    exact { hu with
      linked := iff_of_true List.mem_cons_self rfl
      idle := fun _ => ⟨List.length_eq_zero_iff.mp hnames, hhandler, hadding⟩
      fresh := fun hle => by
        rw [hu.fresh hle] at hlist
        cases hlist
      notClosed := fun _ _ => hlist }
  · change TrackOk strict _ u ((b.setTrack t _).track u)
    rw [setTrack_of_ne b _ he]
    exact { hu with linked := (List.mem_cons.trans (or_iff_right he)).trans hu.linked }

theorem TrackBus.Inv.removeFromQueue (h : b.Inv strict) (t : Nat) :
    (busTrackRemoveFromQueue b t).Inv strict := by
  unfold busTrackRemoveFromQueue
  split_ifs with hq
  swap
  · exact h
  refine { h with ok := fun u => ?_, nodup := h.nodup.erase t }
  have hu := h.ok u
  by_cases he : u = t
  · subst he
    change TrackOk strict _ u ((b.setTrack u _).track u)
    rw [setTrack_self]
    refine { hu with
      linked := iff_of_false h.nodup.not_mem_erase Bool.false_ne_true
      idle := fun hf => absurd hf Bool.false_ne_true
      fresh := fun hle => ?_
      notClosed := fun _ hf => absurd hf Bool.false_ne_true }
    rw [hu.fresh hle] at hq
    cases hq
  · change TrackOk strict _ u ((b.setTrack t _).track u)
    rw [setTrack_of_ne b _ he]
    exact { hu with linked := (List.mem_erase_of_ne he).trans hu.linked }


theorem TrackOk.same {x y : Track} (h : TrackOk strict b t x) (ht : t < b.nTracks)
    (hq : y.inQueue = x.inQueue) (hn : y.names = x.names) (hh : y.handler = x.handler)
    (ha : y.nAdding = x.nAdding) (hl : y.inList = x.inList) : TrackOk strict b t y where
  linked := hq ▸ h.linked
  idle := by
    rw [hq, hn, hh, ha]
    exact h.idle
  adding := ha.trans h.adding
  fresh := fun hle => absurd ht (Nat.not_lt_of_le hle)
  late := fun hc => hl.trans (h.late hc)
  notClosed := by
    rw [hq, hl]
    exact h.notClosed

theorem TrackBus.Inv.lt_of_live (h : b.Inv strict) (hl : (b.track t).live = true) :
    t < b.nTracks := by
  by_contra hle
  rw [(h.ok t).fresh (Nat.le_of_not_lt hle)] at hl
  cases hl

theorem TrackOk.out_of_names {x : Track} (h : TrackOk strict b t x) (hn : x.names ≠ []) :
    x.inQueue = false := by
  by_contra hq
  exact hn (h.idle (Bool.eq_true_of_not_eq_false hq)).1

theorem names_ne_nil {x : Track} {name : Str} (h : x.contains name = true) : x.names ≠ [] := by
  intro hn
  rw [Track.contains, Track.get, hn] at h
  cases h

theorem TrackBus.Inv.removeNameFully (h : b.Inv strict) (ht : t < b.nTracks) (name : Str) :
    (busTrackRemoveNameFully b t name).1.Inv strict := by
  unfold busTrackRemoveNameFully
  split_ifs with hc
  swap
  · exact h
  have hout := (h.ok t).out_of_names (names_ne_nil hc)
  have hremoved := h.setTrack ((h.ok t).setOut (y := (b.track t).remove name) ht hout hout rfl id)
  have hadded := hremoved.addToQueue t
  have hlt : t < (busTrackAddToQueue (b.setTrack t ((b.track t).remove name)) t).nTracks := by
    rw [(addToQueue_rest _ t).nTracks]
    exact ht
  exact hadded.setTrack ((hadded.ok t).same hlt rfl rfl rfl rfl rfl)

theorem TrackBus.Inv.removeName (h : b.Inv strict) (ht : t < b.nTracks) (name : Str) :
    (sdBusTrackRemoveName b t name).1.Inv strict := by
  unfold sdBusTrackRemoveName
  dsimp only
  split
  · exact h.removeNameFully ht name
  split
  · exact h
  rename_i n hget
  split
  · exact h
  have hc : (b.track t).contains name = true := by
    rw [Track.contains, hget]
    rfl
  have hout := (h.ok t).out_of_names (names_ne_nil hc)
  have hset := h.setTrack
    ((h.ok t).setOut (y := (b.track t).setItem name (n - 1)) ht hout hout rfl id)
  split
  · exact hset.removeNameFully ht name
  · exact hset

theorem countP_adding_self (t : Nat) (name : Str) (fs : List TrackFrame) :
    (TrackFrame.adding t name :: fs).countP (TrackFrame.adds t) =
      fs.countP (TrackFrame.adds t) + 1 := by
  apply List.countP_cons_of_pos
  exact decide_eq_true rfl

theorem countP_adding_of_ne {t u : Nat} (name : Str) (fs : List TrackFrame) (h : u ≠ t) :
    (TrackFrame.adding t name :: fs).countP (TrackFrame.adds u) =
      fs.countP (TrackFrame.adds u) := by
  apply List.countP_cons_of_neg
  exact fun hf => h (of_decide_eq_true hf).symm

theorem countP_handling (t u : Nat) (fs : List TrackFrame) :
    (TrackFrame.handling t :: fs).countP (TrackFrame.adds u) = fs.countP (TrackFrame.adds u) := by
  apply List.countP_cons_of_neg
  exact Bool.false_ne_true

theorem TrackBus.Inv.pushAdding (h : b.Inv strict) (ht : t < b.nTracks)
    (hout : (b.track t).inQueue = false) (name : Str) {x : Track} (hq : x.inQueue = false)
    (ha : x.nAdding = (b.track t).nAdding + 1) (hl : x.inList = (b.track t).inList) :
    ({ b.setTrack t x with frames := .adding t name :: b.frames } : TrackBus).Inv strict := by
  have hnot : ¬x.inQueue = true := by
    rw [hq]
    exact Bool.false_ne_true
  refine { h with ok := fun u => ?_, frames := fun f hf => ?_ }
  · change TrackOk strict _ u ((b.setTrack t x).track u)
    have hu := h.ok u
    by_cases he : u = t
    · subst he
      rw [setTrack_self]
      refine { hu with
        linked := hu.linked.trans (by rw [hout, hq]), idle := fun hf => absurd hf hnot
        adding := ?_, fresh := fun hle => absurd ht (Nat.not_lt_of_le hle)
        late := fun hc => hl.trans (hu.late hc), notClosed := fun _ hf => absurd hf hnot }
      exact (ha.trans (congrArg (· + 1) hu.adding)).trans (countP_adding_self u name b.frames).symm
    · rw [setTrack_of_ne b x he]
      refine { hu with adding := ?_ }
      exact hu.adding.trans (countP_adding_of_ne name b.frames he).symm
  · rcases List.mem_cons.mp hf with rfl | hf
    · exact ht
    · exact h.frames f hf

theorem TrackBus.Inv.popAdding {name : Str} {frames : List TrackFrame} (h : b.Inv strict)
    (hf : b.frames = .adding t name :: frames) :
    (({ b with frames := frames } : TrackBus).setTrack t
      { b.track t with nAdding := (b.track t).nAdding - 1 }).Inv strict ∧
      t < b.nTracks ∧ (b.track t).inQueue = false := by
  have ht : t < b.nTracks := h.frames (.adding t name) (hf ▸ List.mem_cons_self)
  have hadding := (h.ok t).adding
  rw [hf, countP_adding_self] at hadding
  have hout : (b.track t).inQueue = false := by
    by_contra hq
    have := ((h.ok t).idle (Bool.eq_true_of_not_eq_false hq)).2.2
    omega
  have hnot : ¬(b.track t).inQueue = true := by
    rw [hout]
    exact Bool.false_ne_true
  refine ⟨{ h with ok := fun u => ?_, frames := fun f hm => ?_ }, ht, hout⟩
  · change TrackOk strict _ u ((b.setTrack t _).track u)
    have hu := h.ok u
    by_cases he : u = t
    · subst he
      rw [setTrack_self]
      refine { hu with
        idle := fun hq => absurd hq hnot, adding := ?_
        fresh := fun hle => absurd ht (Nat.not_lt_of_le hle) }
      dsimp only
      rw [hadding]
      exact Nat.add_sub_cancel _ _
    · rw [setTrack_of_ne b _ he]
      refine { hu with adding := ?_ }
      have hcount := hu.adding
      rwa [hf, countP_adding_of_ne name frames he] at hcount
  · exact h.frames f (hf ▸ List.mem_cons_of_mem _ hm)

theorem TrackBus.Inv.addName (h : b.Inv strict) (ht : t < b.nTracks) (name : Str)
    (failure : Option AddFailure) :
    ∀ r, addNameBegin b t name failure = r → (r.2.isSome = true → r.1.Inv strict) ∧
      (r.2.isSome = false →
        ({ r.1 with frames := .adding t name :: r.1.frames } : TrackBus).Inv strict) := by
  rintro r rfl
  have hremoved := h.removeFromQueue t
  have hrest := removeFromQueue_rest b t
  unfold addNameBegin
  dsimp only
  split
  · exact ⟨fun _ => h, fun hf => nomatch hf⟩
  split
  · split
    · split
      · exact ⟨fun _ => h, fun hf => nomatch hf⟩
      · have hset := h.setTrack ((h.ok t).same
          (y := { b.track t with nRef := (b.track t).nRef + 1 }) ht rfl rfl rfl rfl rfl)
        exact ⟨fun _ => hset.removeFromQueue t, fun hf => nomatch hf⟩
    · exact ⟨fun _ => hremoved, fun hf => nomatch hf⟩
  split
  · exact ⟨fun _ => h, fun hf => nomatch hf⟩
  · exact ⟨fun _ => hremoved.addToQueue t, fun hf => nomatch hf⟩
  · exact ⟨fun _ => hremoved.addToQueue t, fun hf => nomatch hf⟩
  · refine ⟨fun hf => (nomatch hf), fun _ => ?_⟩
    have htrack := removeFromQueue_track b t
    have hlt : t < (busTrackRemoveFromQueue b t).nTracks := by
      rw [hrest.nTracks]
      exact ht
    refine hremoved.pushAdding hlt ?_ name ?_ rfl rfl
    · rw [htrack]
    · rw [htrack]
      rfl

theorem TrackBus.Inv.added {name : Str} {frames : List TrackFrame} (h : b.Inv strict)
    (hf : b.frames = .adding t name :: frames) (creds : Option Errno) :
    (addNameEnd { b with frames := frames } t name creds).1.Inv strict := by
  obtain ⟨hpopped, ht, hout⟩ := h.popAdding hf
  unfold addNameEnd
  dsimp only
  generalize hb : ({ b with frames := frames } : TrackBus).setTrack t
    { b.track t with nAdding := (b.track t).nAdding - 1 } = b₁ at hpopped
  have ht₁ : t < b₁.nTracks := hb ▸ ht
  have hout₁ : (b₁.track t).inQueue = false := by
    rw [← hb, setTrack_self]
    exact hout
  split
  · have hset := hpopped.setTrack
      ((hpopped.ok t).setOut (y := (b₁.track t).remove name) ht₁ hout₁ hout₁ rfl id)
    exact hset.addToQueue t
  · have hset := hpopped.setTrack
      ((hpopped.ok t).setOut (y := (b₁.track t).setItem name 1) ht₁ hout₁ hout₁ rfl id)
    have hgone := hset.removeFromQueue t
    have hlt : t < (busTrackRemoveFromQueue (b₁.setTrack t ((b₁.track t).setItem name 1)) t).nTracks
        := by
      rw [(removeFromQueue_rest _ t).nTracks]
      exact ht₁
    exact hgone.setTrack ((hgone.ok t).same hlt rfl rfl rfl rfl rfl)


/-! ## Trackers come and go -/

theorem TrackBus.Inv.new (h : b.Inv strict) (handler : Bool) :
    (sdBusTrackNew b handler).1.Inv strict := by
  unfold sdBusTrackNew
  split
  · exact h
  dsimp only
  apply TrackBus.Inv.addToQueue
  have hnew := h.ok b.nTracks
  have hempty := hnew.fresh le_rfl
  refine { nodup := h.nodup, ok := fun u => ?_, frames := fun f hf => (h.frames f hf).trans
             (Nat.lt_succ_self _)
           tracks := fun u hu => ?_, called := fun c hc => ?_, lateOnce := h.lateOnce }
  · have hu := h.ok u
    by_cases he : u = b.nTracks
    · subst he
      rw [setTrack_self]
      have hout : ¬(b.track b.nTracks).inQueue = true := by
        rw [hempty]
        exact Bool.false_ne_true
      refine { linked := iff_of_false (fun hm => hout (hnew.linked.mp hm)) Bool.false_ne_true
               idle := fun hf => absurd hf Bool.false_ne_true, adding := ?_
               fresh := fun hle => absurd hle (Nat.not_le_of_lt (Nat.lt_succ_self _))
               late := fun hc => ?_, notClosed := fun _ hf => absurd hf Bool.false_ne_true }
      · have hadding := hnew.adding
        rw [hempty] at hadding
        exact hadding
      · -- no handler of a tracker that did not exist was called
        obtain ⟨c, hc, hlate⟩ := List.countP_pos_iff.mp hc
        have hlt := (h.called c hc).1
        rw [HandlerCall.late, Bool.and_eq_true, decide_eq_true_eq] at hlate
        rw [hlate.1] at hlt
        exact absurd hlt (Nat.lt_irrefl _)
    · rw [setTrack_of_ne _ _ he]
      exact { hu with fresh := fun hle => hu.fresh ((Nat.le_succ _).trans hle) }
  · rcases List.mem_cons.mp hu with rfl | hu
    · exact Nat.lt_succ_self _
    · exact (h.tracks u hu).trans (Nat.lt_succ_self _)
  · exact ⟨(h.called c hc).1.trans (Nat.lt_succ_self _), (h.called c hc).2⟩

theorem TrackBus.Inv.ref (h : b.Inv strict) (ht : t < b.nTracks) :
    (sdBusTrackRef b t).Inv strict :=
  h.setTrack ((h.ok t).same ht rfl rfl rfl rfl rfl)

theorem TrackBus.Inv.free (h : b.Inv strict) (ht : t < b.nTracks) :
    (trackFree b t).Inv strict := by
  unfold trackFree
  dsimp only
  generalize hl : (if (b.track t).inList = true then b.tracks.erase t else b.tracks) = l
  have hmem : ∀ u ∈ l, u ∈ b.tracks := by
    intro u hu
    rw [← hl] at hu
    split_ifs at hu
    · exact List.mem_of_mem_erase hu
    · exact hu
  have hlisted : ({ b with tracks := l } : TrackBus).Inv strict :=
    { h with
      ok := fun u => { h.ok u with }
      tracks := fun u hu => h.tracks u (hmem u hu) }
  have hgone := hlisted.removeFromQueue t
  refine hgone.setTrack ((hgone.ok t).setOut ?_ ?_ ?_ rfl fun hf => absurd hf Bool.false_ne_true)
  · rw [(removeFromQueue_rest _ t).nTracks]
    exact ht
  · rw [removeFromQueue_track]
  · rw [removeFromQueue_track]

theorem TrackBus.Inv.unref (h : b.Inv strict) (ht : t < b.nTracks) :
    (sdBusTrackUnref b t).Inv strict := by
  have hset : (b.setTrack t { b.track t with nRef := (b.track t).nRef - 1 }).Inv strict :=
    h.setTrack ((h.ok t).same ht rfl rfl rfl rfl rfl)
  unfold sdBusTrackUnref
  dsimp only
  split
  · exact hset
  · exact hset.free ht

theorem TrackBus.Inv.setRecursive (h : b.Inv strict) (ht : t < b.nTracks) (v : Bool) :
    (sdBusTrackSetRecursive b t v).Inv strict := by
  unfold sdBusTrackSetRecursive
  dsimp only
  split
  · exact h
  split
  · exact h
  · exact h.setTrack ((h.ok t).same ht rfl rfl rfl rfl rfl)

theorem TrackBus.Inv.dispatched (h : b.Inv strict) (ht : t < b.nTracks)
    (hnames : (b.track t).names = [])
    (hlate : (b.track t).inList = false → b.called.countP (HandlerCall.late t) = 0) :
    (busTrackDispatch b t).Inv strict := by
  unfold busTrackDispatch
  dsimp only
  have hgone := h.removeFromQueue t
  have hrest := removeFromQueue_rest b t
  have htrack := removeFromQueue_track b t
  have hlt : t < (busTrackRemoveFromQueue b t).nTracks := by
    rw [hrest.nTracks]
    exact ht
  have href := hgone.ref hlt
  generalize hr : busTrackRemoveFromQueue b t = b₁ at *
  have hself : (sdBusTrackRef b₁ t).track t = { b₁.track t with nRef := (b₁.track t).nRef + 1 } :=
    setTrack_self _ _ _
  rw [htrack] at hself
  have hcalled : b₁.called = b.called := hrest.called
  let c : HandlerCall :=
    { track := t, nNames := ((sdBusTrackRef b₁ t).track t).names.length
      closed := !((sdBusTrackRef b₁ t).track t).inList }
  have hclosed : c.closed = !(b.track t).inList := by
    change (!((sdBusTrackRef b₁ t).track t).inList) = _
    rw [hself]
  have hcount : ∀ u, (b₁.called ++ [c]).countP (HandlerCall.late u) =
      b.called.countP (HandlerCall.late u) +
        if u = t ∧ (b.track t).inList = false then 1 else 0 := by
    intro u
    rw [List.countP_append, List.countP_singleton, hcalled]
    refine congrArg _ (if_congr ?_ rfl rfl)
    rw [HandlerCall.late, hclosed, Bool.and_eq_true, decide_eq_true_eq, Bool.not_eq_true',
      eq_comm]
  refine { href with ok := fun u => ?_, frames := fun f hf => ?_, called := fun d hd => ?_
                     lateOnce := fun u => ?_ }
  · have hu := href.ok u
    refine { hu with adding := ?_, late := fun hpos => ?_ }
    · exact hu.adding.trans (countP_handling t u _).symm
    · change 0 < (b₁.called ++ [c]).countP (HandlerCall.late u) at hpos
      rw [hcount] at hpos
      by_cases hc : u = t ∧ (b.track t).inList = false
      · obtain ⟨rfl, hout⟩ := hc
        rw [hself]
        exact hout
      · rw [if_neg hc, Nat.add_zero, ← hcalled] at hpos
        exact hu.late hpos
  · rcases List.mem_cons.mp hf with rfl | hf
    · exact hlt
    · exact href.frames f hf
  · rcases List.mem_append.mp hd with hd | hd
    · exact href.called d hd
    · obtain rfl := List.mem_singleton.mp hd
      refine ⟨hlt, ?_⟩
      change ((sdBusTrackRef b₁ t).track t).names.length = 0
      rw [hself, hnames]
      rfl
  · change (b₁.called ++ [c]).countP (HandlerCall.late u) ≤ 1
    rw [hcount]
    by_cases hc : u = t ∧ (b.track t).inList = false
    · rw [if_pos hc, hc.1, hlate hc.2]
    · rw [if_neg hc]
      exact h.lateOnce u

theorem TrackBus.Inv.popHandling {frames : List TrackFrame} (h : b.Inv strict)
    (hf : b.frames = .handling t :: frames) :
    ({ b with frames := frames } : TrackBus).Inv strict := by
  refine { h with ok := fun u => ?_, frames := fun f hm => ?_ }
  · have hu := h.ok u
    refine { hu with adding := ?_ }
    have hadding := hu.adding
    rwa [hf, countP_handling] at hadding
  · exact h.frames f (hf ▸ List.mem_cons_of_mem _ hm)

theorem TrackBus.Inv.returned (h : b.Inv strict) (ht : t < b.nTracks) (r : Int) :
    (busTrackDispatched b t r).Inv strict := by
  unfold busTrackDispatched
  split
  · refine (h.addToQueue t).unref ?_
    rw [(addToQueue_rest b t).nTracks]
    exact ht
  · exact h.unref ht


theorem TrackBus.Inv.flush (h : b.Inv strict) (ht : t < b.nTracks)
    (hne : (b.track t).names ≠ []) :
    (b.setTrack t { b.track t with names := [] }).Inv strict := by
  have hout := (h.ok t).out_of_names hne
  exact h.setTrack ((h.ok t).setOut ht hout hout rfl id)

theorem TrackBus.Inv.close (h : b.Inv strict) (ht : t < b.nTracks) (hclosing : b.closing = true)
    (hs : strict = true → (b.track t).inQueue = false) : (busTrackClose b t).Inv strict := by
  unfold busTrackClose
  by_cases hl : (!(b.track t).inList) = true
  · rw [if_pos hl]
    exact h
  rw [if_neg hl]
  rw [Bool.not_eq_true', Bool.not_eq_false] at hl
  have ht' := h.ok t
  have hset : (b.setTrack t { b.track t with inList := false }).Inv strict := by
    refine h.setTrack { ht' with
      fresh := fun hle => absurd ht (Nat.not_lt_of_le hle), late := fun _ => rfl
      notClosed := fun hor hq => ?_ }
    rcases hor with hor | hor
    · exact absurd (hs hor) (by rw [hq]; decide)
    · rw [hclosing] at hor
      cases hor
  have hb₁ : ({ b.setTrack t { b.track t with inList := false } with
      tracks := b.tracks.erase t } : TrackBus).Inv strict :=
    { hset with
      ok := fun u => { hset.ok u with }
      tracks := fun u hu => h.tracks u (List.mem_of_mem_erase hu) }
  have hself : (({ b.setTrack t { b.track t with inList := false } with
      tracks := b.tracks.erase t } : TrackBus).track t).names = (b.track t).names := by
    change ((b.setTrack t { b.track t with inList := false }).track t).names = _
    rw [setTrack_self]
  dsimp only
  split_ifs with hnames hhandler
  · exact hb₁
  · have hflushed := hb₁.flush ht (hself ▸ fun hn => hnames (List.length_eq_zero_iff.mpr hn))
    refine hflushed.dispatched ht ?_ fun _ => ?_
    · rw [setTrack_self]
    · by_contra hpos
      have hgone := ht'.late (Nat.pos_of_ne_zero hpos)
      rw [hl] at hgone
      cases hgone
  · exact hb₁.flush ht (hself ▸ fun hn => hnames (List.length_eq_zero_iff.mpr hn))

theorem TrackBus.Inv.exec (h : b.Inv strict) (op : TrackOp)
    (hs : strict = true → op.Spares b) : (op.exec b).Inv strict := by
  cases op with
  | new handler => exact h.new handler
  | ref t =>
    rw [TrackOp.exec]
    split_ifs with hl
    · exact h.ref (h.lt_of_live hl)
    · exact h
  | unref t =>
    rw [TrackOp.exec]
    split_ifs with hl
    · exact h.unref (h.lt_of_live hl.1)
    · exact h
  | setRecursive t v =>
    rw [TrackOp.exec]
    split_ifs with hl
    · exact h.setRecursive (h.lt_of_live hl) v
    · exact h
  | addName t name failure =>
    rw [TrackOp.exec]
    split_ifs with hl
    · obtain ⟨hdone, hwaits⟩ := h.addName (h.lt_of_live hl) name failure _ rfl
      split
      · rename_i b₁ r heq
        rw [heq] at hdone
        exact hdone rfl
      · rename_i b₁ heq
        rw [heq] at hwaits
        exact hwaits rfl
    · exact h
  | added creds =>
    rw [TrackOp.exec]
    split
    · rename_i t name frames hf
      exact h.added hf creds
    · exact h
  | removeName t name =>
    rw [TrackOp.exec]
    split_ifs with hl
    · exact h.removeName (h.lt_of_live hl) name
    · exact h
  | ownerChanged t name =>
    rw [TrackOp.exec]
    split_ifs with hl
    · exact h.removeNameFully (h.lt_of_live hl) name
    · exact h
  | dispatch =>
    rw [TrackOp.exec]
    split
    · rename_i t l hqueue
      split_ifs with hc
      · exact h
      · have hq := (h.ok t).linked.mp (hqueue ▸ List.mem_cons_self)
        have hlist := (h.ok t).notClosed (.inr (Bool.eq_false_of_not_eq_true hc)) hq
        refine h.dispatched ?_ ((h.ok t).idle hq).1 fun hf => ?_
        · by_contra hle
          rw [(h.ok t).fresh (Nat.le_of_not_lt hle)] at hq
          cases hq
        · rw [hlist] at hf
          cases hf
    · exact h
  | returned r =>
    rw [TrackOp.exec]
    split
    · rename_i t frames hf
      exact (h.popHandling hf).returned (h.frames (.handling t) (hf ▸ List.mem_cons_self)) r
    · exact h
  | enterClosing =>
    refine { h with ok := fun u => { h.ok u with notClosed := fun hor => ?_ } }
    exact (h.ok u).notClosed (.inl (hor.resolve_right (show ¬true = false by decide)))
  | close =>
    rw [TrackOp.exec]
    split
    · rename_i t l htracks
      split_ifs with hc
      · refine h.close (h.tracks t (htracks ▸ List.mem_cons_self)) hc fun hstrict => ?_
        exact hs hstrict rfl hc t (by rw [htracks]; rfl)
      · exact h
    · exact h

theorem inv_initial (strict : Bool) : ({} : TrackBus).Inv strict where
  ok := fun _ => ⟨iff_of_false List.not_mem_nil Bool.false_ne_true,
    fun hf => absurd hf Bool.false_ne_true, rfl, fun _ => rfl,
    fun hf => absurd hf (Nat.lt_irrefl 0), fun _ hf => absurd hf Bool.false_ne_true⟩
  nodup := List.nodup_nil
  frames := fun _ hf => absurd hf List.not_mem_nil
  tracks := fun _ ht => absurd ht List.not_mem_nil
  called := fun _ hc => absurd hc List.not_mem_nil
  lateOnce := fun _ => Nat.zero_le _

theorem spares_of_inv {op : TrackOp} (h : b.Inv true) (h' : (op.exec b).Inv true) :
    op.Spares b := by
  rintro rfl hc t ht
  by_contra hq
  rw [Bool.not_eq_false] at hq
  obtain ⟨l, htracks⟩ : ∃ l, b.tracks = t :: l := by
    cases hl : b.tracks with
    | nil =>
      rw [hl] at ht
      cases ht
    | cons u l =>
      rw [hl] at ht
      cases ht
      exact ⟨l, rfl⟩
  have hlist := (h.ok t).notClosed (.inl rfl) hq
  have hnames := ((h.ok t).idle hq).1
  rw [TrackOp.exec, htracks] at h'
  dsimp only at h'
  rw [if_pos hc, busTrackClose, hlist, if_neg (by decide)] at h'
  dsimp only at h'
  rw [if_pos (List.length_eq_zero_iff.mpr hnames)] at h'
  have hstill := (h'.ok t).notClosed (.inl rfl)
  change ((b.setTrack t { b.track t with inList := false }).track t).inQueue = true →
    ((b.setTrack t { b.track t with inList := false }).track t).inList = true at hstill
  rw [setTrack_self] at hstill
  exact Bool.false_ne_true (hstill hq)

/-- The queue is as it should be in all states of a run if and only if no tracker is closed while
it is in the queue. -/
theorem trackRun_queueOk (ops : List TrackOp) :
    StepsAll TrackOp.exec TrackOp.Spares {} ops ↔
      StatesAll TrackOp.exec TrackBus.QueueOk {} ops := by
  have hiff := stepsAll_iff_statesAll (P := TrackOp.Spares) (I := TrackBus.Inv true)
    (fun b op h => ⟨fun hp => h.exec op fun _ => hp, fun h' => spares_of_inv h h'⟩) ops
    (inv_initial true)
  have hinv : StatesAll TrackOp.exec (TrackBus.Inv false) {} ops :=
    statesAll_of_kept (fun b op h => h.exec op fun hf => absurd hf Bool.false_ne_true) ops
      (inv_initial false)
  rw [hiff]
  constructor
  · exact StatesAll.imp (fun b h => h.queueOk) ops
  · intro hok
    exact StatesAll.imp (fun b h => h.1.strict_iff.mpr h.2) ops (hinv.and ops hok)


/-- A new tracker is in the queue, and there it stays when the bus closes it. -/
theorem not_trackRun_queueOk :
    ¬StatesAll TrackOp.exec TrackBus.QueueOk {} [.new true, .enterClosing, .close] := by
  intro h
  have hok := h.last
  have hin : (0 : Nat) ∈ (trackRun {} [.new true, .enterClosing, .close]).trackQueue := by decide
  have hout : ((trackRun {} [.new true, .enterClosing, .close]).track 0).inList = false := by
    decide
  exact Bool.false_ne_true (hout.symm.trans (hok.notClosed 0 hin))

end Basu
