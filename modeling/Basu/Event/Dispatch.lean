import Basu.Event.Source

/-! One iteration of the event loop (`sd-event.c`): `sd_event_prepare`, `sd_event_wait` and
`sd_event_dispatch`. The handlers run in between with the lock released and make calls of their own,
so the link that a loop has saved may have moved when they return. -/

namespace Basu.Event
open Function

inductive Link
  | head (k : SourceList)
  | entry (i : Nat)
  deriving DecidableEq, Repr

def Link.first (k : SourceList) : List Nat → Link
  | [] => .head k
  | i :: _ => .entry i

def Link.after (k : SourceList) (i : Nat) : List Nat → Link
  | [] => .head k
  | j :: l => if j = i then Link.first k l else Link.after k i l

def Loop.next (e : Loop) : Link → Link
  | .head k => Link.first k (e.list k)
  | .entry i =>
    match SourceList.all.find? fun k => i ∈ e.list k with
    | none => .entry i
    | some k => Link.after k i (e.list k)

def Source.processTimer (s : Source) : Source :=
  if s.enabled = .off then s
  else
    let s := if s.expired && !s.pending then
        { s with pending := true, enabled := if s.enabled = .oneshot then .off else s.enabled }
      else s
    if 0 < s.pipe then
      { s with
        pipe := s.pipe - 8
        pending := true
        enabled := if s.enabled = .oneshot then .off else s.enabled }
    else s

def Source.processDeferred (s : Source) : Source :=
  if s.enabled = .off then s else { s with pending := true }

def Loop.forEach (e : Loop) (k : SourceList) (f : Source → Source) : Loop :=
  (e.list k).foldl (fun e i => e.modify i f) e

def sdEventPrepare (e : Loop) : Loop :=
  let e := { e with state := .preparing }
  let e := (e.forEach .timerSources Source.processTimer).forEach .deferSources
    Source.processDeferred
  { e with prepared := true, state := .armed }

def sdEventWaitBegin (e : Loop) : Loop := if e.prepared then e else sdEventPrepare e

def sdEventWaitEnd (e : Loop) (ret : Int) : Loop :=
  { e with state := if ret = 0 then .pending else .armed }

structure Ran where
  type : SourceType
  source : Nat
  deriving DecidableEq, Repr

structure Running where
  loop : Loop := {}
  log : List (Loop × Ran) := []
  calls : List (Loop × EventOp) := []

/-- How a piece of the code ended: it came to its end, it followed a pointer to something else than
a live source, or the model ran out of fuel. -/
inductive Outcome
  | done
  | undefined
  | outOfFuel
  deriving DecidableEq, Repr

/-- The calls that are made while a handler runs, by it or by another thread, and the files the
dispatch context has events for. Both may depend on what happened before. -/
structure Handlers where
  act : List (Loop × Ran) → Ran → List EventOp
  files : Running → List Nat
  ret : Int := 0

def Running.exec (r : Running) (op : EventOp) : Running :=
  { r with loop := op.exec r.loop, calls := r.calls ++ [(r.loop, op)] }

def Running.call (h : Handlers) (r : Running) (c : Ran) : Running :=
  (h.act r.log c).foldl Running.exec { r with log := r.log ++ [(r.loop, c)] }

def Running.modify (r : Running) (i : Nat) (f : Source → Source) : Running :=
  { r with loop := r.loop.modify i f }

def Source.isDue (s : Source) : Bool := s.pending && s.enabled ≠ .off

def Source.unpend (s : Source) : Source := { s with pending := false }

def Source.shot (s : Source) : Source :=
  { s with enabled := if s.enabled = .oneshot then .off else s.enabled }

/-- The handler of a source is called as one of a type, and the source looked at again when it is
back. -/
def Running.callOn (h : Handlers) (t : SourceType) (i : Nat) (r : Running) : Running × Outcome :=
  if (r.loop.source i).type = t then
    let r := r.call h ⟨t, i⟩
    if (r.loop.source i).live then (r.modify i Source.shot, .done) else (r, .undefined)
  else (r, .undefined)

def visit (h : Handlers) (t : SourceType) (i : Nat) (r : Running) : Running × Outcome :=
  if (r.loop.source i).isDue then
    (r.modify i Source.unpend).callOn h t i
  else (r, .done)

def forEachSafe (v : Nat → Running → Running × Outcome) (k : SourceList) :
    Nat → Link → Link → Running → Running × Outcome
  | 0, _, _, r => (r, .outOfFuel)
  | _ + 1, .head k', _, r => (r, if k' = k then .done else .undefined)
  | fuel + 1, .entry i, safe, r =>
    if !(r.loop.source i).live then (r, .undefined)
    else
      let x := v i r
      match x.2 with
      | .done => forEachSafe v k fuel safe (x.1.loop.next safe) x.1
      | o => (x.1, o)

def forList (v : Nat → Running → Running × Outcome) (k : SourceList) (fuel : Nat) (r : Running) :
    Running × Outcome :=
  let iter := r.loop.next (.head k)
  forEachSafe v k fuel iter (r.loop.next iter) r

def Source.notify (s : Source) : Source := { s with pipe := 0, pending := true, expired := true }

/-- `dispatch_context_dispatch`: the callbacks of the files that have events and are selected. -/
def dispatchFiles (h : Handlers) : List Nat → Running → Running
  | [], r => r
  | i :: l, r =>
    let s := r.loop.source i
    if !s.live || s.userMask = 0 then dispatchFiles h l r
    else if s.type = .io then dispatchFiles h l (r.call h ⟨.io, i⟩)
    else if s.type = .time then dispatchFiles h l (r.modify i Source.notify)
    else dispatchFiles h l r

def dispatchRest (h : Handlers) (fuel : Nat) (r : Running) : Running × Outcome :=
  if r.loop.exitRequested then (r, .done)
  else
    let x := forList (visit h .time) .timerSources fuel r
    match x.2 with
    | .done =>
      let r := dispatchFiles h (h.files x.1) x.1
      ({ r with loop := { r.loop with prepared := false, state := .initial } }, .done)
    | o => (x.1, o)

def sdEventDispatch (h : Handlers) (fuel : Nat) (r : Running) : Running × Outcome :=
  let x := forList (visit h .defer) .deferSources fuel r
  match x.2 with
  | .done => dispatchRest h fuel x.1
  | o => (x.1, o)

def visitExit (h : Handlers) (i : Nat) (r : Running) : Running × Outcome :=
  if (r.loop.source i).enabled ≠ .off then r.callOn h .exit i else (r, .done)

/-- What happens to an event loop: calls from outside, the clock, a work item that is due, and the
pieces of an iteration. `sd_event_wait` releases the lock for the poll. -/
inductive LoopOp
  | call (op : EventOp)
  | tick (t : UInt64)
  | expire (i : Nat)
  | prepare
  | waitBegin
  | waitEnd (ret : Int)
  | dispatch (h : Handlers) (fuel : Nat)
  | exitHandlers (h : Handlers) (fuel : Nat)

def Running.update (r : Running) (f : Loop → Loop) : Running := { r with loop := f r.loop }

def Loop.tick (e : Loop) (t : UInt64) : Loop := if e.now ≤ t then { e with now := t } else e

def Loop.expires (e : Loop) (i : Nat) : Bool :=
  (e.source i).live && (e.source i).type = .time && match (e.source i).work with
    | none => false
    | some t => t ≤ e.now.toNat

def Loop.expire (e : Loop) (i : Nat) : Loop := if e.expires i then timerWorkHandler e i else e

def LoopOp.exec (r : Running) : LoopOp → Running
  | .call op => r.exec op
  | .tick t => r.update fun e => e.tick t
  | .expire i => r.update fun e => e.expire i
  | .prepare => r.update sdEventPrepare
  | .waitBegin => r.update sdEventWaitBegin
  | .waitEnd ret => r.update fun e => sdEventWaitEnd e ret
  | .dispatch h fuel => (sdEventDispatch h fuel r).1
  | .exitHandlers h fuel => (forList (visitExit h) .exitSources fuel r).1

def eventRun (ops : List LoopOp) : Running := ops.foldl LoopOp.exec {}

end Basu.Event
