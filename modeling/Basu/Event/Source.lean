import Basu.Lib.Run
import Mathlib.Logic.Function.Basic
import Mathlib.Data.List.Nodup
import Mathlib.Algebra.Order.Ring.Int

/-! Event sources and the calls on them (`sd-event.c`). Sources are numbered as they are allocated;
each of the intrusive lists is the list of the sources linked in it, from its head on. -/

namespace Basu.Event
open Function

inductive SourceType
  | io
  | time
  | signal
  | child
  | defer
  | post
  | exit
  deriving DecidableEq, Repr

inductive Enabled
  | off
  | on
  | oneshot
  deriving DecidableEq, Repr

inductive LoopState
  | initial
  | armed
  | pending
  | running
  | exiting
  | finished
  | preparing
  deriving DecidableEq, Repr

inductive SourceList
  | sources
  | timerSources
  | deferSources
  | signalSources
  | exitSources
  deriving DecidableEq, Repr

def SourceList.all : List SourceList :=
  [.sources, .timerSources, .deferSources, .signalSources, .exitSources]

/-- `struct sd_event_source`. For a time source `usec` is the target time, `work` the time its work
item is scheduled for (a delay from now on, so it may be past the largest target), and `pipe` the
bytes in its notification pipe; `owed` says that no expiry has been delivered since the target was
set, no code reads it. -/
structure Source where
  live : Bool := true
  type : SourceType := .io
  enabled : Enabled := .on
  priority : Int := 0
  pending : Bool := false
  refCount : Nat := 1
  events : UInt32 := 0
  userMask : UInt32 := 0
  usec : UInt64 := 0
  expired : Bool := false
  pipe : Nat := 0
  work : Option Nat := none
  owed : Bool := false
  deriving DecidableEq, Repr

structure Loop where
  source : Nat → Source := fun _ => { live := false }
  nSources : Nat := 0
  list : SourceList → List Nat := fun _ => []
  exitRequested : Bool := false
  exitCode : Int := 0
  prepared : Bool := false
  state : LoopState := .initial
  now : UInt64 := 0

def Loop.setSource (e : Loop) (i : Nat) (s : Source) : Loop :=
  { e with source := update e.source i s }

def Loop.setList (e : Loop) (k : SourceList) (l : List Nat) : Loop :=
  { e with list := update e.list k l }

def Loop.isLinked (e : Loop) (i : Nat) : Bool := SourceList.all.any fun k => i ∈ e.list k

def Loop.unlink (e : Loop) (i : Nat) : Loop := { e with list := fun k => (e.list k).erase i }

def Loop.linkTail (e : Loop) (k : SourceList) (i : Nat) : Loop := e.setList k (e.list k ++ [i])

def insertSorted (priority : Nat → Int) (i : Nat) : List Nat → List Nat
  | [] => [i]
  | j :: l =>
    if priority j ≥ priority i then i :: j :: l else j :: insertSorted priority i l

def Loop.sourceInsertSorted (e : Loop) (i : Nat) : Loop :=
  e.setList .sources (insertSorted (fun j => (e.source j).priority) i (e.list .sources))

def deferInsertSorted (priority : Nat → Int) (i : Nat) : List Nat → List Nat
  | [] => [i]
  | j :: l =>
    if priority i ≤ priority j then
      if priority i = priority j then j :: deferInsertSorted priority i l else i :: j :: l
    else j :: deferInsertSorted priority i l

def Loop.deferSourceInsertSorted (e : Loop) (i : Nat) : Loop :=
  e.setList .deferSources
    (deferInsertSorted (fun j => (e.source j).priority) i (e.list .deferSources))

def Loop.sourceNew (e : Loop) (type : SourceType) : Loop :=
  let i := e.nSources
  let e := { e with nSources := i + 1 }.setSource i { type := type }
  if type = .io then e.sourceInsertSorted i else e

def Loop.modify (e : Loop) (i : Nat) (f : Source → Source) : Loop :=
  e.setSource i (f (e.source i))

/-- What the functions called by `sd_event_add_io` and `sd_event_add_time` come to: `socketpair`,
`dispatch_file_init`, and the user mask that the latter leaves. -/
structure AddResult where
  pipeOk : Bool := true
  fileOk : Bool := true
  initialMask : UInt32 := 0

def sdEventAddIo (e : Loop) (events : UInt32) (r : AddResult) : Loop :=
  let i := e.nSources
  let e := (e.sourceNew .io).modify i fun s => { s with events := events }
  if !r.fileOk then e.modify i fun s => { s with live := false }
  else e.modify i fun s => { s with userMask := r.initialMask }

def epollin : UInt32 := 1

def sdEventAddTime (e : Loop) (usec : UInt64) (r : AddResult) : Loop :=
  let i := e.nSources
  let e := e.sourceNew .time
  if !r.pipeOk then e.modify i fun s => { s with live := false }
  else
    -- the relative timeout is scheduled before the file is set up
    let e := e.modify i fun s =>
      { s with usec := e.now + usec, owed := true, work := some (e.now.toNat + usec.toNat) }
    if !r.fileOk then e.modify i fun s => { s with live := false }
    else
      (e.modify i fun s => { s with userMask := r.initialMask ||| epollin }).linkTail
        .timerSources i

def sdEventAddDefer (e : Loop) : Loop :=
  let i := e.nSources
  ((e.sourceNew .defer).modify i fun s => { s with enabled := .oneshot }).deferSourceInsertSorted i

def sdEventAddPost (e : Loop) : Loop := e.sourceNew .post

def sdEventAddExit (e : Loop) : Loop := (e.sourceNew .exit).linkTail .exitSources e.nSources

def sdEventSourceSetPriority (e : Loop) (i : Nat) (priority : Int) : Loop :=
  if e.isLinked i then
    let e := (e.unlink i).modify i fun s => { s with priority := priority }
    if (e.source i).type = .defer then e.deferSourceInsertSorted i else e.sourceInsertSorted i
  else e.modify i fun s => { s with priority := priority }

/-- For a time source only `k_timer` is started, and its expiry function is never set. -/
def Source.setEnabled (s : Source) (enabled : Enabled) : Source :=
  let s := { s with enabled := enabled }
  if s.type = .io then
    if enabled = .on then { s with userMask := s.userMask ||| s.events }
    else if enabled = .off then { s with userMask := s.userMask &&& ~~~s.events }
    else s
  else s

def sdEventSourceSetEnabled (e : Loop) (i : Nat) (enabled : Enabled) : Loop :=
  e.modify i fun s => s.setEnabled enabled

def Source.setTime (s : Source) (now usec : UInt64) : Source :=
  let s := { s with usec := usec, owed := true, pending := false, expired := false }
  if s.enabled = .on then
    let timeout := if now < usec then usec - now else 0
    { s with work := some (now.toNat + timeout.toNat) }
  else s

def sdEventSourceSetTime (e : Loop) (i : Nat) (usec : UInt64) : Loop :=
  if (e.source i).type ≠ .time then e else e.modify i fun s => s.setTime e.now usec

def sdEventSourceRef (e : Loop) (i : Nat) : Loop :=
  e.modify i fun s => { s with refCount := s.refCount + 1 }

def sdEventSourceUnref (e : Loop) (i : Nat) : Loop :=
  if (e.source i).refCount = 1 then
    (e.unlink i).modify i fun s =>
      { s with refCount := 0, userMask := 0, work := none, live := false }
  else e.modify i fun s => { s with refCount := s.refCount - 1 }

def sdEventExit (e : Loop) (code : Int) : Loop :=
  { e with exitRequested := true, exitCode := code, state := .exiting }

/-- The calls an application makes, in a handler or elsewhere. -/
inductive EventOp
  | addIo (events : UInt32) (r : AddResult)
  | addTime (usec : UInt64) (r : AddResult)
  | addDefer
  | addPost
  | addExit
  | setPriority (i : Nat) (priority : Int)
  | setEnabled (i : Nat) (enabled : Enabled)
  | setTime (i : Nat) (usec : UInt64)
  | ref (i : Nat)
  | unref (i : Nat)
  | exit (code : Int)

def EventOp.source? : EventOp → Option Nat
  | .setPriority i _ => some i
  | .setEnabled i _ => some i
  | .setTime i _ => some i
  | .ref i => some i
  | .unref i => some i
  | _ => none

def EventOp.allowed (e : Loop) (op : EventOp) : Bool :=
  match op.source? with
  | none => true
  | some i => (e.source i).live

def EventOp.run (e : Loop) : EventOp → Loop
  | .addIo events r => sdEventAddIo e events r
  | .addTime usec r => sdEventAddTime e usec r
  | .addDefer => sdEventAddDefer e
  | .addPost => sdEventAddPost e
  | .addExit => sdEventAddExit e
  | .setPriority i priority => sdEventSourceSetPriority e i priority
  | .setEnabled i enabled => sdEventSourceSetEnabled e i enabled
  | .setTime i usec => sdEventSourceSetTime e i usec
  | .ref i => sdEventSourceRef e i
  | .unref i => sdEventSourceUnref e i
  | .exit code => sdEventExit e code

def EventOp.exec (e : Loop) (op : EventOp) : Loop := if op.allowed e then op.run e else e

def Source.timerWork (s : Source) : Source :=
  let s := { s with work := none }
  if s.enabled = .off then s
  else
    { s with
      owed := false
      pending := true
      expired := true
      enabled := if s.enabled = .oneshot then .off else s.enabled
      pipe := s.pipe + 1 }

def timerWorkHandler (e : Loop) (i : Nat) : Loop := e.modify i Source.timerWork

end Basu.Event
