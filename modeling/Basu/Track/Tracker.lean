import Basu.Names
import Basu.Lib.Table
import Mathlib.Logic.Function.Basic

/-! Peers that are tracked (`bus-track.c`). A tracker watches the names that were added to it, and
its handler is called from a queue of the bus once there are none. Adding a name waits for a reply,
and while it waits, as while a handler runs, the bus may work on anything else. -/

namespace Basu
open Lib
open Function

/-- `struct sd_bus_track`. `names` is the hashmap from names to the counters of their items; a
tracker is live until it is freed. -/
structure Track where
  live : Bool := false
  nRef : Nat := 0
  nAdding : Nat := 0
  handler : Bool := false
  names : List (Str × Nat) := []
  inList : Bool := false
  inQueue : Bool := false
  modified : Bool := false
  recursive : Bool := false

/-- What is under way: a name is added and waits for its owner to be known, or a handler runs. -/
inductive TrackFrame
  | adding (track : Nat) (name : Str)
  | handling (track : Nat)
  deriving DecidableEq, Repr

structure HandlerCall where
  track : Nat
  nNames : Nat
  closed : Bool
  deriving DecidableEq, Repr

structure TrackBus where
  busClient : Bool := true
  closing : Bool := false
  nTracks : Nat := 0
  track : Nat → Track := fun _ => {}
  tracks : List Nat := []
  trackQueue : List Nat := []
  frames : List TrackFrame := []
  called : List HandlerCall := []

def TrackBus.setTrack (b : TrackBus) (t : Nat) (x : Track) : TrackBus :=
  { b with track := update b.track t x }

def Track.get (x : Track) (name : Str) : Option Nat := (Table.get Prod.fst x.names name).map (·.2)

def Track.contains (x : Track) (name : Str) : Bool := (x.get name).isSome

def Track.put (x : Track) (name : Str) : Track := { x with names := (name, 0) :: x.names }

def Track.remove (x : Track) (name : Str) : Track :=
  { x with names := Table.remove Prod.fst x.names name }

def Track.setItem (x : Track) (name : Str) (n : Nat) : Track :=
  { x with names := x.names.map fun p => if p.1 = name then (name, n) else p }

def Track.mayQueue (x : Track) : Bool :=
  !x.inQueue && x.nAdding = 0 && x.names.length = 0 && x.handler && x.inList

def busTrackAddToQueue (b : TrackBus) (t : Nat) : TrackBus :=
  if (b.track t).mayQueue then
    { b.setTrack t { b.track t with inQueue := true } with trackQueue := t :: b.trackQueue }
  else b

def busTrackRemoveFromQueue (b : TrackBus) (t : Nat) : TrackBus :=
  if (b.track t).inQueue then
    { b.setTrack t { b.track t with inQueue := false } with trackQueue := b.trackQueue.erase t }
  else b

def busTrackRemoveNameFully (b : TrackBus) (t : Nat) (name : Str) : TrackBus × Bool :=
  if (b.track t).contains name then
    let b := busTrackAddToQueue (b.setTrack t ((b.track t).remove name)) t
    (b.setTrack t { b.track t with modified := true }, true)
  else (b, false)

inductive AddFailure
  | alloc
  | match_ (r : Errno)
  | put (r : Errno)
  deriving DecidableEq, Repr

/-- `sd_bus_track_add_name` up to the question for the owner. Without a result it goes on with
`addNameEnd`. -/
def addNameBegin (b : TrackBus) (t : Nat) (name : Str) (failure : Option AddFailure) :
    TrackBus × Option (Except Errno Bool) :=
  let x := b.track t
  if !serviceNameIsValid name then (b, some (.error .einval))
  else if x.contains name then
    if x.recursive then
      -- the counter of the tracker, not that of the item
      if x.nRef = uint32Max then (b, some (.error .eoverflow))
      else
        (busTrackRemoveFromQueue (b.setTrack t { x with nRef := x.nRef + 1 }) t, some (.ok false))
    else (busTrackRemoveFromQueue b t, some (.ok false))
  else match failure with
    | some .alloc => (b, some (.error .enomem))
    | some (.match_ r) =>
      (busTrackAddToQueue (busTrackRemoveFromQueue b t) t, some (.error r))
    | some (.put r) => (busTrackAddToQueue (busTrackRemoveFromQueue b t) t, some (.error r))
    | none =>
      let b := busTrackRemoveFromQueue b t
      let x := (b.track t).put name
      (b.setTrack t { x with nAdding := x.nAdding + 1 }, none)

def addNameEnd (b : TrackBus) (t : Nat) (name : Str) (creds : Option Errno) :
    TrackBus × Except Errno Bool :=
  let b := b.setTrack t { b.track t with nAdding := (b.track t).nAdding - 1 }
  match creds with
  | some r => (busTrackAddToQueue (b.setTrack t ((b.track t).remove name)) t, .error r)
  | none =>
    -- the item may be gone by now; the code then writes to memory that it has freed
    let b := busTrackRemoveFromQueue (b.setTrack t ((b.track t).setItem name 1)) t
    (b.setTrack t { b.track t with modified := true }, .ok true)

def sdBusTrackAddName (b : TrackBus) (t : Nat) (name : Str) (failure : Option AddFailure)
    (creds : Option Errno) : TrackBus × Except Errno Bool :=
  match addNameBegin b t name failure with
  | (b, some r) => (b, r)
  | (b, none) => addNameEnd b t name creds

def sdBusTrackRemoveName (b : TrackBus) (t : Nat) (name : Str) : TrackBus × Except Errno Bool :=
  let x := b.track t
  if !x.recursive then
    let r := busTrackRemoveNameFully b t name
    (r.1, .ok r.2)
  else match x.get name with
    | none => (b, .error .eunatch)
    | some n =>
      if n = 0 then (b, .error .eunatch)
      else
        let b := b.setTrack t (x.setItem name (n - 1))
        if n - 1 = 0 then
          let r := busTrackRemoveNameFully b t name
          (r.1, .ok r.2)
        else (b, .ok true)

def sdBusTrackCountName (b : TrackBus) (t : Nat) (name : Str) : Except Errno Nat :=
  if !serviceNameIsValid name then .error .einval else .ok (((b.track t).get name).getD 0)

def sdBusTrackContains (b : TrackBus) (t : Nat) (name : Str) : Bool := (b.track t).contains name

def sdBusTrackNew (b : TrackBus) (handler : Bool) : TrackBus × Except Errno Nat :=
  if !b.busClient then (b, .error .einval)
  else
    let t := b.nTracks
    let b := { b with nTracks := t + 1, tracks := t :: b.tracks }
    (busTrackAddToQueue (b.setTrack t { live := true, nRef := 1, handler := handler, inList := true })
      t, .ok t)

def trackFree (b : TrackBus) (t : Nat) : TrackBus :=
  let b := { b with tracks := if (b.track t).inList then b.tracks.erase t else b.tracks }
  let b := busTrackRemoveFromQueue b t
  b.setTrack t { b.track t with live := false, inList := false, names := [] }

def sdBusTrackRef (b : TrackBus) (t : Nat) : TrackBus :=
  b.setTrack t { b.track t with nRef := (b.track t).nRef + 1 }

def sdBusTrackUnref (b : TrackBus) (t : Nat) : TrackBus :=
  let b := b.setTrack t { b.track t with nRef := (b.track t).nRef - 1 }
  if 0 < (b.track t).nRef then b else trackFree b t

def sdBusTrackSetRecursive (b : TrackBus) (t : Nat) (v : Bool) : TrackBus :=
  let x := b.track t
  if x.recursive = v then b
  else if x.names.length ≠ 0 then b
  else b.setTrack t { x with recursive := v }

def busTrackDispatch (b : TrackBus) (t : Nat) : TrackBus :=
  let b := sdBusTrackRef (busTrackRemoveFromQueue b t) t
  { b with
    frames := .handling t :: b.frames
    called := b.called ++
      [{ track := t, nNames := (b.track t).names.length, closed := !(b.track t).inList }] }

/-- The rest of `bus_track_dispatch`, with the sign of what the handler returned. -/
def busTrackDispatched (b : TrackBus) (t : Nat) (r : Int) : TrackBus :=
  sdBusTrackUnref (if r = 0 then busTrackAddToQueue b t else b) t

def busTrackClose (b : TrackBus) (t : Nat) : TrackBus :=
  let x := b.track t
  if !x.inList then b
  else
    let b := { b.setTrack t { x with inList := false } with tracks := b.tracks.erase t }
    if x.names.length = 0 then b
    else
      let b := b.setTrack t { b.track t with names := [] }
      if x.handler then busTrackDispatch b t else b

def TrackBus.inUse (b : TrackBus) (t : Nat) : Nat :=
  b.frames.countP fun f => match f with
    | .adding u _ => u = t
    | .handling u => u = t

inductive TrackOp
  | new (handler : Bool)
  | ref (t : Nat)
  | unref (t : Nat)
  | setRecursive (t : Nat) (v : Bool)
  | addName (t : Nat) (name : Str) (failure : Option AddFailure)
  | added (creds : Option Errno)
  | removeName (t : Nat) (name : Str)
  | ownerChanged (t : Nat) (name : Str)
  | dispatch
  | returned (r : Int)
  | enterClosing
  | close
  deriving DecidableEq, Repr

/-- One step. Only live trackers are used, no reference is dropped that something under way relies
on, and what is under way ends in the order of a stack. -/
def TrackOp.exec (b : TrackBus) : TrackOp → TrackBus
  | .new handler => (sdBusTrackNew b handler).1
  | .ref t => if (b.track t).live then sdBusTrackRef b t else b
  | .unref t =>
    if (b.track t).live ∧ b.inUse t < (b.track t).nRef then sdBusTrackUnref b t else b
  | .setRecursive t v => if (b.track t).live then sdBusTrackSetRecursive b t v else b
  | .addName t name failure =>
    if (b.track t).live then
      match addNameBegin b t name failure with
      | (b, some _) => b
      | (b, none) => { b with frames := .adding t name :: b.frames }
    else b
  | .added creds =>
    match b.frames with
    | .adding t name :: frames => (addNameEnd { b with frames := frames } t name creds).1
    | _ => b
  | .removeName t name => if (b.track t).live then (sdBusTrackRemoveName b t name).1 else b
  | .ownerChanged t name => if (b.track t).live then (busTrackRemoveNameFully b t name).1 else b
  | .dispatch =>
    match b.trackQueue with
    | t :: _ => if b.closing then b else busTrackDispatch b t
    | [] => b
  | .returned r =>
    match b.frames with
    | .handling t :: frames => busTrackDispatched { b with frames := frames } t r
    | _ => b
  | .enterClosing => { b with closing := true }
  | .close =>
    match b.tracks with
    | t :: _ => if b.closing then busTrackClose b t else b
    | [] => b

def trackRun (b : TrackBus) (ops : List TrackOp) : TrackBus := ops.foldl TrackOp.exec b

end Basu
