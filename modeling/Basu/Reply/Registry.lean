import Basu.Socket.Write
import Basu.Lib.Prioq

/-! The calls that wait for a reply (`sd-bus.c`, `bus-slot.c`). Each has a slot, found by its cookie
when the reply comes and by its timeout when none does. The callbacks may call into the bus again,
and so may `sd_bus_call_async` itself while it waits for the connection, so what runs is a stack. -/

namespace Basu
open Lib
open Function

def usecInfinity : UInt64 := 0xffffffffffffffff

def usecAdd (a b : UInt64) : UInt64 := if a + b < a ∨ a + b < b then usecInfinity else a + b

/-- A slot for a reply. `asked` is the timeout the call was made with and `began` the time from
which on it runs; no code reads these two. -/
structure ReplySlot where
  connected : Bool := false
  floating : Bool := false
  nRef : Nat := 0
  cookie : Nat := 0
  timeoutUsec : UInt64 := 0
  asked : UInt64 := 0
  began : UInt64 := 0

/-- What is under way: a call of `sd_bus_call_async` that is sending its message, possibly waiting
for the connection meanwhile, or a callback. -/
inductive CallFrame
  | sending (slot : Option Nat) (cookie : Nat) (waits : Bool)
  | callback (slot : Nat)
  deriving DecidableEq, Repr

/-- The message a callback is invoked with: a reply, an error in place of a reply with unwanted
file descriptors, or an error for a reply that will not come. -/
inductive Completion
  | reply
  | inconsistent
  | timedOut
  | terminated
  deriving DecidableEq, Repr

structure Invocation where
  slot : Nat
  completion : Completion
  connected : Bool
  deriving DecidableEq, Repr

/-- What the reply registry uses of a bus. Slots are numbered as they are allocated;
`replyCallbacks` is the ordered hashmap from cookies to slots. -/
structure ReplyBus where
  state : BusState := .unset
  busClient : Bool := true
  isMonitor : Bool := false
  acceptFd : Bool := false
  canFds : Bool := false
  methodCallTimeout : UInt64 := 25000000
  cookie : Nat := 0
  nSlots : Nat := 0
  slots : Nat → ReplySlot := fun _ => {}
  replyCallbacks : List (Nat × Nat) := []
  prioq : Prioq Nat := { nItems := 0, items := fun _ => 0, idx := fun _ => 0 }
  frames : List CallFrame := []
  started : Bool := false
  invoked : List Invocation := []

def ReplyBus.mayCall (b : ReplyBus) : Bool :=
  match b.frames with
  | .sending .. :: _ => false
  | _ => true

def ReplyBus.mayProcess (b : ReplyBus) : Bool :=
  b.frames.all fun
    | .sending _ _ waits => waits
    | .callback _ => false

def ReplyBus.setSlot (b : ReplyBus) (id : Nat) (s : ReplySlot) : ReplyBus :=
  { b with slots := update b.slots id s }

def cmpUsec (a b : UInt64) : Int := if a < b then -1 else if b < a then 1 else 0

def timeoutCompare (slots : Nat → ReplySlot) (x y : Nat) : Int :=
  let a := (slots x).timeoutUsec
  let b := (slots y).timeoutUsec
  if a ≠ 0 ∧ b = 0 then -1
  else if a = 0 ∧ b ≠ 0 then 1
  else cmpUsec a b

def removeKey (k : Nat) (m : List (Nat × Nat)) : List (Nat × Nat) := m.filter (·.1 ≠ k)

def ReplyBus.prioqRemove (b : ReplyBus) (id : Nat) : ReplyBus :=
  { b with prioq := b.prioq.remove (timeoutCompare b.slots) id }

def slotDetach (b : ReplyBus) (id : Nat) : ReplyBus :=
  let s := b.slots id
  if s.connected = false then b
  else
    let b := if s.cookie ≠ 0 then { b with replyCallbacks := removeKey s.cookie b.replyCallbacks }
      else b
    let b := if s.timeoutUsec ≠ 0 then b.prioqRemove id else b
    b.setSlot id { s with connected := false }

def sdBusSlotUnref (b : ReplyBus) (id : Nat) : ReplyBus :=
  let s := b.slots id
  if s.nRef = 0 then b
  else
    let b := if s.nRef = 1 then slotDetach b id else b
    b.setSlot id { b.slots id with nRef := s.nRef - 1 }

def sdBusSlotRef (b : ReplyBus) (id : Nat) : ReplyBus :=
  let s := b.slots id
  if s.nRef = 0 then b else b.setSlot id { s with nRef := s.nRef + 1 }

def busSlotDisconnect (b : ReplyBus) (id : Nat) : ReplyBus :=
  let s := b.slots id
  if s.connected = false then b
  else
    let b := slotDetach b id
    if s.floating then sdBusSlotUnref b id else b

def sdBusSlotSetFloating (b : ReplyBus) (id : Nat) (floating : Bool) : ReplyBus :=
  let s := b.slots id
  if s.floating = floating then b
  else if s.connected = false then b
  else
    let b := b.setSlot id { s with floating := floating }
    if floating then sdBusSlotRef b id else sdBusSlotUnref b id

/-- The message of a call, with its flag `BUS_MESSAGE_NO_REPLY_EXPECTED`; one that is sealed already
has a cookie and a timeout. -/
inductive CallMessage
  | draft (noReply : Bool)
  | sealed (noReply : Bool) (cookie : Nat) (timeout : UInt64)
  deriving DecidableEq, Repr

/-- A call of `sd_bus_call_async`; `slot` and `callback` say whether these were given. -/
structure AsyncCall where
  slot : Bool
  callback : Bool
  message : CallMessage
  usec : UInt64
  hasFds : Bool
  now : UInt64

def calcElapse (state : BusState) (now usec : UInt64) : UInt64 :=
  if usec = usecInfinity then 0
  else if state = .opening ∨ state = .authenticating then usec
  else now + usec

def sealCall (b : ReplyBus) (a : AsyncCall) : Option (Nat × UInt64) × Nat :=
  match a.message with
  | .sealed _ cookie timeout => (some (cookie, timeout), max b.cookie cookie)
  | .draft noReply =>
    let noReply := noReply || (!a.callback && !a.slot)
    let timeout := if a.usec = 0 then b.methodCallTimeout else a.usec
    let cookie := (b.cookie + 1) % 2 ^ 64
    (if uint32Max < cookie then none else some (cookie, if noReply then 0 else timeout), cookie)

def AsyncCall.newSlot (a : AsyncCall) (state : BusState) (cookie : Nat) (timeout : UInt64) :
    ReplySlot where
  connected := true
  floating := !a.slot
  nRef := 1
  cookie := cookie
  timeoutUsec := calcElapse state a.now timeout
  asked := timeout
  began := a.now

/-- `sd_bus_send` waits for the connection before it sends file descriptors. -/
def AsyncCall.waits (a : AsyncCall) (b : ReplyBus) : Bool :=
  a.hasFds && !b.isMonitor && b.acceptFd && b.state ≠ .running

def register (b : ReplyBus) (a : AsyncCall) (cookie : Nat) (timeout : UInt64) : ReplyBus :=
  let id := b.nSlots
  let s := a.newSlot b.state cookie timeout
  let b' := { b.setSlot id s with
    nSlots := id + 1
    replyCallbacks := b.replyCallbacks ++ [(cookie, id)] }
  if s.timeoutUsec = 0 then b'
  else { b' with prioq := b'.prioq.put (timeoutCompare b'.slots) id }

def AsyncCall.refused (a : AsyncCall) : Bool :=
  match a.message with
  | .draft _ => false
  | .sealed noReply .. => a.callback = noReply

def sdBusCallAsync (b : ReplyBus) (a : AsyncCall) : ReplyBus :=
  if a.refused then b
  else if b.state.isOpen = false then b
  else
    let (sealed, last) := sealCall b a
    let b := { b with cookie := last }
    match sealed with
    | none => b
    | some (cookie, timeout) =>
      if a.slot || a.callback then
        -- the slot of a call whose cookie is taken is gone again
        if (b.replyCallbacks.lookup cookie).isSome then { b with nSlots := b.nSlots + 1 }
        else
          let b' := register b a cookie timeout
          { b' with frames := .sending (some b.nSlots) cookie (a.waits b) :: b.frames }
      else { b with frames := .sending none cookie (a.waits b) :: b.frames }

/-- `sd_bus_send` has returned: it stores the cookie again, or the slot is given up. -/
def sendDone (b : ReplyBus) (ok : Bool) : ReplyBus :=
  match b.frames with
  | .sending slot cookie _ :: frames =>
    let b := { b with frames := frames }
    match slot with
    | none => b
    | some id =>
      if ok then b.setSlot id { b.slots id with cookie := cookie } else sdBusSlotUnref b id
  | _ => b

def invoke (b : ReplyBus) (id : Nat) (completion : Completion) : ReplyBus :=
  { b.setSlot id { b.slots id with nRef := (b.slots id).nRef + 1 } with
    frames := .callback id :: b.frames
    invoked := b.invoked ++ [{
      slot := id, completion := completion, connected := (b.slots id).connected }] }

def callbackDone (b : ReplyBus) : ReplyBus :=
  match b.frames with
  | .callback id :: frames =>
    let b := { b with frames := frames }
    let b := if (b.slots id).floating then busSlotDisconnect b id else b
    sdBusSlotUnref b id
  | _ => b

/-- A reply with this cookie; what comes with file descriptors is not read when there can be
none. -/
def processReply (b : ReplyBus) (cookie : Nat) (hasFds : Bool) : ReplyBus :=
  match b.replyCallbacks.lookup cookie with
  | none => b
  | some id =>
    let b := { b with replyCallbacks := removeKey cookie b.replyCallbacks }
    let b := b.setSlot id { b.slots id with cookie := 0 }
    let b := if (b.slots id).timeoutUsec ≠ 0 then
        let b := b.prioqRemove id
        b.setSlot id { b.slots id with timeoutUsec := 0 }
      else b
    invoke b id (if hasFds && !b.acceptFd then .inconsistent else .reply)

def processTimeout (b : ReplyBus) (now : UInt64) : ReplyBus :=
  match b.prioq.peek with
  | none => b
  | some id =>
    if now < (b.slots id).timeoutUsec then b
    else
      let b := { b with prioq := b.prioq.pop (timeoutCompare b.slots) }
      let s := b.slots id
      let b := b.setSlot id { s with timeoutUsec := 0 }
      let b := { b with replyCallbacks := removeKey s.cookie b.replyCallbacks }
      let b := b.setSlot id { b.slots id with cookie := 0 }
      invoke b id .timedOut

/-- `process_closing`: the first call that waits is failed; when there is none the bus is closed. -/
def processClosing (b : ReplyBus) : ReplyBus :=
  match b.replyCallbacks with
  | [] => { b with state := .closed }
  | (_, id) :: _ =>
    let s := b.slots id
    let b := if s.timeoutUsec ≠ 0 then
        let b := b.prioqRemove id
        b.setSlot id { s with timeoutUsec := 0 }
      else b
    let b := { b with replyCallbacks := removeKey s.cookie b.replyCallbacks }
    let b := b.setSlot id { b.slots id with cookie := 0 }
    invoke b id .terminated

def ReplySlot.start (now : UInt64) (s : ReplySlot) : ReplySlot :=
  if s.timeoutUsec = 0 then s
  else { s with timeoutUsec := usecAdd now s.timeoutUsec, began := now }

def busStartRunning (b : ReplyBus) (now : UInt64) (canFds : Bool) : ReplyBus :=
  { b with
    slots := b.replyCallbacks.foldl
      (fun slots e => update slots e.2 ((slots e.2).start now)) b.slots
    state := if b.busClient then .hello else .running
    canFds := b.acceptFd && canFds
    started := true }

inductive ReplyOp
  | opening
  | authenticating
  | startRunning (now : UInt64) (canFds : Bool)
  | helloDone
  | enterClosing
  | close
  | send (cookie : Option Nat)
  | callAsync (a : AsyncCall)
  | sendDone (ok : Bool)
  | reply (cookie : Nat) (hasFds : Bool)
  | timeout (now : UInt64)
  | closing
  | callbackDone
  | slotRef (id : Nat)
  | slotUnref (id : Nat)
  | setFloating (id : Nat) (floating : Bool)
  | disconnect (id : Nat)

def ReplyOp.exec (b : ReplyBus) : ReplyOp → ReplyBus
  | .opening => if b.state = .unset then { b with state := .opening } else b
  | .authenticating => if b.state = .opening then { b with state := .authenticating } else b
  | .startRunning now canFds =>
    if b.mayProcess ∧ (b.state = .opening ∨ b.state = .authenticating) then
      busStartRunning b now canFds
    else b
  | .helloDone => if b.state = .hello then { b with state := .running } else b
  | .enterClosing => { b with state := busEnterClosing b.state }
  | .close => { b with state := .closed }
  | .send cookie =>
    { b with cookie := match cookie with
      | some cookie => max b.cookie cookie
      | none => (b.cookie + 1) % 2 ^ 64 }
  | .callAsync a => if b.mayCall then sdBusCallAsync b a else b
  | .sendDone ok => Basu.sendDone b ok
  | .reply cookie hasFds =>
    if b.mayProcess ∧ b.state.writes ∧ (hasFds → b.canFds) then processReply b cookie hasFds else b
  | .timeout now => if b.mayProcess ∧ b.state.writes then processTimeout b now else b
  | .closing => if b.mayProcess ∧ b.state = .closing then processClosing b else b
  | .callbackDone => Basu.callbackDone b
  | .slotRef id => if b.mayCall then sdBusSlotRef b id else b
  | .slotUnref id => if b.mayCall then sdBusSlotUnref b id else b
  | .setFloating id floating => if b.mayCall then sdBusSlotSetFloating b id floating else b
  | .disconnect id => if b.mayCall then busSlotDisconnect b id else b

def replyRun (b : ReplyBus) (ops : List ReplyOp) : ReplyBus := ops.foldl ReplyOp.exec b

end Basu
