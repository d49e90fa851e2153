import Basu.Reply.Registry
import Basu.Socket.Read

/-! `sd_bus_call` waits for one reply and reads everything else into the queue. What it meets while
it waits is a list of turns of its loop: the messages that a read brings, or an idle turn. -/

namespace Basu
open Lib

structure CallBus where
  state : BusState
  rqueue : List Received
  uniqueName : Option Str := none
  acceptFd : Bool := false
  deriving DecidableEq

/-- One turn of the loop: `bus_read_message` puts messages into the queue, and may fail at the one
that follows; or nothing has come, and the clock, `bus_poll` and `dispatch_wqueue` decide. -/
inductive CallTurn
  | read (arrived : List Received)
  | readFailed (arrived : List Received) (r : Errno)
  | idle (now : UInt64) (poll : Except Errno Bool) (write : Except Errno Unit)

def CallTurn.arrived : CallTurn → List Received
  | .read arrived | .readFailed arrived _ => arrived
  | .idle .. => []

inductive CallEnd
  | reply (m : Received)
  | inconsistentReply
  | errorReply (name message : Option Str)
  | selfSent
  | failed (r : Errno)
  deriving DecidableEq, Repr

/-- A call of `sd_bus_call`, with what the code it calls into comes to: `bus_ensure_running`, and
the cookie and the timeout of the message once it is sealed, remarshalled and sent. -/
structure SyncCall where
  type : UInt8
  flags : UInt8
  errorIsDirty : Bool
  process : Except Errno Unit × List Received
  sent : Except Errno (Nat × UInt64) × BusState
  now : UInt64

def busEnsureRunning (b : CallBus) (c : SyncCall) : Except Errno Unit × CallBus :=
  if b.state = .unset ∨ b.state = .closed ∨ b.state = .closing then (.error .enotconn, b)
  else if b.state = .running then (.ok (), b)
  else match c.process with
    | (.error r, rqueue) => (.error r, { b with rqueue := rqueue })
    | (.ok (), rqueue) => (.ok (), { b with rqueue := rqueue, state := .running })

def CallBus.answer (b : CallBus) (incoming : Received) : CallEnd :=
  if incoming.header.type = sdBusMessageMethodReturn then
    if incoming.fds = [] ∨ b.acceptFd then .reply incoming else .inconsistentReply
  else if incoming.header.type = sdBusMessageMethodError then
    .errorReply incoming.header.errorName incoming.errorMessage
  else .failed .eio

def CallBus.isOwn (b : CallBus) (cookie : Nat) (incoming : Received) : Bool :=
  incoming.header.serial = cookie && b.uniqueName.isSome && incoming.header.sender.isSome &&
    b.uniqueName = incoming.header.sender

def scanQueue (b : CallBus) (cookie : Nat) : Nat → Nat → Option CallEnd × CallBus × Nat
  | i, 0 => (none, b, i)
  | i, n + 1 =>
    match b.rqueue[i]? with
    | none => (none, b, i)
    | some incoming =>
      let removed := { b with rqueue := b.rqueue.eraseIdx i }
      if incoming.header.replyCookie = cookie then (some (b.answer incoming), removed, i)
      else if b.isOwn cookie incoming then (some .selfSent, removed, i)
      else scanQueue b cookie (i + 1) n

def CallBus.lost (b : CallBus) (r : Errno) : CallEnd × CallBus :=
  if isDisconnect r then (.failed .econnreset, { b with state := busEnterClosing b.state })
  else (.failed r, b)

/-- The loop of `sd_bus_call`: how the call ends, unless it still waits, the bus then, and the turns
that are left. -/
def callLoop (cookie : Nat) (timeout : UInt64) :
    CallBus → Nat → List CallTurn → Option CallEnd × CallBus × List CallTurn
  | b, i, turns =>
    match scanQueue b cookie i (b.rqueue.length - i) with
    | (some e, b, _) => (some e, b, turns)
    | (none, b, i) =>
      match turns with
      | [] => (none, b, [])
      | .read arrived :: turns =>
        callLoop cookie timeout { b with rqueue := b.rqueue ++ arrived } i turns
      | .readFailed arrived r :: turns =>
        let (e, b) := CallBus.lost { b with rqueue := b.rqueue ++ arrived } r
        (some e, b, turns)
      | .idle now poll write :: turns =>
        if 0 < timeout ∧ timeout ≤ now then (some (.failed .etimedout), b, turns)
        else match poll with
          | .error r => (some (.failed r), b, turns)
          | .ok false => callLoop cookie timeout b i turns
          | .ok true =>
            match write with
            | .error r =>
              let (e, b) := b.lost r
              (some e, b, turns)
            | .ok () => callLoop cookie timeout b i turns

def sdBusCall (b : CallBus) (c : SyncCall) (turns : List CallTurn) :
    Option CallEnd × CallBus × List CallTurn :=
  if c.type ≠ sdBusMessageMethodCall ∨ c.flags &&& busMessageNoReplyExpected ≠ 0 ∨
      c.errorIsDirty then (some (.failed .einval), b, turns)
  else if b.state.isOpen = false then (some (.failed .enotconn), b, turns)
  else match busEnsureRunning b c with
    | (.error r, b) => (some (.failed r), b, turns)
    | (.ok (), b) =>
      match c.sent with
      | (.error r, state) => (some (.failed r), { b with state := state }, turns)
      | (.ok (cookie, timeout), state) =>
        let b := { b with state := state }
        callLoop cookie (calcElapse b.state c.now timeout) b b.rqueue.length turns

def CallBus.ends (b : CallBus) (cookie : Nat) (m : Received) : Bool :=
  m.header.replyCookie = cookie || b.isOwn cookie m

def CallBus.ending (b : CallBus) (cookie : Nat) (m : Received) : CallEnd :=
  if m.header.replyCookie = cookie then b.answer m else .selfSent

/-- A call over a queue `q`, with messages `pending` that are not looked at yet: the first message
that ends it is gone from what has arrived, or there is none and nothing is gone. -/
inductive TakesReply (b : CallBus) (cookie : Nat) (q pending : List Received)
    (used : List CallTurn) : Option CallEnd → List Received → Prop
  | waiting (hno : ∀ m ∈ pending ++ used.flatMap CallTurn.arrived, b.ends cookie m = false) :
    TakesReply b cookie q pending used none (q ++ (pending ++ used.flatMap CallTurn.arrived))
  | ended {l r : List Received} {m : Received}
      (harrived : pending ++ used.flatMap CallTurn.arrived = l ++ m :: r)
      (hno : ∀ x ∈ l, b.ends cookie x = false) (hends : b.ends cookie m = true) :
    TakesReply b cookie q pending used (some (b.ending cookie m)) (q ++ (l ++ r))
  | failed {before : List CallTurn} {t : CallTurn} {r : Errno} (hused : used = before ++ [t])
      (hno : ∀ m ∈ pending ++ before.flatMap CallTurn.arrived, b.ends cookie m = false)
      (hread : ∀ arrived, t ≠ .read arrived) :
    TakesReply b cookie q pending used (some (.failed r))
      (q ++ (pending ++ used.flatMap CallTurn.arrived))

variable {b : CallBus} {cookie : Nat} {q pending : List Received}

theorem scanQueue_spec (b : CallBus) (cookie : Nat) : ∀ (pending q : List Received),
    b.rqueue = q ++ pending →
    (scanQueue b cookie q.length pending.length = (none, b, q.length + pending.length) ∧
      ∀ m ∈ pending, b.ends cookie m = false) ∨
    ∃ l m r i, pending = l ++ m :: r ∧ (∀ x ∈ l, b.ends cookie x = false) ∧
      b.ends cookie m = true ∧ scanQueue b cookie q.length pending.length =
        (some (b.ending cookie m), { b with rqueue := q ++ (l ++ r) }, i) := by
  intro pending
  induction pending with
  | nil =>
    intro q _
    exact .inl ⟨rfl, fun m hm => nomatch hm⟩
  | cons m pending ih =>
    intro q hq
    have hget : b.rqueue[q.length]? = some m := by
      rw [hq, List.getElem?_append_right le_rfl, Nat.sub_self]
      rfl
    have herase : b.rqueue.eraseIdx q.length = q ++ pending := by
      rw [hq, List.eraseIdx_append_of_length_le le_rfl, Nat.sub_self]
      rfl
    rw [List.length_cons, scanQueue, hget]
    dsimp only
    rw [herase]
    by_cases hreply : m.header.replyCookie = cookie
    · refine .inr ⟨[], m, pending, q.length, rfl, fun x hx => (nomatch hx), ?_, ?_⟩
      · simp only [CallBus.ends, hreply, decide_true, Bool.true_or]
      · rw [if_pos hreply, CallBus.ending, if_pos hreply]
        rfl
    · rw [if_neg hreply]
      by_cases hown : b.isOwn cookie m = true
      · refine .inr ⟨[], m, pending, q.length, rfl, fun x hx => (nomatch hx), ?_, ?_⟩
        · simp only [CallBus.ends, hown, Bool.or_true]
        · rw [if_pos hown, CallBus.ending, if_neg hreply]
          rfl
      · rw [if_neg hown]
        have hm : b.ends cookie m = false := by
          simp only [CallBus.ends, hreply, decide_false, Bool.not_eq_true _ ▸ hown, Bool.or_self]
        have hnext := ih (q ++ [m]) (by rw [hq, List.append_assoc]; rfl)
        rw [List.length_append, List.length_singleton] at hnext
        rcases hnext with ⟨heq, hno⟩ | ⟨l, x, r, i, rfl, hl, hx, heq⟩
        · refine .inl ⟨?_, List.forall_mem_cons.mpr ⟨hm, hno⟩⟩
          rw [heq, Nat.add_assoc, Nat.add_comm 1]
        · refine .inr ⟨m :: l, x, r, i, rfl, List.forall_mem_cons.mpr ⟨hm, hl⟩, hx, ?_⟩
          rw [heq, List.append_assoc]
          rfl

theorem TakesReply.turn {t : CallTurn} {used : List CallTurn} {rqueue queue : List Received}
    {e : Option CallEnd} (hno : ∀ m ∈ pending, b.ends cookie m = false)
    (h : TakesReply { b with rqueue := rqueue } cookie (q ++ pending) t.arrived used e queue) :
    TakesReply b cookie q pending (t :: used) e queue := by
  have harr : pending ++ (t :: used).flatMap CallTurn.arrived =
      pending ++ (t.arrived ++ used.flatMap CallTurn.arrived) := by
    rw [List.flatMap_cons]
  cases h with
  | waiting h =>
    rw [List.append_assoc, ← harr]
    refine .waiting fun m hm => ?_
    rw [harr] at hm
    rcases List.mem_append.mp hm with hm | hm
    · exact hno m hm
    · exact h m hm
  | @ended l r m h hl hm =>
    have hq : q ++ pending ++ (l ++ r) = q ++ (pending ++ l ++ r) := by
      simp only [List.append_assoc]
    rw [hq]
    refine .ended (m := m) ?_ (fun x hx => ?_) hm
    · rw [harr, h, List.append_assoc]
    · rcases List.mem_append.mp hx with hx | hx
      · exact hno x hx
      · exact hl x hx
  | @failed before t' r h hb hread =>
    rw [List.append_assoc, ← harr]
    refine @TakesReply.failed _ _ _ _ _ (t :: before) t' _ (by rw [h, List.cons_append])
      (fun m hm => ?_) hread
    rw [List.flatMap_cons] at hm
    rcases List.mem_append.mp hm with hm | hm
    · exact hno m hm
    · exact hb m hm

theorem CallBus.lost_rqueue (b : CallBus) (r : Errno) :
    ∃ r', (b.lost r).1 = .failed r' ∧ (b.lost r).2.rqueue = b.rqueue := by
  unfold CallBus.lost
  split
  · exact ⟨_, rfl, rfl⟩
  · exact ⟨_, rfl, rfl⟩

theorem callLoop_spec (cookie : Nat) (timeout : UInt64) (turns : List CallTurn) :
    ∀ (b : CallBus) (q pending : List Received), b.rqueue = q ++ pending →
      ∃ used, turns = used ++ (callLoop cookie timeout b q.length turns).2.2 ∧
        TakesReply b cookie q pending used (callLoop cookie timeout b q.length turns).1
          (callLoop cookie timeout b q.length turns).2.1.rqueue := by
  induction turns with
  | nil =>
    intro b q pending hq
    have hlen : b.rqueue.length - q.length = pending.length := by
      rw [hq, List.length_append, Nat.add_sub_cancel_left]
    have hall : pending ++ ([] : List CallTurn).flatMap CallTurn.arrived = pending :=
      List.append_nil _
    unfold callLoop
    rw [hlen]
    rcases scanQueue_spec b cookie pending q hq with ⟨heq, hno⟩ | ⟨l, m, r, i, hp, hl, hm, heq⟩
    · rw [heq]
      have h := TakesReply.waiting (q := q) (hall.symm ▸ hno)
      rw [hall, ← hq] at h
      exact ⟨[], rfl, h⟩
    · rw [heq]
      exact ⟨[], rfl, .ended (hall.trans hp) hl hm⟩
  | cons t turns ih =>
    intro b q pending hq
    have hlen : b.rqueue.length - q.length = pending.length := by
      rw [hq, List.length_append, Nat.add_sub_cancel_left]
    have hnext : q.length + pending.length = (q ++ pending).length := List.length_append.symm
    unfold callLoop
    rw [hlen]
    rcases scanQueue_spec b cookie pending q hq with ⟨heq, hno⟩ | ⟨l, m, r, i, hp, hl, hm, heq⟩
    · rw [heq]
      dsimp only
      -- the turn ends the call, with all that has arrived in the queue
      have hfail : ∀ {r : Errno}, (∀ arrived, t ≠ .read arrived) →
          TakesReply b cookie q pending [t] (some (.failed r)) (q ++ (pending ++ t.arrived)) := by
        intro r hread
        have hbefore : ∀ m ∈ pending ++ ([] : List CallTurn).flatMap CallTurn.arrived,
            b.ends cookie m = false := by
          rw [List.flatMap_nil, List.append_nil]
          exact hno
        have h := TakesReply.failed (q := q) (r := r) (List.nil_append [t]).symm hbefore hread
        rwa [List.flatMap_singleton] at h
      cases t with
      | read arrived =>
        dsimp only
        have hq' : b.rqueue ++ arrived = q ++ pending ++ arrived := by rw [hq]
        obtain ⟨used, hused, h⟩ := ih { b with rqueue := b.rqueue ++ arrived } _ arrived hq'
        rw [hnext]
        exact ⟨.read arrived :: used, congrArg _ hused, h.turn hno⟩
      | readFailed arrived r =>
        obtain ⟨r', he, hb⟩ := CallBus.lost_rqueue { b with rqueue := b.rqueue ++ arrived } r
        refine ⟨[.readFailed arrived r], rfl, ?_⟩
        dsimp only
        rw [he, hb, hq, List.append_assoc]
        exact hfail fun _ h => nomatch h
      | idle now poll write =>
        have hidle : ∀ arrived, CallTurn.idle now poll write ≠ .read arrived := fun _ h => nomatch h
        have hover : ∀ {r : Errno}, TakesReply b cookie q pending [.idle now poll write]
            (some (.failed r)) b.rqueue := by
          intro r
          rw [hq]
          have h := hfail (r := r) hidle
          rwa [CallTurn.arrived, List.append_nil] at h
        have hagain : ∃ used,
            .idle now poll write :: turns =
              used ++ (callLoop cookie timeout b (q.length + pending.length) turns).2.2 ∧
            TakesReply b cookie q pending used
              (callLoop cookie timeout b (q.length + pending.length) turns).1
              (callLoop cookie timeout b (q.length + pending.length) turns).2.1.rqueue := by
          obtain ⟨used, hused, h⟩ := ih b (q ++ pending) [] (by rw [hq, List.append_nil])
          rw [hnext]
          exact ⟨.idle now poll write :: used, congrArg _ hused, h.turn hno⟩
        dsimp only
        by_cases htime : 0 < timeout ∧ timeout ≤ now
        · rw [if_pos htime]
          exact ⟨[.idle now poll write], rfl, hover⟩
        rw [if_neg htime]
        cases poll with
        | error r => exact ⟨[_], rfl, hover⟩
        | ok more =>
          cases more with
          | false => exact hagain
          | true =>
            cases write with
            | ok u => exact hagain
            | error r =>
              obtain ⟨r', he, hb⟩ := b.lost_rqueue r
              refine ⟨[_], rfl, ?_⟩
              dsimp only
              rw [he, hb]
              exact hover
    · rw [heq]
      exact ⟨[], rfl, .ended ((List.append_nil _).trans hp) hl hm⟩

/-- The turn that a call of `bus_socket_read_message` makes, and the socket behind it. -/
def socketTurn (zephyr : Bool) (k : Nat) (now : UInt64) (poll : Except Errno Bool)
    (write : Except Errno Unit) (s : ReadSocket) : CallTurn × ReadSocket :=
  match busSocketReadMessage zephyr k s with
  | (.error r, s') => (.readFailed (s'.rqueue.drop s.rqueue.length) r, s')
  | (.ok true, s') => (.read (s'.rqueue.drop s.rqueue.length), s')
  | (.ok false, s') => (.idle now poll write, s')

theorem TakesReply.reply {used : List CallTurn} {x : Received} {queue : List Received}
    (h : TakesReply b cookie q [] used (some (.reply x)) queue) :
    ∃ l r, used.flatMap CallTurn.arrived = l ++ x :: r ∧ x.header.replyCookie = cookie ∧
      (∀ y ∈ l, y.header.replyCookie ≠ cookie) ∧ queue = q ++ (l ++ r) := by
  generalize he : some (CallEnd.reply x) = e at h
  cases h with
  | waiting => exact nomatch he
  | failed => exact nomatch he
  | @ended l r m harr hno hm =>
    have hend := Option.some.inj he
    unfold CallBus.ending at hend
    by_cases hreply : m.header.replyCookie = cookie
    · rw [if_pos hreply] at hend
      have hx : x = m := by
        unfold CallBus.answer at hend
        split at hend
        · split at hend
          · exact CallEnd.reply.inj hend
          · exact nomatch hend
        · split at hend <;> exact nomatch hend
      subst hx
      refine ⟨l, r, harr, hreply, fun y hy heq => ?_, rfl⟩
      have hends := hno y hy
      simp only [CallBus.ends, heq, decide_true, Bool.true_or] at hends
      exact nomatch hends
    · rw [if_neg hreply] at hend
      exact nomatch hend

theorem TakesReply.congr {b' : CallBus} {queue : List Received} {used : List CallTurn}
    {e : Option CallEnd} (hname : b'.uniqueName = b.uniqueName) (haccept : b'.acceptFd = b.acceptFd)
    (h : TakesReply b' cookie q pending used e queue) :
    TakesReply b cookie q pending used e queue := by
  obtain ⟨state', rqueue', name', accept'⟩ := b'
  obtain ⟨state, rqueue, name, accept⟩ := b
  obtain rfl : name' = name := hname
  obtain rfl : accept' = accept := haccept
  cases h with
  | waiting h => exact .waiting h
  | ended harr hno hm => exact .ended harr hno hm
  | failed hused hno hread => exact .failed hused hno hread

theorem busEnsureRunning_keeps (b : CallBus) (c : SyncCall) :
    (busEnsureRunning b c).2.uniqueName = b.uniqueName ∧
      (busEnsureRunning b c).2.acceptFd = b.acceptFd ∧
      (b.state = .running → (busEnsureRunning b c).2.rqueue = b.rqueue) := by
  unfold busEnsureRunning
  by_cases hdown : b.state = .unset ∨ b.state = .closed ∨ b.state = .closing
  · rw [if_pos hdown]
    exact ⟨rfl, rfl, fun _ => rfl⟩
  rw [if_neg hdown]
  by_cases hrun : b.state = .running
  · rw [if_pos hrun]
    exact ⟨rfl, rfl, fun _ => rfl⟩
  rw [if_neg hrun]
  rcases c.process with ⟨r | u, rqueue⟩
  · exact ⟨rfl, rfl, fun h => absurd h hrun⟩
  · exact ⟨rfl, rfl, fun h => absurd h hrun⟩

/-- Over every queue and whatever arrives, `sd_bus_call` takes at most the first message that
answers the call or is the call sent back; all others stay in the order they came in, behind those
that were queued when the connection was up. -/
theorem sdBusCall_takesReply (b : CallBus) (c : SyncCall) (turns : List CallTurn) :
    ∃ used, turns = used ++ (sdBusCall b c turns).2.2 ∧
      ((∃ r, (sdBusCall b c turns).1 = some (.failed r) ∧ used = [] ∧
          ((sdBusCall b c turns).2.1.rqueue = b.rqueue ∨
            (sdBusCall b c turns).2.1.rqueue = (busEnsureRunning b c).2.rqueue)) ∨
        ∃ cookie timeout, c.sent.1 = .ok (cookie, timeout) ∧
          TakesReply b cookie (busEnsureRunning b c).2.rqueue [] used (sdBusCall b c turns).1
            (sdBusCall b c turns).2.1.rqueue ∧
          ∀ x, (sdBusCall b c turns).1 = some (.reply x) →
            ∃ l r, used.flatMap CallTurn.arrived = l ++ x :: r ∧ x.header.replyCookie = cookie ∧
              (∀ y ∈ l, y.header.replyCookie ≠ cookie) ∧
              (sdBusCall b c turns).2.1.rqueue = (busEnsureRunning b c).2.rqueue ++ (l ++ r)) ∧
      (b.state = .running → (busEnsureRunning b c).2.rqueue = b.rqueue) := by
  obtain ⟨hname, haccept, hrun⟩ := busEnsureRunning_keeps b c
  unfold sdBusCall
  by_cases hinval : c.type ≠ sdBusMessageMethodCall ∨ c.flags &&& busMessageNoReplyExpected ≠ 0 ∨
      c.errorIsDirty
  · rw [if_pos hinval]
    exact ⟨[], rfl, .inl ⟨_, rfl, rfl, .inl rfl⟩, hrun⟩
  rw [if_neg hinval]
  by_cases hopen : b.state.isOpen = false
  · rw [if_pos hopen]
    exact ⟨[], rfl, .inl ⟨_, rfl, rfl, .inl rfl⟩, hrun⟩
  rw [if_neg hopen]
  revert hname haccept hrun
  generalize busEnsureRunning b c = e
  obtain ⟨ret, b'⟩ := e
  intro hname haccept hrun
  dsimp only at hname haccept hrun ⊢
  cases ret with
  | error r => exact ⟨[], rfl, .inl ⟨r, rfl, rfl, .inr rfl⟩, hrun⟩
  | ok u =>
    rcases c.sent with ⟨r | ⟨cookie, timeout⟩, state⟩
    · exact ⟨[], rfl, .inl ⟨r, rfl, rfl, .inr rfl⟩, hrun⟩
    · obtain ⟨used, hused, h⟩ := callLoop_spec cookie (calcElapse state c.now timeout) turns
        { b' with state := state } b'.rqueue [] (List.append_nil _).symm
      refine ⟨used, hused, .inr ⟨cookie, timeout, rfl, ?_, fun x hx => ?_⟩, hrun⟩
      · have hname' : ({ b' with state := state } : CallBus).uniqueName = b.uniqueName := hname
        exact TakesReply.congr hname' haccept h
      · dsimp only at hx
        rw [hx] at h
        exact h.reply

/-- Only a message with the cookie of the call is missing, if any. -/
def LosesOnlyAnswer (cookie : Nat) (q arrived queue : List Received) : Prop :=
  queue = q ++ arrived ∨ ∃ l m r, arrived = l ++ m :: r ∧ m.header.replyCookie = cookie ∧
    queue = q ++ (l ++ r)

/-- A connection that is up, and its own call of the cookie 1 sent back to it: the queue loses a
message that is no answer. -/
theorem not_losesOnlyAnswer :
    let name : Str := [58, 49, 46, 49]
    let own : Received := {
      endian := .little, header := { type := 1, serial := 1, sender := some name }, body := [] }
    let b : CallBus := { state := .running, rqueue := [], uniqueName := some name }
    let c : SyncCall := {
      type := 1, flags := 0, errorIsDirty := false, process := (.ok (), [])
      sent := (.ok (1, 5), .running), now := 0 }
    (sdBusCall b c [.read [own]]).1 = some .selfSent ∧ (sdBusCall b c [.read [own]]).2.1 = b ∧
      ¬ LosesOnlyAnswer 1 [] [own] (sdBusCall b c [.read [own]]).2.1.rqueue := by
  intro name own b c
  have heq : (sdBusCall b c [.read [own]]).2.1 = b := by decide +kernel
  refine ⟨by decide +kernel, heq, ?_⟩
  rw [heq]
  rintro (h | ⟨l, m, r, harr, hreply, -⟩)
  · exact nomatch h
  · -- the only message there is has no reply cookie
    have hm : m ∈ [own] := harr ▸ List.mem_append_right _ (List.mem_cons_self ..)
    rw [List.mem_singleton.mp hm] at hreply
    exact absurd hreply (by decide)

end Basu
