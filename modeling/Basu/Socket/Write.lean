import Basu.Message.Sealed

/-! The write side (`sd-bus.c`, `bus-socket.c`). A message is written as far as the socket takes it;
what is left waits in the queue, and everything sent after it waits behind it. -/

namespace Basu
open Lib

/-- `iovec_advance`: what has been written is taken away, with the entries left in their places. -/
def iovecAdvance : List Bytes → Nat → List Bytes
  | [], _ => []
  | i :: iov, size =>
    if size = 0 then i :: iov
    else if size < i.length then i.drop size :: iov
    else [] :: iovecAdvance iov (size - i.length)

theorem iovecAdvance_flatten (iov : List Bytes) :
    ∀ size, (iovecAdvance iov size).flatten = iov.flatten.drop size := by
  induction iov with
  | nil => exact fun size => (List.drop_nil).symm
  | cons i iov ih =>
    intro size
    simp only [iovecAdvance]
    split
    · rename_i h0
      rw [h0, List.drop_zero]
    · split
      · rename_i hlt
        rw [List.flatten_cons, List.flatten_cons, List.drop_append_of_le_length (le_of_lt hlt)]
      · rename_i hge
        rw [List.flatten_cons, List.flatten_cons, ih, List.nil_append, List.drop_append,
          List.drop_of_length_le (not_lt.mp hge), List.nil_append]

theorem flatten_filter_nonempty (iov : List Bytes) :
    (iov.filter (0 < ·.length)).flatten = iov.flatten := by
  induction iov with
  | nil => rfl
  | cons i iov ih =>
    cases i with
    | nil => simpa using ih
    | cons b bs => simp [ih]

structure SealedMessage where
  head : Bytes
  parts : List Bytes
  bodySize : Nat
  cookie : Nat
  nFds : Nat := 0
  dontSend : Bool := false
  head_size : busHeaderSize ≤ head.length
  body_size : bodySize = parts.flatten.length

def SealedMessage.size (m : SealedMessage) : Nat := m.head.length + m.bodySize

def SealedMessage.iovec (m : SealedMessage) : List Bytes := m.head :: m.parts

def SealedMessage.blob (m : SealedMessage) : Bytes := m.head ++ m.parts.flatten

theorem SealedMessage.length_blob (m : SealedMessage) : m.blob.length = m.size := by
  rw [blob, size, List.length_append, m.body_size]

theorem SealedMessage.size_pos (m : SealedMessage) : 0 < m.size := by
  have hhead := m.head_size
  simp only [busHeaderSize] at hhead
  simp only [size]
  omega

inductive BusState
  | unset
  | opening
  | authenticating
  | hello
  | running
  | closing
  | closed
  deriving DecidableEq, Repr

def BusState.isOpen : BusState → Bool
  | .opening | .authenticating | .hello | .running => true
  | .unset | .closing | .closed => false

def BusState.writes (s : BusState) : Bool := s = .running || s = .hello

def busEnterClosing : BusState → BusState
  | .opening | .authenticating | .hello | .running => .closing
  | s => s

structure SendBus where
  zephyr : Bool := false
  isMonitor : Bool := false
  acceptFd : Bool := false
  canFds : Bool := false
  patchSender : Option CStr := none
  state : BusState := .unset
  cookie : Nat := 0
  wqueue : List SealedMessage := []
  windex : Nat := 0
  written : Bytes := []

def busWqueueMax : Nat := 192 * 1024

/-- What `sendmsg` makes of a vector: it takes some bytes, none for now, or fails. -/
inductive SendResult
  | took (k : Nat)
  | again
  | failed (r : Errno)
  deriving DecidableEq, Repr

def sendRetry : Nat → List SendResult → SendResult × List SendResult
  | _, [] => (.again, [])
  | 0, r :: rs => (r, rs)
  | n + 1, .again :: rs => sendRetry n rs
  | _ + 1, r :: rs => (r, rs)

/-- One write: the first of the results to come, or on Zephyr the first that is not `EAGAIN`. -/
def sendmsg (zephyr : Bool) (rs : List SendResult) : SendResult × List SendResult :=
  sendRetry (if zephyr then 7 else 0) rs

def writeVector (zephyr : Bool) (m : SealedMessage) (idx : Nat) : List Bytes :=
  let iov := iovecAdvance m.iovec idx
  if zephyr then iov.filter (0 < ·.length) else iov

/-- What a write did: the returned value, the index behind it, the bytes that went out and the
results of `sendmsg` still to come. -/
structure WriteOutcome where
  ret : Except Errno Bool
  idx : Nat
  out : Bytes
  rest : List SendResult

def busSocketWriteMessage (zephyr : Bool) (m : SealedMessage) (idx : Nat) (rs : List SendResult) :
    WriteOutcome :=
  if m.size ≤ idx then { ret := .ok false, idx := idx, out := [], rest := rs }
  else
    let iov := writeVector zephyr m idx
    if zephyr ∧ iov = [] then { ret := .ok false, idx := m.size, out := [], rest := rs }
    else match sendmsg zephyr rs with
      | (.failed r, rs) => { ret := .error r, idx := idx, out := [], rest := rs }
      | (.again, rs) => { ret := .ok false, idx := idx, out := [], rest := rs }
      | (.took k, rs) =>
        { ret := .ok true, idx := idx + min k iov.flatten.length, out := iov.flatten.take k,
          rest := rs }

/-- `dispatch_wqueue`. Every turn but the last uses a result up. -/
def dispatchWqueueLoop : Nat → Bool → List SendResult → SendBus → Except Errno Bool × SendBus
  | 0, ret, _, bus => (.ok ret, bus)
  | fuel + 1, ret, rs, bus =>
    match bus.wqueue with
    | [] => (.ok ret, bus)
    | m :: ms =>
      let w := busSocketWriteMessage bus.zephyr m bus.windex rs
      let bus := { bus with windex := w.idx, written := bus.written ++ w.out }
      match w.ret with
      | .error r => (.error r, bus)
      | .ok false => (.ok ret, bus)
      | .ok true =>
        if m.size ≤ bus.windex then
          dispatchWqueueLoop fuel true w.rest { bus with wqueue := ms, windex := 0 }
        else dispatchWqueueLoop fuel ret w.rest bus

def dispatchWqueue (rs : List SendResult) (bus : SendBus) : Except Errno Bool × SendBus :=
  dispatchWqueueLoop (rs.length + 1) false rs bus

/-- A message that is not sealed yet, made by the public calls; `dontSend` is set in a reply to a
call that expects none. -/
structure DraftMessage where
  msg : Message
  draft : ∃ fs T, Draft msg fs T
  dontSend : Bool := false

def DraftMessage.orFlags (m : DraftMessage) (flags : UInt8) : DraftMessage where
  msg := m.msg.orFlags flags
  draft := by
    obtain ⟨fs, T, d⟩ := m.draft
    exact ⟨fs, T, d.withFlags _⟩
  dontSend := m.dontSend

def DraftMessage.setSender (m : DraftMessage) (s : CStr) : Except Errno DraftMessage :=
  match h : sdBusMessageSetSender m.msg s with
  | .error r => .error r
  | .ok m' => .ok {
      msg := m'
      draft := by
        obtain ⟨fs, T, d⟩ := m.draft
        exact ⟨_, T, d.setSender h⟩
      dontSend := m.dontSend }

def Message.toSealed (s : Message) (dontSend : Bool) (h : s.bodySize = s.body.length) :
    SealedMessage where
  head := s.headerBytes ++ (s.header.fields ++ zeros (padTo s.header.fields.length 8))
  parts := s.parts.map Part.data
  bodySize := s.bodySize
  cookie := s.header.serial
  nFds := s.fds.length
  dontSend := dontSend
  head_size := by
    rw [List.length_append, s.length_headerBytes]
    exact Nat.le_add_right _ _
  body_size := h

def DraftMessage.seal (m : DraftMessage) (cookie : Nat) : Except Errno SealedMessage :=
  match h : sdBusMessageSeal m.msg cookie with
  | .error r => .error r
  | .ok s => .ok (s.toSealed m.dontSend (by
      obtain ⟨fs, T, d⟩ := m.draft
      exact (d.seal h).2.2.2.2.bodySize))

inductive SendArg
  | draft (m : DraftMessage)
  | sealed (m : SealedMessage)

def SendArg.nFds : SendArg → Nat
  | .draft m => m.msg.fds.length
  | .sealed m => m.nFds

/-- A call of `sd_bus_send`, with what the code it calls into comes to: `bus_ensure_running`,
`bus_remarshal_message`, and the writes. -/
structure SendCall where
  arg : SendArg
  wantsCookie : Bool
  ensureRunning : Except Errno Unit
  remarshal : SealedMessage → Except Errno SealedMessage
  results : List SendResult

def sdBusCanSendFds (bus : SendBus) (ensureRunning : Except Errno Unit) : Except Errno Bool :=
  if bus.isMonitor then .ok false
  else if bus.acceptFd = false then .ok false
  else match ensureRunning with
    | .error r => .error r
    | .ok () => .ok bus.canFds

def patchSender (bus : SendBus) (m : DraftMessage) : Except Errno DraftMessage :=
  match m.msg.header.sender, bus.patchSender with
  | none, some s => m.setSender s
  | _, _ => .ok m

def busSealMessage (bus : SendBus) (wantsCookie : Bool) :
    SendArg → Except Errno SealedMessage × SendBus
  | .sealed m => (.ok m, { bus with cookie := max bus.cookie m.cookie })
  | .draft m =>
    let m := if wantsCookie then m else m.orFlags busMessageNoReplyExpected
    match patchSender bus m with
    | .error r => (.error r, bus)
    | .ok m =>
      let bus := { bus with cookie := (bus.cookie + 1) % 2 ^ 64 }
      (m.seal bus.cookie, bus)

def sendPrepare (bus : SendBus) (call : SendCall) : Except Errno SealedMessage × SendBus :=
  if bus.state.isOpen = false then (.error .enotconn, bus)
  else
    let fds := if 0 < call.arg.nFds then sdBusCanSendFds bus call.ensureRunning else .ok true
    match fds with
    | .error r => (.error r, bus)
    | .ok false => (.error .eopnotsupp, bus)
    | .ok true =>
      match busSealMessage bus call.wantsCookie call.arg with
      | (.error r, bus) => (.error r, bus)
      | (.ok m, bus) => (call.remarshal m, bus)

def isDisconnect (r : Errno) : Bool :=
  r = .enotconn || r = .econnreset || r = .epipe || r = .eshutdown

/-- The end of `sd_bus_send`: nothing waits, so the message is written, or it is queued. -/
def sendMessage (bus : SendBus) (m : SealedMessage) (rs : List SendResult) :
    Except Errno Unit × SendBus :=
  if m.dontSend then (.ok (), bus)
  else if bus.state.writes ∧ bus.wqueue = [] then
    let w := busSocketWriteMessage bus.zephyr m 0 rs
    match w.ret with
    | .error r =>
      if isDisconnect r then
        (.error .econnreset, { bus with state := busEnterClosing bus.state })
      else (.error r, bus)
    | .ok _ =>
      let bus := { bus with written := bus.written ++ w.out }
      if w.idx < m.size then (.ok (), { bus with wqueue := [m], windex := w.idx })
      else (.ok (), bus)
  else if busWqueueMax ≤ bus.wqueue.length then (.error .enobufs, bus)
  else (.ok (), { bus with wqueue := bus.wqueue ++ [m] })

def sdBusSend (bus : SendBus) (call : SendCall) : Except Errno Nat × SendBus :=
  match sendPrepare bus call with
  | (.error r, bus) => (.error r, bus)
  | (.ok m, bus) =>
    match sendMessage bus m call.results with
    | (.error r, bus) => (.error r, bus)
    | (.ok (), bus) => (.ok m.cookie, bus)

def accepted (bus : SendBus) (call : SendCall) : List SealedMessage :=
  match sendPrepare bus call, sdBusSend bus call with
  | (.ok m, _), (.ok _, _) => if m.dontSend then [] else [m]
  | _, _ => []

/-- What happens to a bus: calls of `sd_bus_send`, rounds of `dispatch_wqueue`, and a connection
that goes on to another state. -/
inductive WriteOp
  | send (call : SendCall)
  | dispatch (results : List SendResult)
  | enter (state : BusState) (canFds : Bool)

def WriteOp.run (op : WriteOp) (s : SendBus × List SealedMessage) :
    SendBus × List SealedMessage :=
  match op with
  | .send call => ((sdBusSend s.1 call).2, s.2 ++ accepted s.1 call)
  | .dispatch rs => (if s.1.state.writes then (dispatchWqueue rs s.1).2 else s.1, s.2)
  | .enter state canFds => ({ s.1 with state := state, canFds := canFds }, s.2)

def runWrites (ops : List WriteOp) (s : SendBus × List SealedMessage) :
    SendBus × List SealedMessage :=
  ops.foldl (fun s op => op.run s) s

theorem writeVector_flatten (zephyr : Bool) (m : SealedMessage) (idx : Nat) :
    (writeVector zephyr m idx).flatten = m.blob.drop idx := by
  have hadv : (iovecAdvance m.iovec idx).flatten = m.blob.drop idx := iovecAdvance_flatten _ _
  simp only [writeVector]
  split
  · rw [flatten_filter_nonempty, hadv]
  · exact hadv

theorem busSocketWriteMessage_spec (zephyr : Bool) {m : SealedMessage} {idx : Nat}
    (hidx : idx < m.size) (rs : List SendResult) :
    let w := busSocketWriteMessage zephyr m idx rs
    w.out ++ m.blob.drop w.idx = m.blob.drop idx ∧ w.idx ≤ m.size ∧
      (w.ret ≠ .ok true → w.out = [] ∧ w.idx = idx) := by
  have hne : writeVector zephyr m idx ≠ [] := by
    intro hnil
    have hflat := writeVector_flatten zephyr m idx
    rw [hnil, List.flatten_nil] at hflat
    have hlen := congrArg List.length hflat
    rw [List.length_nil, List.length_drop, m.length_blob] at hlen
    omega
  intro w
  have hw : w = busSocketWriteMessage zephyr m idx rs := rfl
  rw [busSocketWriteMessage, if_neg (not_le.mpr hidx)] at hw
  simp only [hne, and_false, if_false] at hw
  split at hw
  · rw [hw]
    exact ⟨rfl, le_of_lt hidx, fun _ => ⟨rfl, rfl⟩⟩
  · rw [hw]
    exact ⟨rfl, le_of_lt hidx, fun _ => ⟨rfl, rfl⟩⟩
  · rename_i k rs' hk
    rw [hw, writeVector_flatten]
    have hlen : (m.blob.drop idx).length = m.size - idx := by
      rw [List.length_drop, m.length_blob]
    refine ⟨?_, ?_, fun hret => absurd rfl hret⟩
    · simp only [← List.drop_drop]
      generalize m.blob.drop idx = t
      have htake : t.take k = t.take (min k t.length) := by
        rw [← List.take_take, List.take_of_length_le (i := t.length) le_rfl]
      rw [htake, List.take_append_drop]
    · simp only [hlen]
      omega

def SendBus.pending (bus : SendBus) : Bytes :=
  ((bus.wqueue.map SealedMessage.blob).flatten).drop bus.windex

/-- Written and waiting together are the messages accepted, and the first of those that wait is
not done. -/
structure Queued (bus : SendBus) (sent : List SealedMessage) : Prop where
  stream : bus.written ++ bus.pending = (sent.map SealedMessage.blob).flatten
  empty : bus.wqueue = [] → bus.windex = 0
  head : ∀ m ms, bus.wqueue = m :: ms → bus.windex < m.size

theorem dispatchWqueueLoop_queued {sent : List SealedMessage} (fuel : Nat) :
    ∀ {ret : Bool} {rs : List SendResult} {bus : SendBus}, Queued bus sent →
      Queued (dispatchWqueueLoop fuel ret rs bus).2 sent := by
  induction fuel with
  | zero => exact fun h => h
  | succ fuel ih =>
    intro ret rs bus h
    simp only [dispatchWqueueLoop]
    split
    · exact h
    · rename_i m ms hq
      have hidx := h.head m ms hq
      obtain ⟨hout, hle, hnone⟩ := busSocketWriteMessage_spec bus.zephyr hidx rs
      generalize busSocketWriteMessage bus.zephyr m bus.windex rs = w at hout hle hnone ⊢
      have hstream := h.stream
      rw [SendBus.pending, hq, List.map_cons, List.flatten_cons,
        List.drop_append_of_le_length (by rw [m.length_blob]; exact le_of_lt hidx)] at hstream
      -- the bytes written come off the front of what waits
      have hnext : (bus.written ++ w.out) ++ (m.blob.drop w.idx ++
          (ms.map SealedMessage.blob).flatten) = (sent.map SealedMessage.blob).flatten := by
        rw [← hstream, ← hout]
        simp only [List.append_assoc]
      have hkeep : w.idx < m.size →
          Queued { bus with windex := w.idx, written := bus.written ++ w.out } sent := by
        intro hlt
        refine ⟨?_, fun hnil => absurd (hq.symm.trans hnil) (by simp), fun m' ms' hq' => ?_⟩
        · rw [SendBus.pending]
          simp only [hq, List.map_cons, List.flatten_cons]
          rw [List.drop_append_of_le_length (by rw [m.length_blob]; exact le_of_lt hlt)]
          exact hnext
        · obtain ⟨rfl, -⟩ := List.cons.inj (hq.symm.trans hq')
          exact hlt
      split
      · rename_i r hr
        exact hkeep (by rw [(hnone (by rw [hr]; simp)).2]; exact hidx)
      · rename_i hr
        exact hkeep (by rw [(hnone (by rw [hr]; simp)).2]; exact hidx)
      · split
        · rename_i hdone
          have hdrop : m.blob.drop w.idx = [] :=
            List.drop_of_length_le (by rw [m.length_blob]; exact hdone)
          rw [hdrop, List.nil_append] at hnext
          refine ih ⟨?_, fun _ => rfl, fun m' _ _ => m'.size_pos⟩
          rw [SendBus.pending, List.drop_zero]
          exact hnext
        · rename_i hmore
          exact ih (hkeep (not_le.mp hmore))

theorem sendMessage_queued {bus : SendBus} {sent : List SealedMessage} {m : SealedMessage}
    {r : List SendResult} (h : Queued bus sent) (hsend : m.dontSend = false) :
    ((sendMessage bus m r).1 = .ok () → Queued (sendMessage bus m r).2 (sent ++ [m])) ∧
    ((sendMessage bus m r).1 ≠ .ok () → Queued (sendMessage bus m r).2 sent) := by
  have hblobs : ((sent ++ [m]).map SealedMessage.blob).flatten =
      (sent.map SealedMessage.blob).flatten ++ m.blob := by
    rw [List.map_append, List.flatten_append]
    simp
  unfold sendMessage
  simp only [hsend, Bool.false_eq_true, if_false]
  split
  · rename_i hwrites
    obtain ⟨hout, hle, hnone⟩ := busSocketWriteMessage_spec bus.zephyr m.size_pos r
    generalize busSocketWriteMessage bus.zephyr m 0 r = w at hout hle hnone ⊢
    -- with nothing waiting all that was accepted is written
    have hall : bus.written = (sent.map SealedMessage.blob).flatten := by
      rw [← h.stream, SendBus.pending, hwrites.2]
      simp
    rw [List.drop_zero] at hout
    split
    · split
      · exact ⟨fun hok => absurd hok (by simp), fun _ => ⟨h.stream, h.empty, h.head⟩⟩
      · exact ⟨fun hok => absurd hok (by simp), fun _ => h⟩
    · refine ⟨fun _ => ?_, fun hok => absurd ?_ hok⟩
      swap
      · split <;> rfl
      split
      · rename_i hlt
        refine ⟨?_, fun hnil => absurd hnil (by simp), fun m' ms' hq => ?_⟩
        · rw [hblobs, ← hall, ← hout, SendBus.pending]
          simp
        · obtain ⟨rfl, -⟩ := List.cons.inj hq
          exact hlt
      · rename_i hge
        have hdrop : m.blob.drop w.idx = [] :=
          List.drop_of_length_le (by rw [m.length_blob]; exact not_lt.mp hge)
        rw [hdrop, List.append_nil] at hout
        refine ⟨?_, h.empty, h.head⟩
        rw [hblobs, ← hall, ← hout, SendBus.pending, hwrites.2]
        simp
  · split
    · exact ⟨fun hok => absurd hok (by simp), fun _ => h⟩
    · refine ⟨fun _ => ?_, fun hok => absurd rfl hok⟩
      have hwindex : bus.windex ≤ ((bus.wqueue.map SealedMessage.blob).flatten).length := by
        cases hq : bus.wqueue with
        | nil =>
          rw [h.empty hq]
          exact Nat.zero_le _
        | cons m' ms' =>
          have := h.head m' ms' hq
          rw [List.map_cons, List.flatten_cons, List.length_append, m'.length_blob]
          omega
      refine ⟨?_, fun hnil => absurd hnil (by simp), fun m' ms' hq => ?_⟩
      · rw [hblobs, ← h.stream, SendBus.pending, SendBus.pending]
        simp only [List.map_append, List.flatten_append]
        rw [List.drop_append_of_le_length hwindex]
        simp
      · cases hw : bus.wqueue with
        | nil =>
          rw [h.empty hw]
          exact m'.size_pos
        | cons m'' ms'' =>
          simp only [hw, List.cons_append] at hq
          obtain ⟨rfl, -⟩ := List.cons.inj hq
          exact h.head _ _ hw

theorem sendPrepare_queued {bus : SendBus} {sent : List SealedMessage} (h : Queued bus sent)
    (call : SendCall) : Queued (sendPrepare bus call).2 sent := by
  have hseal : Queued (busSealMessage bus call.wantsCookie call.arg).2 sent := by
    unfold busSealMessage
    split
    · exact ⟨h.stream, h.empty, h.head⟩
    · simp only
      split
      · exact h
      · exact ⟨h.stream, h.empty, h.head⟩
  unfold sendPrepare
  split
  · exact h
  · simp only
    split
    · exact h
    · exact h
    · generalize busSealMessage bus call.wantsCookie call.arg = p at hseal
      obtain ⟨r, bus'⟩ := p
      cases r with
      | error r => exact hseal
      | ok m => exact hseal

theorem sdBusSend_queued {bus : SendBus} {sent : List SealedMessage} (h : Queued bus sent)
    (call : SendCall) : Queued (sdBusSend bus call).2 (sent ++ accepted bus call) := by
  have hprep := sendPrepare_queued h call
  unfold accepted sdBusSend
  generalize sendPrepare bus call = p at hprep
  obtain ⟨r, bus'⟩ := p
  cases r with
  | error r => simpa using hprep
  | ok m =>
    simp only
    cases hds : m.dontSend with
    | true =>
      have hsend : sendMessage bus' m call.results = (.ok (), bus') := by
        rw [sendMessage, if_pos hds]
      rw [hsend]
      simpa [hds] using hprep
    | false =>
      obtain ⟨hok, herr⟩ := sendMessage_queued (r := call.results) hprep hds
      generalize sendMessage bus' m call.results = q at hok herr
      obtain ⟨r, bus''⟩ := q
      cases r with
      | error r => simpa using herr (by simp)
      | ok u => simpa [hds] using hok rfl

theorem WriteOp.run_queued {op : WriteOp} {s : SendBus × List SealedMessage}
    (h : Queued s.1 s.2) : Queued (op.run s).1 (op.run s).2 := by
  cases op with
  | send call => exact sdBusSend_queued h call
  | dispatch rs =>
    simp only [WriteOp.run]
    split
    · exact dispatchWqueueLoop_queued _ h
    · exact h
  | enter state canFds => exact ⟨h.stream, h.empty, h.head⟩

theorem runWrites_queued (ops : List WriteOp) :
    ∀ {s : SendBus × List SealedMessage}, Queued s.1 s.2 →
      Queued (runWrites ops s).1 (runWrites ops s).2 := by
  induction ops with
  | nil => exact fun h => h
  | cons op ops ih => exact fun h => ih (WriteOp.run_queued h)

/-- A bus that has nothing to write and has written nothing, as `sd_bus_new` makes it. -/
def SendBus.fresh (bus : SendBus) : SendBus := { bus with wqueue := [], windex := 0, written := [] }

/-- However the socket takes them, the bytes written are those of the messages accepted, in the
order of the calls, up to what still waits in the queue. -/
theorem runWrites_stream (bus : SendBus) (ops : List WriteOp) :
    let s := runWrites ops (bus.fresh, [])
    s.1.written <+: (s.2.map SealedMessage.blob).flatten ∧
      (s.1.wqueue = [] → s.1.written = (s.2.map SealedMessage.blob).flatten) := by
  intro s
  have hfresh : Queued bus.fresh [] :=
    ⟨rfl, fun _ => rfl, fun m ms hq => absurd hq (by simp [SendBus.fresh])⟩
  have h : Queued s.1 s.2 := runWrites_queued ops (s := (bus.fresh, [])) hfresh
  refine ⟨⟨s.1.pending, h.stream⟩, fun hnil => ?_⟩
  rw [← h.stream, SendBus.pending, hnil]
  simp

end Basu
