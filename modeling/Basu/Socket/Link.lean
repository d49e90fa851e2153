import Basu.Lib.Run
import Basu.Message.RoundTrip
import Basu.Socket.Read
import Basu.Socket.Write

/-! Two buses on one connection. What one of them sends travels as bytes, in pieces of any size, and
the other takes messages out of its read queue. -/

namespace Basu
open Lib

/-- The head of the read queue; `ret` is returned where it is empty. -/
def ReadSocket.takeHead (ret : Bool) (s : ReadSocket) :
    Except Errno (Bool × Option Received) × ReadSocket :=
  match s.rqueue with
  | m :: ms => (.ok (true, some m), { s with rqueue := ms })
  | [] => (.ok (ret, none), s)

/-- With what the socket has ready at each read, and nothing after that. -/
def dispatchRqueue (zephyr ret : Bool) : List Nat → ReadSocket →
    Except Errno (Bool × Option Received) × ReadSocket
  | ks, s =>
    if s.rqueue ≠ [] then s.takeHead ret
    else match ks with
      | [] => match busSocketReadMessage zephyr 0 s with
        | (.error r, s) => (.error r, s)
        | (.ok r, s) => s.takeHead (ret || r)
      | k :: ks => match busSocketReadMessage zephyr k s with
        | (.error r, s) => (.error r, s)
        | (.ok false, s) => (.ok (ret, none), s)
        | (.ok true, s) => dispatchRqueue zephyr true ks s

/-- A sender with what it has accepted, and its peer with what it has taken out of its queue. -/
structure Link where
  bus : SendBus
  sent : List SealedMessage
  peer : ReadSocket
  taken : List Received
  failed : Option Errno

inductive LinkOp
  | write (op : WriteOp)
  | dispatch (ks : List Nat)

/-- What is written is on its way to the peer at once. -/
def Link.step (zephyr : Bool) (l : Link) : LinkOp → Link
  | .write op =>
    let (bus, sent) := op.run (l.bus, l.sent)
    let peer := { l.peer with input := l.peer.input ++ bus.written.drop l.bus.written.length }
    { l with bus := bus, sent := sent, peer := peer }
  | .dispatch ks =>
    match dispatchRqueue zephyr false ks l.peer with
    | (.error r, peer) => { l with peer := peer, failed := some r }
    | (.ok (_, m), peer) => { l with peer := peer, taken := l.taken ++ m.toList }

def Link.start (bus : SendBus) : Link := ⟨bus.fresh, [], ⟨[], [], []⟩, [], none⟩

def Link.blobs (l : Link) : List Bytes := l.sent.map SealedMessage.blob

/-- The peer can read the messages, and its queue has room for all that are on their way. -/
def Link.Fits (l : Link) : LinkOp → Prop
  | .write _ => True
  | .dispatch _ => (∀ b ∈ l.blobs, ValidMessage b) ∧
      l.sent.length ≤ l.taken.length + busRqueueMax

/-- Nothing is lost, doubled or out of order: the messages sent are those received and then those
whose bytes are on their way, and when no byte is on its way all of them have been received. -/
structure Link.Delivers (l : Link) : Prop where
  works : l.failed = none
  order : ∃ done left, l.blobs = done ++ left ∧ Parsed₂ done (l.taken ++ l.peer.rqueue) ∧
    l.peer.rbuffer ++ l.peer.input ++ l.bus.pending = left.flatten
  complete : l.peer.input = [] → l.bus.pending = [] → Parsed₂ l.blobs (l.taken ++ l.peer.rqueue)

/-! ## What has arrived -/

/-- The part of a stream of messages that has arrived: whole messages, and the beginning of the
next. -/
theorem arrived_split (left : List Bytes) : ∀ {x y : Bytes}, (∀ b ∈ left, ValidMessage b) →
    x ++ y = left.flatten → ∃ msgs later rest, left = msgs ++ later ∧ x = msgs.flatten ++ rest ∧
      Incomplete rest ∧ rest ++ y = later.flatten ∧ ∀ b ∈ later.head?, rest.length < b.length := by
  induction left with
  | nil =>
    intro x y _ h
    obtain ⟨rfl, rfl⟩ := List.append_eq_nil_iff.mp h
    exact ⟨[], [], [], rfl, rfl, .inl rfl, rfl, by simp⟩
  | cons b left ih =>
    intro x y hvalid h
    rw [List.flatten_cons] at h
    by_cases hlt : x.length < b.length
    · refine ⟨[], b :: left, x, rfl, rfl, .inr ⟨b, hvalid b (List.mem_cons_self ..), ?_, hlt⟩,
        ?_, ?_⟩
      · exact List.prefix_of_prefix_length_le ⟨y, h⟩ (List.prefix_append _ _) hlt.le
      · rw [h, List.flatten_cons]
      · simpa using hlt
    · obtain ⟨x', rfl⟩ := List.prefix_of_prefix_length_le (List.prefix_append b left.flatten) ⟨y, h⟩
        (not_lt.mp hlt)
      rw [List.append_assoc] at h
      obtain ⟨msgs, later, rest, rfl, rfl, hrest, hy, hhead⟩ :=
        ih (fun b' hb => hvalid b' (List.mem_cons_of_mem _ hb)) (List.append_cancel_left h)
      exact ⟨b :: msgs, later, rest, rfl, by simp, hrest, hy, hhead⟩

/-- What a call of `dispatch_rqueue` does with the stream `msgs` followed by `rest`. -/
theorem dispatchRqueue_spec (zephyr : Bool) {rest : Bytes} (hrest : Incomplete rest)
    (ks : List Nat) : ∀ (ret : Bool) {msgs : List Bytes} {s : ReadSocket},
    (∀ b ∈ msgs, ValidMessage b) → s.rbuffer ++ s.input = msgs.flatten ++ rest →
    s.rqueue.length + msgs.length ≤ busRqueueMax → s.Drained msgs →
    ∃ r m s' done left parsed, dispatchRqueue zephyr ret ks s = (.ok (r, m), s') ∧
      msgs = done ++ left ∧ Parsed₂ done parsed ∧ m.toList ++ s'.rqueue = s.rqueue ++ parsed ∧
      s'.rbuffer ++ s'.input = left.flatten ++ rest ∧ s'.Drained left := by
  have htake : ∀ (ret : Bool) (s : ReadSocket), ∃ r m s', s.takeHead ret = (.ok (r, m), s') ∧
      m.toList ++ s'.rqueue = s.rqueue ∧ s'.rbuffer = s.rbuffer ∧ s'.input = s.input := by
    intro ret s
    unfold ReadSocket.takeHead
    split
    · rename_i m ms hq
      exact ⟨_, _, _, rfl, hq.symm, rfl, rfl⟩
    · exact ⟨_, _, _, rfl, rfl, rfl, rfl⟩
  induction ks with
  | nil =>
    intro ret msgs s hvalid hstream hqueue hd
    unfold dispatchRqueue
    by_cases hne : s.rqueue ≠ []
    · obtain ⟨r, m, s', heq, hq, hb, hi⟩ := htake ret s
      refine ⟨r, m, s', [], msgs, [], by rw [if_pos hne, heq], rfl, .nil, by simpa using hq,
        by rw [hb, hi, hstream], by rwa [ReadSocket.Drained, hb]⟩
    · obtain ⟨r, s₁, done, left, parsed, hcall, hbehind, hd₁, -⟩ :=
        busSocketReadMessage_spec zephyr 0 hrest hvalid hstream hqueue
      obtain ⟨r', m, s', heq, hq, hb, hi⟩ := htake (ret || r) s₁
      refine ⟨r', m, s', done, left, parsed, by simp only [if_neg hne, hcall, heq],
        hbehind.msgs_eq, hbehind.made, by rw [hq, hbehind.rqueue], by rw [hb, hi, hbehind.stream],
        by rwa [ReadSocket.Drained, hb]⟩
  | cons k ks ih =>
    intro ret msgs s hvalid hstream hqueue hd
    unfold dispatchRqueue
    by_cases hne : s.rqueue ≠ []
    · obtain ⟨r, m, s', heq, hq, hb, hi⟩ := htake ret s
      refine ⟨r, m, s', [], msgs, [], by rw [if_pos hne, heq], rfl, .nil, by simpa using hq,
        by rw [hb, hi, hstream], by rwa [ReadSocket.Drained, hb]⟩
    · obtain ⟨r, s₁, done, left, parsed, hcall, hbehind, hd₁, -⟩ :=
        busSocketReadMessage_spec zephyr k hrest hvalid hstream hqueue
      cases r with
      | false =>
        exact ⟨ret, none, s₁, done, left, parsed, by simp only [if_neg hne, hcall],
          hbehind.msgs_eq, hbehind.made, hbehind.rqueue, hbehind.stream, hd₁⟩
      | true =>
        obtain ⟨hvalid', hqueue'⟩ := hbehind.left_valid hvalid hqueue
        obtain ⟨r, m, s', done', left', parsed', hcall', hleft, hmade, hq, hs, hd'⟩ :=
          ih true hvalid' hbehind.stream hqueue' hd₁
        refine ⟨r, m, s', done ++ done', left', parsed ++ parsed',
          by simp only [if_neg hne, hcall, hcall'], ?_, hbehind.made.append hmade, ?_, hs, hd'⟩
        · rw [hbehind.msgs_eq, hleft, List.append_assoc]
        · rw [hq, hbehind.rqueue, List.append_assoc]

/-! ## What is written stays written -/

theorem dispatchWqueueLoop_written (fuel : Nat) : ∀ {ret : Bool} {rs : List SendResult}
    {bus : SendBus}, bus.written <+: (dispatchWqueueLoop fuel ret rs bus).2.written := by
  induction fuel with
  | zero => exact List.prefix_rfl
  | succ fuel ih =>
    intro ret rs bus
    simp only [dispatchWqueueLoop]
    split
    · exact List.prefix_rfl
    · split
      · exact List.prefix_append _ _
      · exact List.prefix_append _ _
      · split
        · refine List.IsPrefix.trans ?_ ih
          exact List.prefix_append _ _
        · refine List.IsPrefix.trans ?_ ih
          exact List.prefix_append _ _

theorem sendPrepare_written (bus : SendBus) (call : SendCall) :
    (sendPrepare bus call).2.written = bus.written := by
  have hseal : (busSealMessage bus call.wantsCookie call.arg).2.written = bus.written := by
    unfold busSealMessage
    split
    · rfl
    · simp only
      split <;> rfl
  unfold sendPrepare
  split
  · rfl
  · simp only
    split
    · rfl
    · rfl
    · generalize busSealMessage bus call.wantsCookie call.arg = p at hseal
      obtain ⟨r, bus'⟩ := p
      cases r <;> exact hseal

theorem sendMessage_written (bus : SendBus) (m : SealedMessage) (rs : List SendResult) :
    bus.written <+: (sendMessage bus m rs).2.written := by
  unfold sendMessage
  split
  · exact List.prefix_rfl
  · split
    · simp only
      split
      · split <;> exact List.prefix_rfl
      · split <;> exact List.prefix_append _ _
    · split <;> exact List.prefix_rfl

theorem WriteOp.run_written (op : WriteOp) (s : SendBus × List SealedMessage) :
    s.1.written <+: (op.run s).1.written := by
  cases op with
  | send call =>
    have hprep := sendPrepare_written s.1 call
    simp only [WriteOp.run, sdBusSend]
    generalize sendPrepare s.1 call = p at hprep
    obtain ⟨r, bus⟩ := p
    cases r with
    | error r => exact hprep ▸ List.prefix_rfl
    | ok m =>
      have hsend := sendMessage_written bus m call.results
      simp only at hprep ⊢
      generalize sendMessage bus m call.results = q at hsend
      obtain ⟨r, bus'⟩ := q
      cases r <;> exact hprep ▸ hsend
  | dispatch rs =>
    simp only [WriteOp.run]
    split
    · exact dispatchWqueueLoop_written _
    · exact List.prefix_rfl
  | enter state canFds => exact List.prefix_rfl

/-! ## Every step -/

/-- The messages `left` have not been received, and the peer has the beginning of their bytes. -/
structure Link.Ok (l : Link) (done left : List Bytes) : Prop where
  queued : Queued l.bus l.sent
  works : l.failed = none
  blobs : l.blobs = done ++ left
  parsed : Parsed₂ done (l.taken ++ l.peer.rqueue)
  stream : l.peer.rbuffer ++ l.peer.input ++ l.bus.pending = left.flatten
  drained : l.peer.Drained left

def Link.Sound (l : Link) : Prop := ∃ done left, l.Ok done left

theorem Link.Sound.delivers {l : Link} (h : l.Sound) : l.Delivers := by
  obtain ⟨done, left, h⟩ := h
  refine ⟨h.works, ⟨done, left, h.blobs, h.parsed, h.stream⟩, fun hin hpend => ?_⟩
  have hstream := h.stream
  rw [hpend, List.append_nil] at hstream
  obtain ⟨rfl, -⟩ := h.drained.left_nil hin (hstream.trans (List.append_nil _).symm)
  rw [h.blobs, List.append_nil]
  exact h.parsed

theorem Link.Ok.write {l : Link} {done left : List Bytes} (h : l.Ok done left) (zephyr : Bool)
    (op : WriteOp) : (l.step zephyr (.write op)).Sound := by
  obtain ⟨out, hout⟩ := op.run_written (l.bus, l.sent)
  have hqueued : Queued (op.run (l.bus, l.sent)).1 (op.run (l.bus, l.sent)).2 :=
    WriteOp.run_queued h.queued
  obtain ⟨new, hnew⟩ : ∃ new, (op.run (l.bus, l.sent)).2 = l.sent ++ new := by
    cases op with
    | send call => exact ⟨_, rfl⟩
    | dispatch rs => exact ⟨[], (List.append_nil _).symm⟩
    | enter state canFds => exact ⟨[], (List.append_nil _).symm⟩
  have hpending : out ++ (op.run (l.bus, l.sent)).1.pending =
      l.bus.pending ++ (new.map SealedMessage.blob).flatten := by
    have hstream := hqueued.stream
    rw [hnew, List.map_append, List.flatten_append, ← h.queued.stream, ← hout] at hstream
    simp only [List.append_assoc] at hstream
    exact List.append_cancel_left hstream
  have hinput : (l.step zephyr (.write op)).peer.input = l.peer.input ++ out := by
    simp only [Link.step, ← hout, List.drop_left]
  refine ⟨done, left ++ new.map SealedMessage.blob, hqueued, h.works, ?_, h.parsed, ?_, ?_⟩
  · rw [Link.blobs, Link.step]
    simp only [hnew, List.map_append, ← List.append_assoc]
    rw [← h.blobs, Link.blobs]
  · rw [hinput, List.flatten_append, ← h.stream]
    change l.peer.rbuffer ++ (l.peer.input ++ out) ++ (op.run (l.bus, l.sent)).1.pending = _
    simp only [List.append_assoc, hpending]
  · intro b hb
    cases left with
    | cons b' left => exact h.drained b hb
    | nil =>
      have hnil := h.stream
      simp only [List.flatten_nil, List.append_eq_nil_iff] at hnil
      obtain ⟨m, -, rfl⟩ := List.mem_map.mp (List.mem_of_mem_head? hb)
      change l.peer.rbuffer.length < _
      rw [hnil.1.1, m.length_blob]
      exact m.size_pos

theorem Link.Ok.dispatch {l : Link} {done left : List Bytes} (h : l.Ok done left) (zephyr : Bool)
    {ks : List Nat} (hfits : l.Fits (.dispatch ks)) : (l.step zephyr (.dispatch ks)).Sound := by
  obtain ⟨hvalid, hroom⟩ := hfits
  rw [h.blobs] at hvalid
  have hvalid' : ∀ b ∈ left, ValidMessage b := fun b hb => hvalid b (List.mem_append_right _ hb)
  obtain ⟨msgs, later, rest, rfl, hx, hrest, hy, hhead⟩ := arrived_split left hvalid' h.stream
  have hlen : l.peer.rqueue.length + msgs.length ≤ busRqueueMax := by
    have h1 := congrArg List.length h.blobs
    have h2 := h.parsed.length_eq
    simp only [Link.blobs, List.length_map, List.length_append] at h1 h2
    omega
  have hd : l.peer.Drained msgs := by
    intro b hb
    refine h.drained b ?_
    cases msgs with
    | nil => cases hb
    | cons => exact hb
  obtain ⟨r, m, s', done', left', parsed, hcall, hmsgs, hmade, hq, hs, hd'⟩ :=
    dispatchRqueue_spec zephyr hrest ks false
      (fun b hb => hvalid' b (List.mem_append_left _ hb)) hx hlen hd
  rw [Link.step]
  simp only [hcall]
  refine ⟨done ++ done', left' ++ later, h.queued, h.works, ?_, ?_, ?_, ?_⟩
  · change l.blobs = _
    rw [h.blobs, hmsgs]
    simp only [List.append_assoc]
  · have hall := h.parsed.append hmade
    rw [List.append_assoc, ← hq] at hall
    rwa [List.append_assoc]
  · change s'.rbuffer ++ s'.input ++ l.bus.pending = _
    rw [hs, List.append_assoc, hy, List.flatten_append]
  · intro b hb
    cases left' with
    | cons b' left' => exact hd' b hb
    | nil =>
      have hlt := hhead b hb
      have hle := congrArg List.length hs
      simp only [List.flatten_nil, List.nil_append, List.length_append] at hle
      change s'.rbuffer.length < _
      omega

theorem Link.statesAll_sound {zephyr : Bool} {bus : SendBus} {ops : List LinkOp}
    (hfits : StepsAll (Link.step zephyr) Link.Fits (Link.start bus) ops) :
    StatesAll (Link.step zephyr) Link.Sound (Link.start bus) ops := by
  have hstart : (Link.start bus).Sound := by
    refine ⟨[], [], ⟨rfl, fun _ => rfl, ?_⟩, rfl, rfl, .nil, rfl, by simp [ReadSocket.Drained]⟩
    intro m ms hq
    cases hq
  refine hfits.statesAll (fun l op h hop => ?_) ops hstart
  obtain ⟨done, left, h⟩ := h
  cases op with
  | write op => exact h.write zephyr op
  | dispatch ks => exact h.dispatch zephyr hop

/-- Whatever the sizes of the pieces and whoever goes on first: one bus receives what the other has
sent. -/
theorem link_delivers (zephyr : Bool) (bus : SendBus) (ops : List LinkOp)
    (hfits : StepsAll (Link.step zephyr) Link.Fits (Link.start bus) ops) :
    StatesAll (Link.step zephyr) Link.Delivers (Link.start bus) ops :=
  StatesAll.imp (fun _ h => h.delivers) ops (Link.statesAll_sound hfits)

def returnOps : List LinkOp :=
  let m : SealedMessage := ⟨emptyReturn, [], 0, 1, 0, false, by decide, rfl⟩
  [.write (.enter .running false), .write (.send ⟨.sealed m, false, .ok (), .ok, [.took 10]⟩),
    .dispatch [3], .write (.dispatch [.took 100]), .dispatch [1, 100]]

theorem returnOps_fit : StepsAll (Link.step false) Link.Fits (Link.start {}) returnOps := by
  refine ⟨trivial, trivial, ⟨?_, by decide⟩, trivial, ⟨?_, by decide⟩, trivial⟩
  all_goals
    intro b hb
    exact List.mem_singleton.mp hb ▸ validMessage_emptyReturn

theorem link_delivers_return :
    StatesAll (Link.step false) Link.Delivers (Link.start {}) returnOps :=
  link_delivers false {} returnOps returnOps_fit

/-! ## The values that are received -/

def SealedMessage.Holds (m : SealedMessage) (T : Tree) : Prop :=
  ∃ d fs cookie s, Draft d fs T ∧ sdBusMessageSeal d cookie = .ok s ∧ s.fds = [] ∧
    m.blob = s.blob ∧ Header.Acceptable { d.header with serial := cookie } ∧ T.Readable d.endian

def Received.Reads (T : Tree) (r : Received) : Prop :=
  ∃ r', ReadItems (sdBusMessageRewind r) (Val.items [] T.root) r'

theorem SealedMessage.Holds.reads {m : SealedMessage} {T : Tree} (h : m.Holds T) {r : Received}
    (hr : busMessageFromMalloc m.blob [] = .ok r) : r.Reads T := by
  obtain ⟨d, fs, cookie, s, hd, hseal, hfds, hblob, hacc, hread⟩ := h
  obtain ⟨r₁, r', hr₁, hitems⟩ := (hd.readsBack_iff hseal).mpr ⟨hacc, hread⟩
  rw [hfds] at hr₁ hitems
  rw [hblob, hr₁] at hr
  obtain rfl := Except.ok.inj hr
  exact ⟨r', hitems⟩

end Basu
