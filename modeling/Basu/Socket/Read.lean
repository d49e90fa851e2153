import Basu.Socket.Size
import Mathlib.Data.List.Forall2

/-! Reading messages from the socket. Whatever pieces the bytes arrive in, the messages put into
the read queue are those of the stream, and the receive buffer holds what follows them. -/

namespace Basu
open Lib

def busRqueueMax : Nat := 192 * 1024

def zephyrRecvBufSize : Nat := 8192

/-- The receiving side of a bus; `input` is what the peer sends and no read has returned yet. -/
structure ReadSocket where
  rbuffer : Bytes
  rqueue : List Received
  input : Bytes

def busSocketMakeMessage (s : ReadSocket) (size : Nat) : Except Errno ReadSocket :=
  if busRqueueMax ≤ s.rqueue.length then .error .enobufs
  else match busMessageFromMalloc (s.rbuffer.take size) [] with
    | .error r => .error r
    | .ok t => .ok { s with rbuffer := s.rbuffer.drop size, rqueue := s.rqueue ++ [t] }

/-- The loop that extracts all complete messages; says whether it made one and how much is needed
for the next. -/
def extractMessages : Nat → Bool → ReadSocket → Except Errno (Bool × Nat) × ReadSocket
  | 0, made, s => (.ok (made, 0), s)
  | fuel + 1, made, s =>
    match busSocketReadMessageNeed .w64 s.rbuffer with
    | .error r => (.error r, s)
    | .ok need =>
      if need ≤ s.rbuffer.length then
        match busSocketMakeMessage s need with
        | .error r => (.error r, s)
        | .ok s => extractMessages fuel true s
      else (.ok (made, need), s)

def ReadSocket.extract (s : ReadSocket) : Except Errno (Bool × Nat) × ReadSocket :=
  extractMessages (s.rbuffer.length + 1) false s

/-- How many bytes one read returns when the socket has `k` ready: no more than asked for, and 0
stands for `EAGAIN`. Zephyr always asks for its whole buffer. -/
def ReadSocket.recvSize (zephyr : Bool) (k need : Nat) (s : ReadSocket) : Nat :=
  min k (min (if zephyr then zephyrRecvBufSize else need - s.rbuffer.length) s.input.length)

def ReadSocket.recv (n : Nat) (s : ReadSocket) : ReadSocket :=
  { s with rbuffer := s.rbuffer ++ s.input.take n, input := s.input.drop n }

def busSocketReadMessage (zephyr : Bool) (k : Nat) (s : ReadSocket) :
    Except Errno Bool × ReadSocket :=
  match s.extract with
  | (.error r, s) => (.error r, s)
  | (.ok (made, need), s) =>
    if made then (.ok true, s)
    else if s.recvSize zephyr k need = 0 then (.ok false, s)
    else match (s.recv (s.recvSize zephyr k need)).extract with
      | (.error r, s) => (.error r, s)
      | (.ok _, s) => (.ok true, s)

def readMessages (zephyr : Bool) : List Nat → ReadSocket → Except Errno ReadSocket
  | [], s => .ok s
  | k :: ks, s =>
    match busSocketReadMessage zephyr k s with
    | (.error r, _) => .error r
    | (.ok _, s) => readMessages zephyr ks s

structure ValidMessage (b : Bytes) : Prop where
  accepted : ∃ m, busMessageFromMalloc b [] = .ok m
  short : b.length < busMessageSizeMax

def Incomplete (rest : Bytes) : Prop :=
  rest = [] ∨ ∃ b, ValidMessage b ∧ rest <+: b ∧ rest.length < b.length

theorem fromMalloc_sizes {b : Bytes} {fds : List Nat} {m : Received}
    (h : busMessageFromMalloc b fds = .ok m) :
    busHeaderSize ≤ b.length ∧ ∃ e, endianOfCode (charAt b 0) = some e ∧
      busHeaderSize + alignUp (getWord e (slice b 12 4)) 8 + getWord e (slice b 4 4) =
        b.length := by
  unfold busMessageFromMalloc at h
  split at h
  · exact absurd h (by simp)
  · rename_i hlen
    split at h
    · exact absurd h (by simp)
    · split at h
      · exact absurd h (by simp)
      · split at h
        · exact absurd h (by simp)
        · rename_i e he
          simp only at h
          split at h
          · exact absurd h (by simp)
          · split at h
            · exact absurd h (by simp)
            · rename_i hsum
              exact ⟨Nat.not_lt.mp hlen, e, he, not_ne_iff.mp hsum⟩

theorem ValidMessage.header_le {b : Bytes} (h : ValidMessage b) : busHeaderSize ≤ b.length := by
  obtain ⟨m, hm⟩ := h.accepted
  exact (fromMalloc_sizes hm).1

theorem readMessageNeed_take (w : SizeT) {x : Bytes} (h : busHeaderSize ≤ x.length) :
    busSocketReadMessageNeed w x = busSocketReadMessageNeed w (x.take busHeaderSize) := by
  have hlen : (x.take busHeaderSize).length = busHeaderSize := by
    rw [List.length_take]
    omega
  have hchar : charAt (x.take busHeaderSize) 0 = charAt x 0 := by
    cases x <;> rfl
  have hslice : ∀ i, i + 4 ≤ busHeaderSize → slice (x.take busHeaderSize) i 4 = slice x i 4 := by
    intro i hi
    simp only [slice, List.drop_take, List.take_take]
    congr 1
    omega
  unfold busSocketReadMessageNeed
  rw [if_neg (by omega), if_neg (by omega), hchar, hslice 4 (by decide), hslice 12 (by decide)]

theorem ValidMessage.need {b : Bytes} (h : ValidMessage b) :
    busSocketReadMessageNeed .w64 b = .ok b.length := by
  obtain ⟨m, hm⟩ := h.accepted
  obtain ⟨hlen, e, he, hsum⟩ := fromMalloc_sizes hm
  have hf : alignable .w64 (getWord e (slice b 12 4)) = true :=
    alignable_w64 (getWord_slice_lt e b 12 4)
  have hshort := h.short
  unfold busSocketReadMessageNeed
  rw [if_neg (by omega), he]
  simp only [SizeT.align8_of_alignable hf, hsum]
  rw [if_neg (by omega)]

theorem ValidMessage.need_of_prefix {b x : Bytes} (h : ValidMessage b) (hx : busHeaderSize ≤ x.length)
    (hp : x <+: b ∨ b <+: x) : busSocketReadMessageNeed .w64 x = .ok b.length := by
  have htake : x.take busHeaderSize = b.take busHeaderSize := by
    rcases hp with ⟨t, rfl⟩ | ⟨t, rfl⟩
    · rw [List.take_append_of_le_length hx]
    · rw [List.take_append_of_le_length h.header_le]
  rw [readMessageNeed_take .w64 hx, htake, ← readMessageNeed_take .w64 h.header_le, h.need]

theorem ValidMessage.need_of_incomplete {b x : Bytes} (h : ValidMessage b) (hp : x <+: b)
    (hlt : x.length < b.length) :
    ∃ need, busSocketReadMessageNeed .w64 x = .ok need ∧ x.length < need := by
  by_cases hx : busHeaderSize ≤ x.length
  · exact ⟨_, h.need_of_prefix hx (Or.inl hp), hlt⟩
  · refine ⟨busHeaderSize + 8, ?_, by omega⟩
    unfold busSocketReadMessageNeed
    rw [if_pos (by omega)]

theorem Incomplete.need {rest x : Bytes} (h : Incomplete rest) (hp : x <+: rest) :
    ∃ need, busSocketReadMessageNeed .w64 x = .ok need ∧ x.length < need := by
  rcases h with rfl | ⟨b, hb, hrest, hlt⟩
  · refine ⟨busHeaderSize + 8, ?_, ?_⟩
    · rw [List.prefix_nil.mp hp]
      rfl
    · rw [List.prefix_nil.mp hp]
      decide
  · exact hb.need_of_incomplete (hp.trans hrest) (hp.length_le.trans_lt hlt)

def Parsed₂ (done : List Bytes) (parsed : List Received) : Prop :=
  List.Forall₂ (fun b m => busMessageFromMalloc b [] = .ok m) done parsed

theorem extractMessages_spec (rest : Bytes) (hrest : Incomplete rest) (msgs : List Bytes) :
    ∀ (fuel : Nat) (made : Bool) (s : ReadSocket), (∀ b ∈ msgs, ValidMessage b) →
      s.rbuffer ++ s.input = msgs.flatten ++ rest →
      s.rqueue.length + msgs.length ≤ busRqueueMax → s.rbuffer.length < fuel →
      ∃ done left parsed rbuffer need, msgs = done ++ left ∧ Parsed₂ done parsed ∧
        extractMessages fuel made s = (.ok (made || !done.isEmpty, need),
          { s with rbuffer := rbuffer, rqueue := s.rqueue ++ parsed }) ∧
        s.rbuffer = done.flatten ++ rbuffer ∧ rbuffer ++ s.input = left.flatten ++ rest ∧
        rbuffer.length < need ∧ ∀ b ∈ left.head?, rbuffer.length < b.length := by
  induction msgs with
  | nil =>
    intro fuel made s _ hstream _ hfuel
    obtain ⟨fuel, rfl⟩ := Nat.exists_eq_succ_of_ne_zero (by omega : fuel ≠ 0)
    have hp : s.rbuffer <+: rest := ⟨s.input, by simpa using hstream⟩
    obtain ⟨need, hneed, hlt⟩ := hrest.need hp
    refine ⟨[], [], [], s.rbuffer, need, rfl, .nil, ?_, rfl, hstream, hlt, by simp⟩
    simp only [extractMessages, hneed, if_neg (Nat.not_le.mpr hlt)]
    simp
  | cons b msgs ih =>
    intro fuel made s hvalid hstream hqueue hfuel
    obtain ⟨fuel, rfl⟩ := Nat.exists_eq_succ_of_ne_zero (by omega : fuel ≠ 0)
    have hb := hvalid b (List.mem_cons_self ..)
    rw [List.flatten_cons, List.append_assoc] at hstream
    by_cases hlen : s.rbuffer.length < b.length
    · -- the first message has not arrived as a whole
      have hp : s.rbuffer <+: b :=
        List.prefix_of_prefix_length_le ⟨s.input, hstream⟩ ⟨_, rfl⟩ (by omega)
      obtain ⟨need, hneed, hlt⟩ := hb.need_of_incomplete hp hlen
      refine ⟨[], b :: msgs, [], s.rbuffer, need, rfl, .nil, ?_, rfl, ?_, hlt, ?_⟩
      · simp only [extractMessages, hneed, if_neg (Nat.not_le.mpr hlt)]
        simp
      · rw [List.flatten_cons, List.append_assoc]
        exact hstream
      · intro b' hb'
        simp only [List.head?_cons, Option.mem_def, Option.some.injEq] at hb'
        exact hb' ▸ hlen
    · have hp : b <+: s.rbuffer :=
        List.prefix_of_prefix_length_le ⟨_, rfl⟩ ⟨s.input, hstream⟩ (by omega)
      obtain ⟨x, hx⟩ := hp
      obtain ⟨m, hm⟩ := hb.accepted
      have hneed := hb.need_of_prefix (x := s.rbuffer) (by have := hb.header_le; omega)
        (Or.inr ⟨x, hx⟩)
      have hqueue' : ¬ busRqueueMax ≤ s.rqueue.length := by
        simp only [List.length_cons] at hqueue
        omega
      have hmake : busSocketMakeMessage s b.length =
          .ok { s with rbuffer := x, rqueue := s.rqueue ++ [m] } := by
        unfold busSocketMakeMessage
        rw [if_neg hqueue', ← hx, List.take_left, hm, List.drop_left]
      have hxs : x ++ s.input = msgs.flatten ++ rest := by
        rw [← hx, List.append_assoc] at hstream
        exact List.append_cancel_left hstream
      obtain ⟨done, left, parsed, rbuffer, need, hmsgs, hparsed, hext, hrb, hrest', hlt, hhead⟩ :=
        ih fuel true { s with rbuffer := x, rqueue := s.rqueue ++ [m] }
          (fun b' hb' => hvalid b' (List.mem_cons_of_mem _ hb')) hxs
          (by simp only [List.length_append, List.length_cons, List.length_nil] at hqueue ⊢; omega)
          (by
            have := hb.header_le
            have hl := congrArg List.length hx
            simp only [List.length_append] at hl
            simp only [busHeaderSize] at this
            show x.length < fuel
            omega)
      refine ⟨b :: done, left, m :: parsed, rbuffer, need, by rw [hmsgs]; rfl, .cons hm hparsed,
        ?_, ?_, hrest', hlt, hhead⟩
      · simp only [extractMessages, hneed, hmake]
        rw [if_pos (by omega), hext]
        simp
      · have hrb : x = done.flatten ++ rbuffer := hrb
        rw [← hx, hrb, List.flatten_cons, List.append_assoc]

/-- How far a run of reads has come in a stream of messages `msgs` followed by `rest`: `done` have
been appended to the queue as `parsed`, and the rest of the stream is still there. -/
structure ReadSocket.Behind (s s' : ReadSocket) (msgs : List Bytes) (rest : Bytes)
    (done left : List Bytes) (parsed : List Received) : Prop where
  msgs_eq : msgs = done ++ left
  made : Parsed₂ done parsed
  rqueue : s'.rqueue = s.rqueue ++ parsed
  stream : s'.rbuffer ++ s'.input = left.flatten ++ rest

def ReadSocket.Drained (s : ReadSocket) (left : List Bytes) : Prop :=
  ∀ b ∈ left.head?, s.rbuffer.length < b.length

theorem ReadSocket.extract_spec {rest : Bytes} (hrest : Incomplete rest) {msgs : List Bytes}
    {s : ReadSocket} (hvalid : ∀ b ∈ msgs, ValidMessage b)
    (hstream : s.rbuffer ++ s.input = msgs.flatten ++ rest)
    (hqueue : s.rqueue.length + msgs.length ≤ busRqueueMax) :
    ∃ done left parsed need s', s.extract = (.ok (!done.isEmpty, need), s') ∧
      s.Behind s' msgs rest done left parsed ∧ s'.Drained left ∧ s'.input = s.input ∧
      s'.rbuffer.length < need := by
  obtain ⟨done, left, parsed, rbuffer, need, hmsgs, hparsed, hext, -, hleft, hlt, hhead⟩ :=
    extractMessages_spec rest hrest msgs (s.rbuffer.length + 1) false s hvalid hstream hqueue
      (Nat.lt_succ_self _)
  exact ⟨done, left, parsed, need, { s with rbuffer := rbuffer, rqueue := s.rqueue ++ parsed },
    by simpa [ReadSocket.extract] using hext, ⟨hmsgs, hparsed, rfl, hleft⟩, hhead, rfl, hlt⟩

theorem Parsed₂.append {done done' : List Bytes} {parsed parsed' : List Received}
    (h : Parsed₂ done parsed) (h' : Parsed₂ done' parsed') :
    Parsed₂ (done ++ done') (parsed ++ parsed') :=
  List.rel_append h h'

theorem Parsed₂.length_eq {done : List Bytes} {parsed : List Received} (h : Parsed₂ done parsed) :
    done.length = parsed.length :=
  List.Forall₂.length_eq h

theorem ReadSocket.Behind.trans {s s' s'' : ReadSocket} {msgs done left done' left' : List Bytes}
    {rest : Bytes} {parsed parsed' : List Received} (h : s.Behind s' msgs rest done left parsed)
    (h' : s'.Behind s'' left rest done' left' parsed') :
    s.Behind s'' msgs rest (done ++ done') left' (parsed ++ parsed') where
  msgs_eq := by rw [h.msgs_eq, h'.msgs_eq, List.append_assoc]
  made := h.made.append h'.made
  rqueue := by rw [h'.rqueue, h.rqueue, List.append_assoc]
  stream := h'.stream

theorem ReadSocket.Behind.left_valid {s s' : ReadSocket} {msgs done left : List Bytes}
    {rest : Bytes} {parsed : List Received} (h : s.Behind s' msgs rest done left parsed)
    (hvalid : ∀ b ∈ msgs, ValidMessage b) (hqueue : s.rqueue.length + msgs.length ≤ busRqueueMax) :
    (∀ b ∈ left, ValidMessage b) ∧ s'.rqueue.length + left.length ≤ busRqueueMax := by
  refine ⟨fun b hb => hvalid b (h.msgs_eq ▸ List.mem_append_right _ hb), ?_⟩
  have hl := h.made.length_eq
  rw [h.msgs_eq, List.length_append] at hqueue
  rw [h.rqueue, List.length_append]
  omega

theorem busSocketReadMessage_spec (zephyr : Bool) (k : Nat) {rest : Bytes}
    (hrest : Incomplete rest) {msgs : List Bytes} {s : ReadSocket}
    (hvalid : ∀ b ∈ msgs, ValidMessage b)
    (hstream : s.rbuffer ++ s.input = msgs.flatten ++ rest)
    (hqueue : s.rqueue.length + msgs.length ≤ busRqueueMax) :
    ∃ r s' done left parsed, busSocketReadMessage zephyr k s = (.ok r, s') ∧
      s.Behind s' msgs rest done left parsed ∧ s'.Drained left ∧
      s'.input.length ≤ s.input.length ∧
      (s.Drained msgs → 0 < k → s.input ≠ [] → s'.input.length < s.input.length) := by
  obtain ⟨done, left, parsed, need, s₁, hext, hb, hd, hin, hlt⟩ :=
    ReadSocket.extract_spec hrest hvalid hstream hqueue
  unfold busSocketReadMessage
  simp only [hext]
  by_cases hmade : done = []
  · subst hmade
    simp only [List.isEmpty_nil, Bool.not_true, Bool.false_eq_true, if_false]
    by_cases hn : s₁.recvSize zephyr k need = 0
    · rw [if_pos hn]
      refine ⟨false, s₁, [], left, parsed, rfl, hb, hd, by rw [hin], fun _ hk hne => ?_⟩
      have hpos : 0 < s.input.length := List.length_pos_iff.mpr hne
      simp only [ReadSocket.recvSize, hin] at hn
      cases zephyr <;> simp only [Bool.false_eq_true, if_false, if_true, zephyrRecvBufSize] at hn <;>
        omega
    · rw [if_neg hn]
      have hle : s₁.recvSize zephyr k need ≤ s₁.input.length := by
        simp only [ReadSocket.recvSize]
        omega
      obtain ⟨hvalid', hqueue'⟩ := hb.left_valid hvalid hqueue
      have hstream' : (s₁.recv (s₁.recvSize zephyr k need)).rbuffer ++
          (s₁.recv (s₁.recvSize zephyr k need)).input = left.flatten ++ rest := by
        simp only [ReadSocket.recv, List.append_assoc, List.take_append_drop]
        exact hb.stream
      obtain ⟨done', left', parsed', need', s₂, hext', hb', hd', hin', -⟩ :=
        ReadSocket.extract_spec hrest hvalid' hstream' hqueue'
      have hb₁ : s₁.Behind s₂ left rest done' left' parsed' :=
        ⟨hb'.msgs_eq, hb'.made, hb'.rqueue, hb'.stream⟩
      have hlen : s₂.input.length = s.input.length - s₁.recvSize zephyr k need := by
        rw [hin']
        simp only [ReadSocket.recv, List.length_drop, hin]
      simp only [hext']
      refine ⟨true, s₂, [] ++ done', left', _, rfl, hb.trans hb₁, hd', by omega, fun _ _ _ => ?_⟩
      rw [hin] at hle
      omega
  · have hne : (!done.isEmpty) = true := by
      cases done with
      | nil => exact absurd rfl hmade
      | cons => rfl
    simp only [hne, if_true]
    refine ⟨true, s₁, done, left, parsed, rfl, hb, hd, by rw [hin], fun hdr => ?_⟩
    -- a drained buffer has no complete message in it
    exfalso
    cases done with
    | nil => exact hmade rfl
    | cons b done =>
      obtain ⟨done', left', parsed', rbuffer, need', hmsgs', hp', hext', hrb, -, -, -⟩ :=
        extractMessages_spec rest hrest msgs (s.rbuffer.length + 1) false s hvalid hstream hqueue
          (Nat.lt_succ_self _)
      rw [ReadSocket.extract, hext'] at hext
      simp only [Prod.mk.injEq, Except.ok.injEq, Bool.false_or, List.isEmpty_cons] at hext
      cases done' with
      | nil => exact absurd hext.1.1 (by simp)
      | cons b' done' =>
        have hb' := hdr b' (by rw [hmsgs']; rfl)
        rw [hrb] at hb'
        simp only [List.flatten_cons, List.length_append] at hb'
        omega

theorem List.length_filter_pos_cons (k : Nat) (ks : List Nat) :
    ((k :: ks).filter (0 < ·)).length = (if 0 < k then 1 else 0) + (ks.filter (0 < ·)).length := by
  by_cases h : 0 < k
  · simp [h, Nat.add_comm]
  · simp [h]

theorem readMessages_drained (zephyr : Bool) {rest : Bytes} (hrest : Incomplete rest)
    (ks : List Nat) : ∀ {msgs : List Bytes} {s : ReadSocket}, (∀ b ∈ msgs, ValidMessage b) →
    s.rbuffer ++ s.input = msgs.flatten ++ rest →
    s.rqueue.length + msgs.length ≤ busRqueueMax → s.Drained msgs →
    ∃ s' done left parsed, readMessages zephyr ks s = .ok s' ∧
      s.Behind s' msgs rest done left parsed ∧ s'.Drained left ∧
      s'.input.length ≤ s.input.length - (ks.filter (0 < ·)).length := by
  induction ks with
  | nil =>
    intro msgs s _ hstream _ hd
    exact ⟨s, [], msgs, [], rfl, ⟨rfl, .nil, (List.append_nil _).symm, hstream⟩, hd, by simp⟩
  | cons k ks ih =>
    intro msgs s hvalid hstream hqueue hd
    obtain ⟨r, s₁, done, left, parsed, hcall, hb, hd₁, hle, hprog⟩ :=
      busSocketReadMessage_spec zephyr k hrest hvalid hstream hqueue
    obtain ⟨hvalid', hqueue'⟩ := hb.left_valid hvalid hqueue
    obtain ⟨s', done', left', parsed', hrun, hb', hd', hlen⟩ := ih hvalid' hb.stream hqueue' hd₁
    refine ⟨s', _, left', _, ?_, hb.trans hb', hd', ?_⟩
    · simp only [readMessages, hcall, hrun]
    · rw [List.length_filter_pos_cons]
      split
      · rename_i hk
        by_cases hin : s.input = []
        · rw [hin] at hle
          simp only [List.length_nil] at hle
          omega
        · have := hprog hd hk hin
          omega
      · omega

theorem ReadSocket.Drained.left_nil {s : ReadSocket} {left : List Bytes} {rest : Bytes}
    (h : s.Drained left) (hin : s.input = []) (hs : s.rbuffer ++ s.input = left.flatten ++ rest) :
    left = [] ∧ s.rbuffer = rest := by
  rw [hin, List.append_nil] at hs
  cases left with
  | nil => exact ⟨rfl, hs⟩
  | cons b left =>
    have hb := h b rfl
    rw [hs] at hb
    simp only [List.flatten_cons, List.length_append] at hb
    omega

theorem readMessages_framed (zephyr : Bool) (ks : List Nat) (msgs : List Bytes) (rest : Bytes)
    (s : ReadSocket) (hvalid : ∀ b ∈ msgs, ValidMessage b) (hrest : Incomplete rest)
    (hstream : s.rbuffer ++ s.input = msgs.flatten ++ rest)
    (hqueue : s.rqueue.length + msgs.length ≤ busRqueueMax) :
    ∃ s' done left parsed, readMessages zephyr ks s = .ok s' ∧
      s.Behind s' msgs rest done left parsed ∧
      (ks ≠ [] → s'.Drained left) ∧
      (ks ≠ [] → s'.input = [] → done = msgs ∧ s'.rbuffer = rest) ∧
      (s.input.length < (ks.filter (0 < ·)).length → s'.input = []) := by
  cases ks with
  | nil =>
    exact ⟨s, [], msgs, [], rfl, ⟨rfl, .nil, (List.append_nil _).symm, hstream⟩,
      fun h => absurd rfl h, fun h => absurd rfl h, fun h => absurd h (by simp)⟩
  | cons k ks =>
    -- the first call drains the buffer, whatever it was
    obtain ⟨r, s₁, done, left, parsed, hcall, hb, hd₁, hle, -⟩ :=
      busSocketReadMessage_spec zephyr k hrest hvalid hstream hqueue
    obtain ⟨hvalid', hqueue'⟩ := hb.left_valid hvalid hqueue
    obtain ⟨s', done', left', parsed', hrun, hb', hd', hlen⟩ :=
      readMessages_drained zephyr hrest ks hvalid' hb.stream hqueue' hd₁
    have hall := hb.trans hb'
    refine ⟨s', _, left', _, ?_, hall, fun _ => hd', fun _ hin => ?_, fun hk => ?_⟩
    · simp only [readMessages, hcall, hrun]
    · obtain ⟨hleft, hbuf⟩ := hd'.left_nil hin hb'.stream
      exact ⟨by rw [hall.msgs_eq, hleft, List.append_nil], hbuf⟩
    · rw [List.length_filter_pos_cons] at hk
      apply List.length_eq_zero_iff.mp
      split at hk <;> omega

def emptyReturn : Bytes :=
  [108, 2, 1, 1, 0, 0, 0, 0, 1, 0, 0, 0, 8, 0, 0, 0, 5, 1, 117, 0, 1, 0, 0, 0]

theorem validMessage_emptyReturn : ValidMessage emptyReturn := by
  have hok : (busMessageFromMalloc emptyReturn []).isOk = true := by decide +kernel
  refine ⟨?_, by decide⟩
  cases h : busMessageFromMalloc emptyReturn [] with
  | ok m => exact ⟨m, rfl⟩
  | error r =>
    rw [h] at hok
    exact absurd hok (by simp [Except.isOk, Except.toBool])

theorem readMessages_emptyReturn :
    ∃ s' done left parsed,
      readMessages true (List.replicate 50 1) ⟨[], [], emptyReturn ++ emptyReturn ++ [108]⟩ =
        .ok s' ∧
      ReadSocket.Behind ⟨[], [], emptyReturn ++ emptyReturn ++ [108]⟩ s'
        [emptyReturn, emptyReturn] [108] done left parsed ∧
      (List.replicate 50 1 ≠ [] → s'.Drained left) ∧
      (List.replicate 50 1 ≠ [] → s'.input = [] →
        done = [emptyReturn, emptyReturn] ∧ s'.rbuffer = [108]) ∧
      ((emptyReturn ++ emptyReturn ++ [108]).length <
        ((List.replicate 50 1).filter (0 < ·)).length → s'.input = []) :=
  readMessages_framed true (List.replicate 50 1) [emptyReturn, emptyReturn] [108]
    ⟨[], [], emptyReturn ++ emptyReturn ++ [108]⟩
    (by simp [validMessage_emptyReturn])
    (Or.inr ⟨emptyReturn, validMessage_emptyReturn, ⟨emptyReturn.tail, rfl⟩, by decide⟩)
    rfl (by decide)

def widestHeader : Bytes :=
  [108, 2, 1, 1, 216, 255, 255, 7, 1, 0, 0, 0, 18, 0, 0, 0,
    5, 1, 117, 0, 1, 0, 0, 0, 8, 1, 103, 0, 4, 97, 121, 97, 121, 0, 0, 0, 0, 0, 0, 0]

@[irreducible] def widestBody : Bytes :=
  putWord .little 4 (2 ^ 26) ++ zeros (2 ^ 26) ++ putWord .little 4 (2 ^ 26 - 48) ++
    zeros (2 ^ 26 - 48)

/-- A message of 128 MiB. -/
def widestReturn : Bytes := widestHeader ++ widestBody

theorem length_widestBody : widestBody.length = 2 ^ 27 - 40 := by
  unfold widestBody
  simp only [List.length_append, length_putWord, length_zeros]
  norm_num

theorem slice_widestReturn (i n : Nat) (h : i + n ≤ 40) :
    slice widestReturn i n = slice widestHeader i n := by
  have hlen : widestHeader.length = 40 := rfl
  simp only [slice, widestReturn]
  rw [List.drop_append_of_le_length (by omega), List.take_append_of_le_length]
  rw [List.length_drop]
  omega

theorem length_widestReturn : widestReturn.length = 2 ^ 27 := by
  rw [widestReturn, List.length_append, length_widestBody]
  decide

theorem charAt_widestReturn {i : Nat} (h : i < 40) :
    charAt widestReturn i = charAt widestHeader i := by
  simp only [charAt, widestReturn, List.getD_eq_getElem?_getD]
  rw [List.getElem?_append_left h]

theorem parseFields_widestHeader : ∃ P, parseFieldsLoop .little (slice widestHeader 16 18) 19
      { header := { type := 2, flags := 1, serial := 1, fields := slice widestHeader 16 18 } } 0 =
        .ok P ∧ P.unixFds = none ∧ hasRequiredFields P.header = true ∧
        notLocal P.header = true := by
  have h : (parseFieldsLoop .little (slice widestHeader 16 18) 19
      { header := { type := 2, flags := 1, serial := 1, fields := slice widestHeader 16 18 } }
      0).toOption.any (fun P => decide (P.unixFds = none) && hasRequiredFields P.header &&
        notLocal P.header) = true := by
    decide +kernel
  cases hP : parseFieldsLoop .little (slice widestHeader 16 18) 19
      { header := { type := 2, flags := 1, serial := 1, fields := slice widestHeader 16 18 } } 0 with
  | error r =>
    rw [hP] at h
    exact absurd h (by simp [Except.toOption])
  | ok P =>
    rw [hP] at h
    simp only [Except.toOption, Option.any_some, Bool.and_eq_true, decide_eq_true_eq] at h
    exact ⟨P, rfl, h.1.1, h.1.2, h.2⟩

theorem fromMalloc_widestReturn : ∃ m, busMessageFromMalloc widestReturn [] = .ok m := by
  obtain ⟨P, hP, hfds, hreq, hloc⟩ := parseFields_widestHeader
  refine ⟨parsedMessage .little P (widestReturn.drop (16 + 24)) [], ?_⟩
  have hbody : getWord .little (slice widestReturn 4 4) = 2 ^ 27 - 40 := by
    rw [slice_widestReturn 4 4 (by decide)]
    decide
  have hserial : getWord .little (slice widestReturn 8 4) = 1 := by
    rw [slice_widestReturn 8 4 (by decide)]
    decide
  have hfields : getWord .little (slice widestReturn 12 4) = 18 := by
    rw [slice_widestReturn 12 4 (by decide)]
    decide
  have hend : endianOfCode (charAt widestReturn 0) = some .little := by
    rw [charAt_widestReturn (by decide)]
    rfl
  have hup : alignUp 18 8 = 24 := by decide
  have hslice : slice widestReturn 16 18 = slice widestHeader 16 18 :=
    slice_widestReturn 16 18 (by decide)
  have hloop : (slice widestHeader 16 18).length + 1 = 19 := by decide
  unfold busMessageFromMalloc
  rw [charAt_widestReturn (i := 1) (by decide), charAt_widestReturn (i := 2) (by decide),
    charAt_widestReturn (i := 3) (by decide), hend, length_widestReturn,
    if_neg (by decide), if_neg (by decide), if_neg (by decide)]
  simp only [hserial, hfields, hbody, hup, busHeaderSize, hslice]
  rw [if_neg (by decide), if_neg (by decide)]
  unfold busMessageParseFields
  rw [hloop, show charAt widestHeader 1 = 2 from rfl, show charAt widestHeader 2 = 1 from rfl, hP]
  simp only [hfds, hreq, hloc, List.length_nil, Option.getD_none, ne_eq, not_true_eq_false,
    if_false, Bool.true_eq_false]

theorem readMessages_refused {w : Bytes} {r : Errno} (hlen : 24 ≤ w.length)
    (h : busSocketReadMessageNeed .w64 (w.take 16) = .error r) :
    readMessages false [16] ⟨[], [], w⟩ = .error r := by
  have hext : ReadSocket.extract ⟨[], [], w⟩ = (.ok (false, 24), ⟨[], [], w⟩) := rfl
  have hsize : ReadSocket.recvSize false 16 24 ⟨[], [], w⟩ = 16 := by
    simp only [ReadSocket.recvSize, Bool.false_eq_true, if_false, List.length_nil]
    omega
  have hrecv : (ReadSocket.recv 16 ⟨[], [], w⟩).extract =
      (.error r, ReadSocket.recv 16 ⟨[], [], w⟩) := by
    simp only [ReadSocket.extract, ReadSocket.recv, List.nil_append, extractMessages, h]
  simp only [readMessages, busSocketReadMessage, hext, hsize, hrecv, Bool.false_eq_true, if_false,
    OfNat.ofNat_ne_zero]

/-- A message that is accepted when it is handed over as a whole is not read from the socket. -/
theorem not_framed_widestReturn :
    (∃ m, busMessageFromMalloc widestReturn [] = .ok m) ∧
      readMessages false [16] ⟨[], [], widestReturn⟩ = .error .enobufs := by
  refine ⟨fromMalloc_widestReturn, readMessages_refused ?_ ?_⟩
  · rw [length_widestReturn]
    decide
  · rw [widestReturn, List.take_append_of_le_length (by decide)]
    decide

end Basu
