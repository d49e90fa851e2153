import Basu.Socket.Verdict
import Basu.Socket.Write

/-! The answers of a server on their way out (`bus-socket.c`): the array that `sendmsg` is given,
the index of the entry that is being written, and the buffer, which is made anew for every answer.
To the loop over the lines all this is the bytes that are not written yet. -/

namespace Basu
open Lib
open Relation

/-- `struct iovec`: where it starts in the buffer, if it points anywhere, and how long it is. -/
structure AuthIovec where
  base : Option Nat := none
  len : Nat := 0
  deriving DecidableEq, Repr

structure AuthOutput where
  iovec : List AuthIovec := List.replicate 3 {}
  index : Nat := 0
  buffer : Bytes := []
  deriving DecidableEq, Repr

/-- `iovec_advance` on the entries from the index on: what becomes of them, and how many are passed.
There is no result if it goes on behind the array. -/
def AuthIovec.iovecAdvance : List AuthIovec → Nat → Option (List AuthIovec × Nat)
  | iov, 0 => some (iov, 0)
  | [], _ + 1 => none
  | i :: iov, size + 1 =>
    if size + 1 < i.len then
      some ({ base := i.base.map (· + (size + 1)), len := i.len - (size + 1) } :: iov, 0)
    else (AuthIovec.iovecAdvance iov (size + 1 - i.len)).map fun r => ({} :: r.1, r.2 + 1)

namespace AuthOutput

def needsWrite (o : AuthOutput) : Bool := (o.iovec.drop o.index).any fun j => 0 < j.len

def content (o : AuthOutput) (j : AuthIovec) : Bytes :=
  match j.base with
  | none => []
  | some b => (o.buffer.drop b).take j.len

def unwritten (o : AuthOutput) : Bytes := (o.iovec.drop o.index).flatMap o.content

/-- The entries given to `sendmsg`; on Zephyr those that are empty are left out. -/
def given (c : AuthConfig) (o : AuthOutput) : List AuthIovec :=
  (o.iovec.drop o.index).filter fun j => !c.zephyr || 0 < j.len

def advance (o : AuthOutput) (size : Nat) : Option AuthOutput :=
  (AuthIovec.iovecAdvance (o.iovec.drop o.index) size).map fun r =>
    { o with iovec := o.iovec.take o.index ++ r.1, index := o.index + r.2 }

end AuthOutput

/-- `bus_socket_auth_write`; there is no result if its assertion fails. -/
def busSocketAuthWrite (o : AuthOutput) (t : Bytes) : Option AuthOutput :=
  if o.index ≠ 0 ∧ o.index ≠ 1 then none
  else
    match o.iovec with
    | [] => none
    | i :: iov => some
      { iovec := { base := some 0, len := i.len + t.length } :: iov
        index := 0
        buffer := o.content i ++ t }

/-- A server that is authenticating. Its answers are in `output` and not in `bus.unwritten`, and
`written` is what the socket took of them. -/
structure AuthServer where
  bus : AuthBus
  output : AuthOutput := {}
  written : Bytes := []

/-- What a function of the source returns, `true` if it did something; there is nothing if an
assertion fails. -/
abbrev AuthStep := Option (Except Errno Bool × AuthServer)

/-- What a call meets: the clock, the socket that is written to, the one that is read, and whether
file descriptors come with what is read. -/
structure AuthTurn where
  timedOut : Bool
  send : SendResult
  recv : SendResult
  rights : Bool

def AuthTurn.Disconnects (t : AuthTurn) : Prop :=
  (∃ r, (t.send = .failed r ∨ t.recv = .failed r) ∧ isDisconnect r = true) ∨ t.recv = .took 0

namespace AuthServer

def view (s : AuthServer) : AuthBus := { s.bus with unwritten := s.output.unwritten }

/-- `bus_socket_write_auth`; a server sends no NUL byte. -/
def busSocketWriteAuth (c : AuthConfig) (send : SendResult) (s : AuthServer) : AuthStep :=
  if !s.output.needsWrite then some (.ok false, s)
  else
    let bytes := (s.output.given c).flatMap s.output.content
    match send with
    | .again => some (.ok false, s)
    | .failed r => some (.error r, s)
    | .took k =>
      (s.output.advance (min k bytes.length)).map fun o =>
        (.ok true, { s with output := o, written := s.written ++ bytes.take k })

def answer (c : AuthConfig) (s : AuthServer) (l : Nat) : Option AuthServer :=
  let d := s.bus.data.command c (authCommand (s.bus.line l))
  let t := (d.replies.drop s.bus.data.replies.length).flatMap (·.text c.serverId)
  (busSocketAuthWrite s.output t).map fun o =>
    { s with bus := { s.bus with data := d, authRbegin := s.bus.authRbegin + l + 2 }, output := o }

/-- The loop of `bus_socket_auth_verify_server`, with the turns counted as in `verifyServerLoop`. -/
def verifyLoop (c : AuthConfig) : Nat → Bool → AuthServer → AuthStep
  | 0, processed, s => some (.ok processed, s)
  | fuel + 1, processed, s =>
    match memmemCrlf (s.bus.rbuffer.drop s.bus.authRbegin) with
    | none => some (.ok processed, s)
    | some l =>
      if authCommand (s.bus.line l) = .begin ∧ s.bus.data.auth ≠ none then
        if s.output.needsWrite then some (.ok true, s)
        else some (.ok true, { s with bus := s.bus.startRunning (s.bus.authRbegin + l + 2) })
      else (s.answer c l).bind (verifyLoop c fuel true)

def verify (c : AuthConfig) (s : AuthServer) : AuthStep :=
  if s.bus.rbuffer.length < 1 then some (.ok false, s)
  else if charAt s.bus.rbuffer 0 ≠ 0 then some (.error .eio, s)
  else if s.bus.rbuffer.length < 3 then some (.ok false, s)
  else
    let s := if s.bus.authRbegin = 0 then { s with bus := { s.bus with authRbegin := 1 } } else s
    verifyLoop c (s.bus.rbuffer.length + 1) false s

def recv (c : AuthConfig) (t : AuthTurn) (s : AuthServer) : AuthStep :=
  if s.bus.bufferSize ≤ s.bus.rbuffer.length then some (.error .enobufs, s)
  else
    match t.recv with
    | .again => some (.ok false, s)
    | .failed r => some (.error r, s)
    | .took 0 => some (.error .econnreset, s)
    | .took (k + 1) =>
      let n := s.bus.recvSize c (k + 1)
      -- there is nothing to read, so the socket has said `EAGAIN`
      if n = 0 then some (.ok false, s)
      else
        let s := { s with bus := s.bus.recv n }
        if !c.zephyr && t.rights then some (.error .eio, s)
        else
          (s.verify c).map fun
            | (.ok _, s) => (.ok true, s)
            | (.error r, s) => (.error r, s)

def busSocketReadAuth (c : AuthConfig) (t : AuthTurn) (s : AuthServer) : AuthStep :=
  (s.verify c).bind fun
    | (.ok false, s) => s.recv c t
    | r => some r

def busSocketProcessAuthenticating (c : AuthConfig) (t : AuthTurn) (s : AuthServer) : AuthStep :=
  if t.timedOut then some (.error .etimedout, s)
  else
    (s.busSocketWriteAuth c t.send).bind fun
      | (.ok false, s) => s.busSocketReadAuth c t
      | r => some r

/-- `bus_process_internal` as far as a bus that is authenticating is concerned: it goes on after an
error, unless the connection is gone. -/
def busProcessInternal (c : AuthConfig) (t : AuthTurn) (s : AuthServer) : Option AuthServer :=
  if s.bus.ended ≠ none then some s
  else
    (s.busSocketProcessAuthenticating c t).map fun
      | (.ok _, s) => s
      | (.error r, s) => if isDisconnect r then { s with bus := s.bus.fail r } else s

def run (c : AuthConfig) : List AuthTurn → AuthServer → Option AuthServer
  | [], s => some s
  | t :: ts, s => (s.busProcessInternal c t).bind (run c ts)

def start (S : Bytes) : AuthServer := { bus := { input := S } }

end AuthServer

/-! ## The array holds one entry at most -/

/-- Only the first entry is used, and the index is at it, or behind it when it is empty. -/
def AuthOutput.Sound (o : AuthOutput) : Prop :=
  ∃ i, o.iovec = [i, {}, {}] ∧
    (i = {} ∧ o.index ≤ 1 ∨ o.index = 0 ∧ ∃ b, i.base = some b ∧ b + i.len ≤ o.buffer.length)

namespace AuthOutput

theorem sound_start : ({} : AuthOutput).Sound := ⟨{}, rfl, Or.inl ⟨rfl, Nat.zero_le 1⟩⟩

theorem content_of_len_zero (o : AuthOutput) {j : AuthIovec} (h : j.len = 0) :
    o.content j = [] := by
  rw [content, h]
  cases j.base with
  | none => rfl
  | some b => rfl

theorem Sound.unwritten {o : AuthOutput} {i : AuthIovec} (hi : o.iovec = [i, {}, {}])
    (h : i = {} ∧ o.index ≤ 1 ∨
      o.index = 0 ∧ ∃ b, i.base = some b ∧ b + i.len ≤ o.buffer.length) :
    o.unwritten = o.content i ∧ (o.content i).length = i.len := by
  rcases h with ⟨rfl, hidx⟩ | ⟨hidx, b, hb, hlen⟩
  · rcases Nat.le_one_iff_eq_zero_or_eq_one.mp hidx with h0 | h1
    · exact ⟨by rw [AuthOutput.unwritten, hi, h0]; rfl, rfl⟩
    · exact ⟨by rw [AuthOutput.unwritten, hi, h1]; rfl, rfl⟩
  · constructor
    · rw [AuthOutput.unwritten, hi, hidx]
      exact List.append_nil _
    · simp only [content, hb, List.length_take, List.length_drop]
      omega

theorem given_bytes (c : AuthConfig) (o : AuthOutput) :
    (o.given c).flatMap o.content = o.unwritten := by
  unfold given AuthOutput.unwritten
  induction o.iovec.drop o.index with
  | nil => rfl
  | cons j iov ih =>
    rw [List.filter_cons, List.flatMap_cons, ← ih]
    split
    · exact List.flatMap_cons
    · rename_i hj
      have hlen : j.len = 0 := by
        rw [Bool.or_eq_true, not_or, decide_eq_true_iff] at hj
        exact Nat.eq_zero_of_not_pos hj.2
      rw [o.content_of_len_zero hlen, List.nil_append]

theorem Sound.needsWrite_iff {o : AuthOutput} (h : o.Sound) :
    o.needsWrite = true ↔ o.unwritten ≠ [] := by
  obtain ⟨i, hi, hindex⟩ := h
  obtain ⟨hun, hlen⟩ := Sound.unwritten hi hindex
  rw [hun, ← List.length_pos_iff, hlen]
  rcases hindex with ⟨rfl, hidx⟩ | ⟨hidx, -⟩
  · rcases Nat.le_one_iff_eq_zero_or_eq_one.mp hidx with h0 | h1
    · rw [needsWrite, hi, h0]; decide
    · rw [needsWrite, hi, h1]; decide
  · rw [needsWrite, hi, hidx]
    simp

theorem Sound.write {o : AuthOutput} (h : o.Sound) (t : Bytes) :
    ∃ o', busSocketAuthWrite o t = some o' ∧ o'.Sound ∧ o'.unwritten = o.unwritten ++ t := by
  obtain ⟨i, hi, hindex⟩ := h
  obtain ⟨hun, hlen⟩ := Sound.unwritten hi hindex
  have hidx : ¬(o.index ≠ 0 ∧ o.index ≠ 1) := by
    rcases hindex with ⟨-, h⟩ | ⟨h, -⟩ <;> omega
  have hbuf : (o.content i ++ t).length = i.len + t.length := by rw [List.length_append, hlen]
  have hindex' : (0 : Nat) = 0 ∧
      ∃ b, some 0 = some b ∧ b + (i.len + t.length) ≤ (o.content i ++ t).length :=
    ⟨rfl, 0, rfl, by rw [hbuf, Nat.zero_add]⟩
  refine ⟨_, by rw [busSocketAuthWrite, if_neg hidx, hi], ⟨_, rfl, Or.inr hindex'⟩, ?_⟩
  rw [(Sound.unwritten rfl (Or.inr hindex')).1, hun]
  exact List.take_of_length_le (le_of_eq hbuf)

theorem Sound.advance {o : AuthOutput} (h : o.Sound) {n : Nat} (hn : n ≤ o.unwritten.length) :
    ∃ o', o.advance n = some o' ∧ o'.Sound ∧ o'.unwritten = o.unwritten.drop n := by
  obtain ⟨i, hi, hindex⟩ := h
  obtain ⟨hun, hlen⟩ := Sound.unwritten hi hindex
  rw [hun, hlen] at hn
  cases n with
  | zero =>
    refine ⟨o, ?_, ⟨i, hi, hindex⟩, rfl⟩
    rw [AuthOutput.advance, AuthIovec.iovecAdvance, Option.map_some, List.take_append_drop]
    rfl
  | succ n =>
    rcases hindex with ⟨rfl, -⟩ | ⟨hidx, b, hb, hbuf⟩
    · exact absurd hn (by simp)
    · rw [AuthOutput.advance, hi, hidx, List.drop_zero, AuthIovec.iovecAdvance]
      split
      · -- the entry keeps what was not taken
        have hindex' : (0 : Nat) = 0 ∧
            ∃ b', i.base.map (· + (n + 1)) = some b' ∧ b' + (i.len - (n + 1)) ≤ o.buffer.length :=
          ⟨rfl, b + (n + 1), by rw [hb]; rfl, by omega⟩
        refine ⟨_, rfl, ⟨_, rfl, Or.inr hindex'⟩, ?_⟩
        rw [(Sound.unwritten rfl (Or.inr hindex')).1, hun]
        simp only [content, hb, Option.map_some, List.drop_take, List.drop_drop]
      · rename_i hge
        have hall : n + 1 = i.len := by omega
        rw [hall, Nat.sub_self, AuthIovec.iovecAdvance]
        refine ⟨_, rfl, ⟨_, rfl, Or.inl ⟨rfl, le_refl 1⟩⟩, ?_⟩
        rw [hun, List.drop_of_length_le (by rw [hlen])]
        rfl

end AuthOutput

/-! ## The lines and their answers -/

def AuthData.answerTo (c : AuthConfig) (d : AuthData) : AuthCommand → AuthReply
  | .auth mechanism token => if verifyToken c mechanism token then .ok mechanism else .rejected
  | .authOther => .rejectedMechanisms
  | .cancelOrError => .rejected
  | .begin => .error
  | .data token =>
    match d.auth with
    | none => .error
    | some mechanism => if verifyToken c mechanism token then .ok mechanism else .rejected
  | .negotiateUnixFd => if d.auth = none || !c.acceptFd then .error else .agreeUnixFd
  | .unknown => .error

theorem command_replies (c : AuthConfig) (d : AuthData) (cmd : AuthCommand) :
    (d.command c cmd).replies = d.replies ++ [d.answerTo c cmd] := by
  cases cmd with
  | auth mechanism token =>
    simp only [AuthData.command, AuthData.answerTo]
    split <;> rfl
  | data token =>
    rcases hauth : d.auth with _ | mechanism
    · simp only [AuthData.command, AuthData.answerTo, hauth]
      rfl
    · simp only [AuthData.command, AuthData.answerTo, hauth]
      split <;> rfl
  | negotiateUnixFd =>
    simp only [AuthData.command, AuthData.answerTo]
    split <;> rfl
  | _ => rfl

def AuthData.read (c : AuthConfig) (d : AuthData) (line : Bytes) : AuthData :=
  d.command c (authCommand line)

def answersTo (c : AuthConfig) : AuthData → List Bytes → List AuthReply
  | _, [] => []
  | d, line :: lines => d.answerTo c (authCommand line) :: answersTo c (d.read c line) lines

theorem foldl_read_replies (c : AuthConfig) (lines : List Bytes) : ∀ d : AuthData,
    (lines.foldl (AuthData.read c) d).replies = d.replies ++ answersTo c d lines := by
  induction lines with
  | nil => exact fun d => (List.append_nil _).symm
  | cons line lines ih =>
    intro d
    rw [List.foldl_cons, ih, AuthData.read, command_replies, List.append_assoc]
    rfl

def IsLine (line : Bytes) : Prop := memmemCrlf (line ++ [13, 10]) = some line.length

theorem memmemCrlf_line {l : Nat} : {bs : Bytes} → memmemCrlf bs = some l →
    bs.take (l + 2) = bs.take l ++ [13, 10] ∧ IsLine (bs.take l)
  | [], h => absurd h (by simp [memmemCrlf])
  | b :: bs, h => by
    simp only [memmemCrlf] at h
    split at h
    · rename_i hb
      obtain ⟨rfl, hhead⟩ := hb
      obtain ⟨bs, rfl⟩ := List.head?_eq_some_iff.mp hhead
      obtain rfl := Option.some.inj h
      exact ⟨rfl, rfl⟩
    · rename_i hb
      obtain ⟨n, hn, rfl⟩ := Option.map_eq_some_iff.mp h
      obtain ⟨htake, hline⟩ := memmemCrlf_line hn
      refine ⟨by rw [List.take_succ_cons, htake, List.take_succ_cons, List.cons_append], ?_⟩
      have hhead : (bs.take n ++ [13, 10]).head? = bs.head? := by
        rw [← htake, List.head?_take, if_neg (Nat.succ_ne_zero _)]
      rw [IsLine, List.take_succ_cons, List.cons_append, memmemCrlf, hhead, if_neg hb, hline]
      rfl

theorem scan_lines {c : AuthConfig} {R : Bytes} {x : ScanPoint}
    (h : ReflTransGen (Scan c R) scanStart x) :
    ∃ lines : List Bytes, (∀ line ∈ lines, IsLine line) ∧
      R.take x.1 = R.take 1 ++ lines.flatMap (· ++ [13, 10]) ∧
      x.2 = lines.foldl (AuthData.read c) {} := by
  induction h with
  | refl => exact ⟨[], by simp, (List.append_nil _).symm, rfl⟩
  | @tail y _ _ hstep ih =>
    obtain ⟨lines, hlines, htake, hd⟩ := ih
    obtain ⟨l, hl, -, rfl⟩ := hstep
    obtain ⟨hcrlf, hline⟩ := memmemCrlf_line hl
    refine ⟨lines ++ [(R.drop y.1).take l], ?_, ?_, ?_⟩
    · intro line hmem
      rcases List.mem_append.mp hmem with hmem | hmem
      · exact hlines line hmem
      · rw [List.mem_singleton.mp hmem]
        exact hline
    · rw [Nat.add_assoc, List.take_add, htake, hcrlf, List.flatMap_append, List.append_assoc]
      simp only [List.flatMap_cons, List.flatMap_nil, List.append_nil]
    · rw [List.foldl_append, ← hd]
      rfl

/-! ## What has been told the client -/

theorem begin_line {line : Bytes} (h : authCommand line = .begin) : line = wordBegin := by
  unfold authCommand at h
  repeat' split at h
  all_goals first | assumption | exact absurd h (by simp)

/-- What was written and what was not is one answer after the other for the lines looked at, and a
connection that runs has written everything before it took the `BEGIN` behind them. -/
structure Told (c : AuthConfig) (written : Bytes) (s : AuthBus) : Prop where
  answered : Answered c s
  accounted : written ++ s.unwritten = s.data.replies.flatMap (·.text c.serverId)
  running : s.ended = some .running → s.unwritten = [] ∧
    s.consumed = s.held.take s.authRbegin ++ (wordBegin ++ [13, 10])
  nul : s.authRbegin ≠ 0 → s.held.head? = some 0

section Told

variable {c : AuthConfig} {written : Bytes} {s : AuthBus}

theorem Told.firstLine (h : Told c written s) (hend : s.ended = none) (hb : s.authRbegin = 0)
    (hnul : s.rbuffer.head? = some 0) : Told c written { s with authRbegin := 1 } := by
  have hnil := h.answered.consumed (by rw [hend]; simp)
  refine ⟨⟨Or.inr ⟨one_ne_zero, ?_⟩, h.answered.consumed, h.answered.running⟩, h.accounted,
    fun hrun => absurd (hend.symm.trans hrun) (by simp), fun _ => ?_⟩
  · rcases h.answered.scanned with ⟨-, hd⟩ | ⟨hb', -⟩
    · simp only [hd]
      exact ReflTransGen.refl
    · exact absurd hb hb'
  · simp only [AuthBus.held, hnil, List.nil_append]
    exact hnul

theorem Told.answer (h : Told c written s) (hend : s.ended = none) (hb : s.authRbegin ≠ 0)
    {l : Nat} (hl : memmemCrlf (s.rbuffer.drop s.authRbegin) = some l)
    (hbegin : ¬(authCommand (s.line l) = .begin ∧ s.data.auth ≠ none)) :
    Told c written (s.answer c l) := by
  refine ⟨h.answered.answer hend hb hl hbegin, ?_,
    fun hrun => absurd (hend.symm.trans hrun) (by simp), fun _ => h.nul hb⟩
  simp only [AuthBus.answer, command_replies, List.drop_left, List.flatMap_append]
  rw [← List.append_assoc, h.accounted]

theorem Told.startRunning (h : Told c written s) (hend : s.ended = none) (hb : s.authRbegin ≠ 0)
    {l : Nat} (hl : memmemCrlf (s.rbuffer.drop s.authRbegin) = some l)
    (hbegin : authCommand (s.line l) = .begin) (hauth : s.data.auth ≠ none)
    (hun : s.unwritten = []) : Told c written (s.startRunning (s.authRbegin + l + 2)) := by
  have hheld := held_eq_rbuffer h.answered hend
  have hsame := (sameBytes_startRunning s (s.authRbegin + l + 2)).1
  have hnil := h.answered.consumed (by rw [hend]; simp)
  refine ⟨h.answered.startRunning hb hauth _, h.accounted, fun _ => ⟨hun, ?_⟩, fun _ => ?_⟩
  · rw [hsame, hheld]
    simp only [AuthBus.startRunning, hnil, List.nil_append]
    rw [Nat.add_assoc, List.take_add, (memmemCrlf_line hl).1]
    exact congrArg (fun line => _ ++ (line ++ [13, 10])) (begin_line hbegin)
  · rw [hsame]
    exact h.nul hb

theorem Told.recv (h : Told c written s) (hend : s.ended = none) (n : Nat) :
    Told c written (s.recv n) := by
  refine ⟨h.answered.recv n, h.accounted, fun hrun => absurd (hend.symm.trans hrun) (by simp),
    fun hb => ?_⟩
  rw [recv_held, List.head?_append, h.nul hb]
  rfl

theorem Told.fail (h : Told c written s) (hend : s.ended = none) (r : Errno) :
    Told c written (s.fail r) := by
  refine ⟨⟨h.answered.scanned, fun _ => h.answered.consumed (by rw [hend]; simp), fun hrun => ?_⟩,
    h.accounted, fun hrun => ?_, h.nul⟩
  · exact absurd (Option.some.inj hrun) (by simp)
  · exact absurd (Option.some.inj hrun) (by simp)

theorem Told.write (h : Told c written s) (hend : s.ended = none) (k : Nat) :
    Told c (written ++ s.unwritten.take k) { s with unwritten := s.unwritten.drop k } := by
  refine ⟨⟨h.answered.scanned, h.answered.consumed, h.answered.running⟩, ?_,
    fun hrun => absurd (hend.symm.trans hrun) (by simp), h.nul⟩
  rw [List.append_assoc, List.take_append_drop]
  exact h.accounted

end Told

/-- The array is in order, and for what it holds the bus that is modelled with bytes only is. -/
structure AuthServer.Complete (c : AuthConfig) (s : AuthServer) : Prop where
  sound : s.output.Sound
  told : Told c s.written s.view

/-- A function of the source returns, and an error that closes the connection is one of the
turn's. -/
def AuthStep.Keeps (c : AuthConfig) (t : AuthTurn) (step : AuthStep) : Prop :=
  ∃ x s, step = some (x, s) ∧ s.Complete c ∧
    (s.bus.ended = none ∨ x = .ok true ∧ s.bus.ended = some .running) ∧
    ∀ r, x = .error r → isDisconnect r = true → t.Disconnects

namespace AuthServer

variable {c : AuthConfig} {t : AuthTurn} {s : AuthServer}

theorem keeps_ok (h : s.Complete c) (hend : s.bus.ended = none) (x : Bool) :
    AuthStep.Keeps c t (some (.ok x, s)) :=
  ⟨_, _, rfl, h, Or.inl hend, fun _ hr => absurd hr (by simp)⟩

theorem keeps_error (h : s.Complete c) (hend : s.bus.ended = none) {r : Errno}
    (hr : isDisconnect r = true → t.Disconnects) : AuthStep.Keeps c t (some (.error r, s)) :=
  ⟨_, _, rfl, h, Or.inl hend, fun r' hr' => by rw [Except.error.inj hr'] at hr; exact hr⟩

theorem keeps_bind {step : AuthStep} {f : AuthServer → AuthStep} (h : step.Keeps c t)
    (hf : ∀ s, s.Complete c → s.bus.ended = none → (f s).Keeps c t) :
    AuthStep.Keeps c t (step.bind fun
      | (.ok false, s) => f s
      | r => some r) := by
  obtain ⟨x, s, rfl, hs, hend, hr⟩ := h
  cases x with
  | error r => exact ⟨_, _, rfl, hs, hend, hr⟩
  | ok b =>
    cases b with
    | true => exact ⟨_, _, rfl, hs, hend, hr⟩
    | false =>
      rcases hend with hend | ⟨hx, -⟩
      · exact hf s hs hend
      · exact absurd hx (by simp)

theorem answer_view (hsound : s.output.Sound) (l : Nat) :
    ∃ s', s.answer c l = some s' ∧ s'.output.Sound ∧ s'.written = s.written ∧
      s'.view = s.view.answer c l := by
  obtain ⟨o, ho, hsound', hun⟩ := hsound.write (((s.bus.data.command c
    (authCommand (s.bus.line l))).replies.drop s.bus.data.replies.length).flatMap
      (·.text c.serverId))
  refine ⟨_, congrArg (Option.map _) ho, hsound', rfl, ?_⟩
  simp only [view, hun]
  rfl

theorem verifyLoop_keeps (fuel : Nat) : ∀ {processed : Bool} {s : AuthServer}, s.Complete c →
    s.bus.ended = none → s.bus.authRbegin ≠ 0 →
      AuthStep.Keeps c t (verifyLoop c fuel processed s) := by
  induction fuel with
  | zero => exact fun h hend _ => keeps_ok h hend _
  | succ fuel ih =>
    intro processed s h hend hb
    rw [verifyLoop]
    split
    · exact keeps_ok h hend _
    · rename_i l hl
      split
      · rename_i hbegin
        split
        · exact keeps_ok h hend _
        · rename_i hneeds
          have hun : s.output.unwritten = [] := by
            rw [h.sound.needsWrite_iff] at hneeds
            exact not_not.mp hneeds
          refine ⟨_, _, rfl, ⟨h.sound, ?_⟩, Or.inr ⟨rfl, rfl⟩, fun _ hr => absurd hr (by simp)⟩
          exact h.told.startRunning hend hb hl hbegin.1 hbegin.2 hun
      · rename_i hbegin
        obtain ⟨s', hs', hsound, hwritten, hview⟩ := answer_view (c := c) h.sound l
        rw [hs', Option.bind_some]
        have hended : s'.bus.ended = none := (congrArg AuthBus.ended hview).trans hend
        have hrbegin : s'.bus.authRbegin = s.bus.authRbegin + l + 2 :=
          congrArg AuthBus.authRbegin hview
        refine ih ⟨hsound, ?_⟩ hended (by omega)
        rw [hwritten, hview]
        exact h.told.answer hend hb hl hbegin

theorem verify_keeps (h : s.Complete c) (hend : s.bus.ended = none) :
    AuthStep.Keeps c t (s.verify c) := by
  rw [verify]
  split
  · exact keeps_ok h hend _
  · rename_i hlen
    split
    · exact keeps_error h hend (fun hr => absurd hr (by decide))
    · rename_i hnul
      split
      · exact keeps_ok h hend _
      · by_cases hb : s.bus.authRbegin = 0
        · simp only [if_pos hb]
          refine verifyLoop_keeps _ ⟨h.sound, h.told.firstLine hend hb ?_⟩ hend one_ne_zero
          obtain ⟨x, bs, hx⟩ := List.exists_cons_of_length_pos (Nat.not_lt.mp hlen)
          rw [hx] at hnul
          simp only [view, hx]
          exact congrArg some (not_ne_iff.mp hnul)
        · simp only [if_neg hb]
          exact verifyLoop_keeps _ h hend hb

theorem recv_keeps (h : s.Complete c) (hend : s.bus.ended = none) :
    AuthStep.Keeps c t (s.recv c t) := by
  rw [recv]
  split
  · exact keeps_error h hend (fun hr => absurd hr (by decide))
  · split
    · exact keeps_ok h hend _
    · rename_i r hr
      exact keeps_error h hend (fun hdis => Or.inl ⟨r, Or.inr hr, hdis⟩)
    · rename_i hr
      exact keeps_error h hend (fun _ => Or.inr hr)
    · rename_i k hr
      simp only
      split
      · exact keeps_ok h hend _
      · have h' : AuthServer.Complete c { s with bus := s.bus.recv (s.bus.recvSize c (k + 1)) } :=
          ⟨h.sound, h.told.recv hend _⟩
        split
        · exact keeps_error h' hend (fun hr => absurd hr (by decide))
        · obtain ⟨x, s', hs', hcomplete, hended, herr⟩ := verify_keeps (t := t) h' hend
          rw [hs']
          cases x with
          | ok b =>
            refine ⟨_, _, rfl, hcomplete, ?_, fun _ hr => absurd hr (by simp)⟩
            exact hended.imp_right fun h => ⟨rfl, h.2⟩
          | error r => exact ⟨_, _, rfl, hcomplete, hended, herr⟩

theorem busSocketReadAuth_keeps (h : s.Complete c) (hend : s.bus.ended = none) :
    AuthStep.Keeps c t (s.busSocketReadAuth c t) :=
  keeps_bind (verify_keeps h hend) fun _ h hend => recv_keeps h hend

theorem busSocketWriteAuth_keeps (h : s.Complete c) (hend : s.bus.ended = none) :
    AuthStep.Keeps c t (s.busSocketWriteAuth c t.send) := by
  rw [busSocketWriteAuth]
  split
  · exact keeps_ok h hend _
  · simp only [AuthOutput.given_bytes]
    split
    · exact keeps_ok h hend _
    · rename_i r hr
      exact keeps_error h hend (fun hdis => Or.inl ⟨r, Or.inl hr, hdis⟩)
    · rename_i k hr
      obtain ⟨o, ho, hsound, hun⟩ := h.sound.advance (Nat.min_le_right k _)
      rw [ho]
      have htake : s.output.unwritten.drop (min k s.output.unwritten.length) =
          s.output.unwritten.drop k := by
        rcases Nat.le_total k s.output.unwritten.length with hk | hk
        · rw [Nat.min_eq_left hk]
        · rw [Nat.min_eq_right hk, List.drop_length, List.drop_of_length_le hk]
      refine keeps_ok (s := { s with output := o, written := _ }) ⟨hsound, ?_⟩ hend _
      simp only [view, hun, htake]
      exact h.told.write hend k

theorem busSocketProcessAuthenticating_keeps (h : s.Complete c) (hend : s.bus.ended = none) :
    AuthStep.Keeps c t (s.busSocketProcessAuthenticating c t) := by
  rw [busSocketProcessAuthenticating]
  split
  · exact keeps_error h hend (fun hr => absurd hr (by decide))
  · exact keeps_bind (busSocketWriteAuth_keeps h hend) fun _ h hend =>
      busSocketReadAuth_keeps h hend

theorem busProcessInternal_complete (h : s.Complete c) :
    ∃ s', s.busProcessInternal c t = some s' ∧ s'.Complete c ∧
      ∀ r, s'.bus.ended = some (.failed r) → s.bus.ended = some (.failed r) ∨ t.Disconnects := by
  rw [busProcessInternal]
  split
  · exact ⟨s, rfl, h, fun r hr => Or.inl hr⟩
  · rename_i hend
    have hend := not_ne_iff.mp hend
    obtain ⟨x, s', hs', hcomplete, hended, herr⟩ :=
      busSocketProcessAuthenticating_keeps (t := t) h hend
    rw [hs']
    cases x with
    | ok b =>
      refine ⟨s', rfl, hcomplete, fun r hr => ?_⟩
      rcases hended with hended | ⟨-, hended⟩ <;> rw [hended] at hr
      · exact absurd hr (by simp)
      · exact absurd (Option.some.inj hr) (by simp)
    | error r =>
      have hended : s'.bus.ended = none := hended.resolve_right fun h => absurd h.1 (by simp)
      by_cases hdis : isDisconnect r = true
      · refine ⟨_, congrArg some (if_pos hdis), ?_, fun _ _ => Or.inr (herr r rfl hdis)⟩
        exact ⟨hcomplete.sound, hcomplete.told.fail hended r⟩
      · refine ⟨s', congrArg some (if_neg hdis), hcomplete, fun r' hr' => ?_⟩
        exact absurd (hended.symm.trans hr') (by simp)

theorem run_complete (ts : List AuthTurn) : ∀ {s : AuthServer}, s.Complete c →
    ∃ s', s.run c ts = some s' ∧ s'.Complete c ∧
      ∀ r, s'.bus.ended = some (.failed r) →
        s.bus.ended = some (.failed r) ∨ ∃ t ∈ ts, t.Disconnects := by
  induction ts with
  | nil => exact fun h => ⟨_, rfl, h, fun r hr => Or.inl hr⟩
  | cons t ts ih =>
    intro s h
    obtain ⟨s₁, hs₁, h₁, hfail₁⟩ := busProcessInternal_complete (t := t) h
    obtain ⟨s₂, hs₂, h₂, hfail₂⟩ := ih h₁
    refine ⟨s₂, by rw [run, hs₁]; exact hs₂, h₂, fun r hr => ?_⟩
    rcases hfail₂ r hr with hr | ⟨t', ht', hdis⟩
    · exact (hfail₁ r hr).imp_right fun hdis => ⟨t, List.mem_cons_self, hdis⟩
    · exact Or.inr ⟨t', List.mem_cons_of_mem _ ht', hdis⟩

theorem start_complete (c : AuthConfig) (S : Bytes) : (start S).Complete c := by
  refine ⟨AuthOutput.sound_start, ⟨⟨Or.inl ⟨rfl, rfl⟩, fun _ => rfl, ?_⟩, rfl, ?_, ?_⟩⟩
  · exact fun hrun => absurd hrun (by simp [start, view])
  · exact fun hrun => absurd hrun (by simp [start, view])
  · exact fun hb => absurd rfl hb

end AuthServer

/-- Whatever the socket takes and gives, no assertion fails, and what was written with what still
waits is one answer for each line, in their order; the connection runs only when nothing waits, and
otherwise ends only when the peer is gone. -/
theorem auth_replies_written (c : AuthConfig) (S : Bytes) (ts : List AuthTurn) :
    ∃ s, (AuthServer.start S).run c ts = some s ∧ ∃ lines : List Bytes,
      (∀ line ∈ lines, IsLine line) ∧
      (s.bus.held.take s.bus.authRbegin = clientStream lines ∨
        s.bus.authRbegin = 0 ∧ lines = []) ∧
      s.written ++ s.output.unwritten = (answersTo c {} lines).flatMap (·.text c.serverId) ∧
      (s.bus.ended = some .running →
        s.written = (answersTo c {} lines).flatMap (·.text c.serverId) ∧
        s.bus.consumed = clientStream lines ++ (wordBegin ++ [13, 10])) ∧
      ∀ r, s.bus.ended = some (.failed r) → ∃ t ∈ ts, t.Disconnects := by
  obtain ⟨s, hs, ⟨-, htold⟩, hfail⟩ := AuthServer.run_complete ts (AuthServer.start_complete c S)
  refine ⟨s, hs, ?_⟩
  have hlines : ∃ lines : List Bytes, (∀ line ∈ lines, IsLine line) ∧
      (s.bus.held.take s.bus.authRbegin = clientStream lines ∨
        s.bus.authRbegin = 0 ∧ lines = []) ∧
      s.bus.data.replies = answersTo c {} lines := by
    rcases htold.answered.scanned with ⟨hb, hd⟩ | ⟨hb, hscan⟩
    · exact ⟨[], by simp, Or.inr ⟨hb, rfl⟩, congrArg AuthData.replies hd⟩
    · obtain ⟨lines, hmem, htake, hd⟩ := scan_lines hscan
      refine ⟨lines, hmem, Or.inl ?_, ?_⟩
      · obtain ⟨bs, hbs⟩ := List.head?_eq_some_iff.mp (htold.nul hb)
        exact htake.trans (by rw [hbs]; rfl)
      · exact (congrArg AuthData.replies hd).trans (foldl_read_replies c lines {})
  obtain ⟨lines, hmem, htake, hreplies⟩ := hlines
  have haccounted := htold.accounted
  rw [show s.view.data = s.bus.data from rfl, hreplies] at haccounted
  refine ⟨lines, hmem, htake, haccounted, fun hrun => ?_, fun r hr => ?_⟩
  · obtain ⟨hun, hconsumed⟩ := htold.running hrun
    constructor
    · rw [← haccounted, hun, List.append_nil]
    · rcases htake with htake | ⟨hb, -⟩
      · rw [← htake]
        exact hconsumed
      · rcases htold.answered.scanned with ⟨-, hd⟩ | ⟨hb', -⟩
        · exact absurd (congrArg AuthData.auth hd) (htold.answered.running hrun)
        · exact absurd hb hb'
  · exact (hfail r hr).resolve_left (by simp [AuthServer.start])

end Basu
