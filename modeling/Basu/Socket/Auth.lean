import Basu.Hex
import Basu.Names

/-! The authentication phase (`bus-socket.c`). The server reads lines out of a buffer it keeps until
`BEGIN`, the client waits for the one or two lines it expects, and both then leave what follows to
the reader of messages. -/

namespace Basu
open Lib

/-- `WHITESPACE`, or the NUL that `strchr` finds at its end. -/
def isBlank (c : UInt8) : Bool := c = 32 || c = 9 || c = 10 || c = 13 || c = 0

/-- The loop of `unhexmem`; the digits come in pairs, with blanks anywhere. -/
def unhexPairs : List UInt8 → Option Bytes
  | [] => some []
  | [_] => none
  | a :: b :: cs =>
    match unhexchar a, unhexchar b, unhexPairs cs with
    | some x, some y, some bs => some ((x <<< 4 ||| y) :: bs)
    | _, _, _ => none

def unhexmem (p : Bytes) : Option Bytes := unhexPairs (p.filter fun c => !isBlank c)

def isSpace (c : UInt8) : Bool := c = 32 || (9 ≤ c && c ≤ 13)

def digitValue (base : Nat) (c : UInt8) : Option Nat :=
  (unhexchar c).bind fun d => if d.toNat < base then some d.toNat else none

def strtoulDigits (base : Nat) : Nat → Str → Nat × Str
  | value, [] => (value, [])
  | value, c :: cs =>
    match digitValue base c with
    | some d => strtoulDigits base (value * base + d) cs
    | none => (value, c :: cs)

/-- The base `strtoul` takes when it may choose, and the string without the prefix for it. -/
def strtoulBase (s : Str) : Nat × Str :=
  if charAt s 0 = 48 ∧ (charAt s 1 = 120 ∨ charAt s 1 = 88) ∧ (unhexchar (charAt s 2)).isSome then
    (16, s.drop 2)
  else if charAt s 0 = 48 then (8, s)
  else (10, s)

/-- `safe_atou` with a `long` of 64 bits. -/
def safeAtou (s : Str) : Option Nat :=
  let s := s.dropWhile fun c => isBlank c && c ≠ 0
  let t := s.dropWhile isSpace
  let negative := charAt t 0 = 45
  let t := if charAt t 0 = 45 ∨ charAt t 0 = 43 then t.drop 1 else t
  let (base, digits) := strtoulBase t
  if (digitValue base (charAt digits 0)).isNone then none
  else
    let (value, rest) := strtoulDigits base 0 digits
    if 2 ^ 64 ≤ value then none
    else if rest ≠ [] then none
    else if charAt s 0 = 45 then none
    else
      let l := if negative then (2 ^ 64 - value) % 2 ^ 64 else value
      if 2 ^ 32 ≤ l then none else some l

def uidIsValid (uid : Nat) : Bool := uid ≠ 0xffffffff && uid ≠ 0xffff

def parseUid (s : Str) : Option Nat := (safeAtou s).bind fun u => if uidIsValid u then some u else none

inductive BusAuth
  | external
  | anonymous
  deriving DecidableEq, Repr

/-- What does not change while authenticating; `ucred` is the user of the peer, if known. -/
structure AuthConfig where
  zephyr : Bool
  isServer : Bool
  anonymousAuth : Bool
  acceptFd : Bool
  ucred : Option Nat
  serverId : Bytes

inductive AuthReply
  | ok (mechanism : BusAuth)
  | rejected
  | rejectedMechanisms
  | error
  | agreeUnixFd
  deriving DecidableEq, Repr

def AuthReply.text (serverId : Bytes) : AuthReply → Bytes
  | .ok _ => [79, 75, 32] ++ serverId.flatMap hexPair ++ [13, 10]
  | .rejected => [82, 69, 74, 69, 67, 84, 69, 68, 13, 10]
  | .rejectedMechanisms =>
    [82, 69, 74, 69, 67, 84, 69, 68, 32, 69, 88, 84, 69, 82, 78, 65, 76, 32,
      65, 78, 79, 78, 89, 77, 79, 85, 83, 13, 10]
  | .error => [69, 82, 82, 79, 82, 13, 10]
  | .agreeUnixFd => [65, 71, 82, 69, 69, 95, 85, 78, 73, 88, 95, 70, 68, 13, 10]

structure AuthData where
  auth : Option BusAuth := none
  canFds : Bool := false
  replies : List AuthReply := []
  deriving DecidableEq, Repr

def tokenBytes (p : Bytes) : Option Bytes :=
  let p := p.drop 1
  if p.length % 2 ≠ 0 then none
  else match unhexmem p with
    | none => none
    | some token => if token.contains 0 then none else some token

def verifyAnonymousToken (c : AuthConfig) (p : Bytes) : Bool :=
  if c.anonymousAuth = false then false
  else if p = [] then true
  else match tokenBytes p with
    | none => false
    | some token => utf8IsValid token

/-- On Zephyr the user of the peer is taken to be 0. -/
def verifyExternalToken (c : AuthConfig) (p : Bytes) : Bool :=
  if !c.zephyr && !c.anonymousAuth && c.ucred.isNone then false
  else if p = [] then true
  else match tokenBytes p with
    | none => false
    | some token =>
      match parseUid token with
      | none => false
      | some u => c.anonymousAuth || some u = (if c.zephyr then some 0 else c.ucred)

def verifyToken (c : AuthConfig) : BusAuth → Bytes → Bool
  | .external => verifyExternalToken c
  | .anonymous => verifyAnonymousToken c

inductive AuthCommand
  | auth (mechanism : BusAuth) (token : Bytes)
  | authOther
  | cancelOrError
  | begin
  | data (token : Bytes)
  | negotiateUnixFd
  | unknown
  deriving DecidableEq, Repr

def lineBegins (line word : Bytes) : Bool :=
  line.take word.length = word && (line.length = word.length || charAt line word.length = 32)

/-- "AUTH ANONYMOUS". -/
def wordAuthAnonymous : Bytes := [65, 85, 84, 72, 32, 65, 78, 79, 78, 89, 77, 79, 85, 83]
/-- "AUTH EXTERNAL". -/
def wordAuthExternal : Bytes := [65, 85, 84, 72, 32, 69, 88, 84, 69, 82, 78, 65, 76]
/-- "AUTH". -/
def wordAuth : Bytes := [65, 85, 84, 72]
/-- "CANCEL". -/
def wordCancel : Bytes := [67, 65, 78, 67, 69, 76]
/-- "ERROR". -/
def wordError : Bytes := [69, 82, 82, 79, 82]
/-- "BEGIN". -/
def wordBegin : Bytes := [66, 69, 71, 73, 78]
/-- "DATA". -/
def wordData : Bytes := [68, 65, 84, 65]
/-- "NEGOTIATE_UNIX_FD". -/
def wordNegotiateUnixFd : Bytes :=
  [78, 69, 71, 79, 84, 73, 65, 84, 69, 95, 85, 78, 73, 88, 95, 70, 68]

def authCommand (line : Bytes) : AuthCommand :=
  if lineBegins line wordAuthAnonymous then .auth .anonymous (line.drop 14)
  else if lineBegins line wordAuthExternal then .auth .external (line.drop 13)
  else if lineBegins line wordAuth then .authOther
  else if line = wordCancel || lineBegins line wordError then .cancelOrError
  else if line = wordBegin then .begin
  else if lineBegins line wordData then .data (line.drop 4)
  else if line = wordNegotiateUnixFd then .negotiateUnixFd
  else .unknown

def AuthData.reply (d : AuthData) (r : AuthReply) : AuthData :=
  { d with replies := d.replies ++ [r] }

def AuthData.command (c : AuthConfig) (d : AuthData) : AuthCommand → AuthData
  | .auth mechanism token =>
    if verifyToken c mechanism token then
      { d with auth := some mechanism }.reply (.ok mechanism)
    else d.reply .rejected
  | .authOther => d.reply .rejectedMechanisms
  | .cancelOrError => { d with auth := none }.reply .rejected
  | .begin => d.reply .error
  | .data token =>
    match d.auth with
    | none => d.reply .error
    | some mechanism =>
      if verifyToken c mechanism token then d.reply (.ok mechanism)
      else { d with auth := none }.reply .rejected
  | .negotiateUnixFd =>
    if d.auth = none || !c.acceptFd then d.reply .error
    else { d with canFds := true }.reply .agreeUnixFd
  | .unknown => d.reply .error

/-- `memmem(.., "\r\n", 2)`, as the position found. -/
def memmemCrlf : Bytes → Option Nat
  | [] => none
  | c :: bs =>
    if c = 13 ∧ bs.head? = some 10 then some 0 else (memmemCrlf bs).map (· + 1)

inductive AuthEnd
  | running
  | failed (r : Errno)
  deriving DecidableEq, Repr

/-- A bus that is authenticating; `unwritten` is what is left of the queued answers, `input` what
the peer sends and no read has returned yet. -/
structure AuthBus where
  rbuffer : Bytes := []
  authRbegin : Nat := 0
  data : AuthData := {}
  unwritten : Bytes := []
  input : Bytes
  ended : Option AuthEnd := none
  received : Bytes := []
  consumed : Bytes := []

def AuthBus.startRunning (s : AuthBus) (n : Nat) : AuthBus :=
  { s with
    rbuffer := s.rbuffer.drop n
    consumed := s.consumed ++ s.rbuffer.take n
    ended := some .running }

def AuthBus.fail (s : AuthBus) (r : Errno) : AuthBus := { s with ended := some (.failed r) }

def AuthBus.line (s : AuthBus) (l : Nat) : Bytes := (s.rbuffer.drop s.authRbegin).take l

def AuthBus.answer (c : AuthConfig) (s : AuthBus) (l : Nat) : AuthBus :=
  let d := s.data.command c (authCommand (s.line l))
  { s with
    data := d
    unwritten := s.unwritten ++
      ((d.replies.drop s.data.replies.length).flatMap (·.text c.serverId))
    authRbegin := s.authRbegin + l + 2 }

/-- The loop over the lines; says whether there was one. A line takes two bytes at least, so the
turns are never used up. -/
def verifyServerLoop (c : AuthConfig) : Nat → Bool → AuthBus → Bool × AuthBus
  | 0, processed, s => (processed, s)
  | fuel + 1, processed, s =>
    match memmemCrlf (s.rbuffer.drop s.authRbegin) with
    | none => (processed, s)
    | some l =>
      if authCommand (s.line l) = .begin ∧ s.data.auth ≠ none then
        -- all answers have to be written before the phase is left
        if s.unwritten ≠ [] then (true, s)
        else (true, s.startRunning (s.authRbegin + l + 2))
      else verifyServerLoop c fuel true (s.answer c l)

def busSocketAuthVerifyServer (c : AuthConfig) (s : AuthBus) : Bool × AuthBus :=
  if s.rbuffer.length < 1 then (false, s)
  else if charAt s.rbuffer 0 ≠ 0 then (true, s.fail .eio)
  else if s.rbuffer.length < 3 then (false, s)
  else
    let s := if s.authRbegin = 0 then { s with authRbegin := 1 } else s
    verifyServerLoop c (s.rbuffer.length + 1) false s

def clientLines (c : AuthConfig) (rbuffer : Bytes) : Option (Nat × Option Nat × Nat) :=
  match memmemCrlf rbuffer with
  | none => none
  | some e =>
    if c.acceptFd then
      match memmemCrlf (rbuffer.drop (e + 2)) with
      | none => none
      | some f => some (e, some (e + 2 + f), e + 2 + f + 2)
    else some (e, none, e + 2)

/-- "OK ". -/
def wordOk : Bytes := [79, 75, 32]

/-- "AGREE_UNIX_FD". -/
def wordAgreeUnixFd : Bytes := [65, 71, 82, 69, 69, 95, 85, 78, 73, 88, 95, 70, 68]

def peerId (rbuffer : Bytes) : Option Bytes := unhexPairs (slice rbuffer 3 32)

def clientVerdict (c : AuthConfig) (rbuffer : Bytes) (e : Nat) (f : Option Nat) :
    Except Errno AuthData :=
  if e ≠ 3 + 32 then .error .eperm
  else if rbuffer.take 3 ≠ wordOk then .error .eperm
  else match peerId rbuffer with
    | none => .error .einval
    | some peer =>
      if c.serverId.any (· ≠ 0) && c.serverId ≠ peer then .error .eperm
      else .ok {
        auth := some (if c.anonymousAuth then .anonymous else .external)
        canFds := match f with
          | none => false
          | some f => slice rbuffer (e + 2) (f - (e + 2)) = wordAgreeUnixFd }

def busSocketAuthVerifyClient (c : AuthConfig) (s : AuthBus) : Bool × AuthBus :=
  match clientLines c s.rbuffer with
  | none => (false, s)
  | some (e, f, start) =>
    match clientVerdict c s.rbuffer e f with
    | .error r => (true, s.fail r)
    | .ok d => (true, { s with data := d }.startRunning start)

def busSocketAuthVerify (c : AuthConfig) (s : AuthBus) : Bool × AuthBus :=
  if c.isServer then busSocketAuthVerifyServer c s else busSocketAuthVerifyClient c s

def busAuthSizeMax : Nat := 64 * 1024

def AuthBus.bufferSize (s : AuthBus) : Nat := min (max 256 (s.rbuffer.length * 2)) busAuthSizeMax

/-- How many bytes one read returns when the socket has `k` ready; 0 stands for `EAGAIN`. Zephyr
always asks for its whole buffer. -/
def AuthBus.recvSize (c : AuthConfig) (k : Nat) (s : AuthBus) : Nat :=
  min k (min (if c.zephyr then 8192 else s.bufferSize - s.rbuffer.length) s.input.length)

def AuthBus.recv (s : AuthBus) (n : Nat) : AuthBus :=
  { s with
    rbuffer := s.rbuffer ++ (s.input.take n).take (s.bufferSize - s.rbuffer.length)
    received := s.received ++ s.input.take n
    input := s.input.drop n }

def busSocketReadAuth (c : AuthConfig) (k : Nat) (s : AuthBus) : AuthBus :=
  match busSocketAuthVerify c s with
  | (true, s) => s
  | (false, s) =>
    if s.bufferSize ≤ s.rbuffer.length then s.fail .enobufs
    else if s.recvSize c k = 0 then s
    else (busSocketAuthVerify c (s.recv (s.recvSize c k))).2

def busSocketProcessAuthenticating (c : AuthConfig) (wk : Nat × Nat) (s : AuthBus) : AuthBus :=
  if s.ended ≠ none then s
  else if s.unwritten ≠ [] ∧ wk.1 ≠ 0 then { s with unwritten := s.unwritten.drop wk.1 }
  else busSocketReadAuth c wk.2 s

def authRun (c : AuthConfig) (wks : List (Nat × Nat)) (s : AuthBus) : AuthBus :=
  wks.foldl (fun s wk => busSocketProcessAuthenticating c wk s) s

end Basu
