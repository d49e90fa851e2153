import Basu.Hex
import Basu.Names
import Mathlib.Data.List.TakeWhile
import Mathlib.Logic.Function.Basic

/-! Addresses of a bus (`sd-bus.c`): entries separated by semicolons, each with keys separated by
commas and values that may be percent-escaped. The cursors of the source are what is left of the
string behind them. -/

namespace Basu
open Lib

def charPercent : UInt8 := 37
def charSemicolon : UInt8 := 59

/-- The loop of `parse_address_key`: the value, and what starts at the character that ends it. -/
def addressValue : Str → Except Errno (Str × Str)
  | [] => .ok ([], [])
  | c :: a =>
    if c = charSemicolon ∨ c = charComma then .ok ([], c :: a)
    else if c = charPercent then
      match a with
      | x :: y :: a =>
        match unhexchar x, unhexchar y with
        | some x, some y => (addressValue a).map fun r => ((x <<< 4 ||| y) :: r.1, r.2)
        | _, _ => .error .einval
      | _ => .error .einval
    else (addressValue a).map fun r => (c :: r.1, r.2)

@[simp] theorem addressValue_nil : addressValue [] = .ok ([], []) := by
  rw [addressValue.eq_def]

theorem addressValue_end {c : UInt8} (h : c = charSemicolon ∨ c = charComma) (a : Str) :
    addressValue (c :: a) = .ok ([], c :: a) := by
  rw [addressValue.eq_def]
  dsimp only
  rw [if_pos h]

theorem addressValue_percent (x y : UInt8) (a : Str) :
    addressValue (charPercent :: x :: y :: a) =
      match unhexchar x, unhexchar y with
      | some x, some y => (addressValue a).map fun r => ((x <<< 4 ||| y) :: r.1, r.2)
      | _, _ => .error .einval := by
  rw [addressValue.eq_def]
  rfl

theorem addressValue_other {c : UInt8} (h : ¬(c = charSemicolon ∨ c = charComma))
    (hp : c ≠ charPercent) (a : Str) :
    addressValue (c :: a) = (addressValue a).map fun r => (c :: r.1, r.2) := by
  rw [addressValue.eq_def]
  dsimp only
  rw [if_neg h, if_neg hp]

def cString (s : Str) : Str := s.takeWhile fun c => c ≠ 0

theorem cString_of_clean {s : Str} (h : (0 : UInt8) ∉ s) : cString s = s := by
  unfold cString
  rw [List.takeWhile_eq_self_iff]
  intro c hc
  exact decide_eq_true fun h0 => h (h0 ▸ hc)

def addressKeyValue (a : Str) : Except Errno (Option (Str × Str)) :=
  (addressValue a).map fun r =>
    some (if charAt r.2 0 = charComma then r.2.drop 1 else r.2, cString r.1)

def parseAddressKey (p : Str) (key : Option Str) (value : Option Str) :
    Except Errno (Option (Str × Str)) :=
  match key with
  | none => addressKeyValue p
  | some key =>
    if !key.isPrefixOf p then .ok none
    else if charAt p key.length ≠ charEquals then .ok none
    else if value.isSome then .error .einval
    else addressKeyValue (p.drop (key.length + 1))

def skipAddressKey (p : Str) : Str := (p.dropWhile fun c => c ≠ charComma).drop 1

/-- "guid" -/
def guidKey : Str := [103, 117, 105, 100]

/-- "path" -/
def pathKey : Str := [112, 97, 116, 104]

/-- "abstract" -/
def abstractKey : Str := [97, 98, 115, 116, 114, 97, 99, 116]

/-- "host" -/
def hostKey : Str := [104, 111, 115, 116]

/-- "port" -/
def portKey : Str := [112, 111, 114, 116]

/-- "family" -/
def familyKey : Str := [102, 97, 109, 105, 108, 121]

abbrev AddressKeys := Str → Option Str

/-- The body of the loops over the keys of an entry: the keys are tried one after the other, and
what is none of them is skipped. -/
def addressKeyTurn : List Str → Str → AddressKeys → Except Errno (Str × AddressKeys)
  | [], p, found => .ok (skipAddressKey p, found)
  | key :: keys, p, found =>
    match parseAddressKey p (some key) (found key) with
    | .error r => .error r
    | .ok (some (p, value)) => .ok (p, Function.update found key (some value))
    | .ok none => addressKeyTurn keys p found

/-- The loops of `parse_unix_address` and `parse_tcp_address`; every turn takes a character. -/
def addressKeyLoop (keys : List Str) : Nat → Str → AddressKeys → Except Errno (Str × AddressKeys)
  | 0, p, found => .ok (p, found)
  | fuel + 1, p, found =>
    if charAt p 0 = 0 ∨ charAt p 0 = charSemicolon then .ok (p, found)
    else match addressKeyTurn keys p found with
      | .error r => .error r
      | .ok (p, found) => addressKeyLoop keys fuel p found

/-- `union sockaddr_union` up to the size that is set; of a unix address the bytes of the path. -/
inductive SockAddr
  | unspec
  | unix (sunPath : Bytes)
  | inet (address : Bytes)
  deriving DecidableEq, Repr

def sunPathSize : Nat := 108

/-- What `getaddrinfo` is asked for with `AF_INET`, `AF_INET6` or neither of them. -/
inductive AddressFamily
  | any
  | ipv4
  | ipv6
  deriving DecidableEq, Repr

def unixKeys : List Str := [guidKey, pathKey, abstractKey]

def unixSockAddr (path abstract : Option Str) : Except Errno SockAddr :=
  match path, abstract with
  | none, none => .error .einval
  | some _, some _ => .error .einval
  | some path, none =>
    if sunPathSize ≤ path.length then .error .etoobig else .ok (.unix (path ++ [0]))
  | none, some abstract =>
    if sunPathSize - 1 ≤ abstract.length then .error .etoobig else .ok (.unix (0 :: abstract))

def parseUnixAddress (p : Str) : Except Errno (Str × SockAddr × Option Str) :=
  match addressKeyLoop unixKeys p.length p fun _ => none with
  | .error r => .error r
  | .ok (p, found) =>
    (unixSockAddr (found pathKey) (found abstractKey)).map fun s => (p, s, found guidKey)

/-- "ipv4" -/
def ipv4Name : Str := [105, 112, 118, 52]

/-- "ipv6" -/
def ipv6Name : Str := [105, 112, 118, 54]

/-- What the environment answers: `getaddrinfo`, and an attempt to connect after others. -/
structure AddressEnv where
  getaddrinfo : Str → Str → AddressFamily → Except Errno Bytes
  connect : List SockAddr → SockAddr → Except Errno Unit

def tcpSockAddr (env : AddressEnv) (host port family : Option Str) : Except Errno SockAddr :=
  match host, port with
  | some host, some port =>
    let ask := fun f => (env.getaddrinfo host port f).map SockAddr.inet
    match family with
    | none => ask .any
    | some f =>
      if f = ipv4Name then ask .ipv4 else if f = ipv6Name then ask .ipv6 else .error .einval
  | _, _ => .error .einval

def parseTcpAddress (env : AddressEnv) (p : Str) : Except Errno (Str × SockAddr × Option Str) :=
  match addressKeyLoop [guidKey, hostKey, portKey, familyKey] p.length p fun _ => none with
  | .error r => .error r
  | .ok (p, found) =>
    (tcpSockAddr env (found hostKey) (found portKey) (found familyKey)).map fun s =>
      (p, s, found guidKey)

/-- The loop of `sd_id128_from_string`: so many bytes are still missing, so many characters were
read, and whether there were dashes; with the bytes and what is left it ends. -/
def id128Loop : Nat → Nat → Bool → Str → Option (Nat × Bool × Bytes × Str)
  | 0, i, isGuid, s => some (i, isGuid, [], s)
  | _ + 1, _, _, [] => none
  | n + 1, i, isGuid, c :: s =>
    if c = charDash then
      if i = 8 then id128Loop (n + 1) (i + 1) true s
      else if (i = 13 ∨ i = 18 ∨ i = 23) ∧ isGuid = true then id128Loop (n + 1) (i + 1) isGuid s
      else none
    else
      match s with
      | [] => none
      | d :: s =>
        match unhexchar c, unhexchar d with
        | some a, some b => (id128Loop n (i + 2) isGuid s).map fun r =>
            (r.1, r.2.1, (a <<< 4 ||| b) :: r.2.2.1, r.2.2.2)
        | _, _ => none

def sdId128FromString (s : Str) : Option Bytes :=
  match id128Loop 16 0 false s with
  | none => none
  | some (i, isGuid, bytes, rest) =>
    if i ≠ (if isGuid then 36 else 32) then none
    else if charAt rest 0 ≠ 0 then none
    else some bytes

structure AddressBus where
  address : Option Str
  addressIndex : Nat := 0
  sockaddr : SockAddr := .unspec
  serverId : Bytes := zeros 16
  isLocal : Bool := false
  lastConnectError : Option Errno := none
  tried : List SockAddr := []
  deriving DecidableEq, Repr

def busResetParsedAddress (b : AddressBus) : AddressBus :=
  { b with sockaddr := .unspec, serverId := zeros 16 }

/-- "unix:" -/
def unixPrefix : Str := [117, 110, 105, 120, 58]

/-- "tcp:" -/
def tcpPrefix : Str := [116, 99, 112, 58]

/-- What the loop of `bus_parse_next_address` comes to. -/
inductive NextEntry
  | none
  | finish
  | found (a : Str) (sockaddr : SockAddr) (isLocal : Bool) (guid : Option Str)

/-- The loop of `bus_parse_next_address`, which takes a character in every turn but the last. -/
def nextEntryLoop (env : AddressEnv) : Nat → Str → Except Errno NextEntry
  | 0, _ => .ok .finish
  | fuel + 1, a =>
    if charAt a 0 = 0 then .ok .finish
    else if charAt a 0 = charSemicolon then nextEntryLoop env fuel (a.drop 1)
    else if unixPrefix.isPrefixOf a then
      (parseUnixAddress (a.drop 5)).map fun r => .found r.1 r.2.1 true r.2.2
    else if tcpPrefix.isPrefixOf a then
      (parseTcpAddress env (a.drop 4)).map fun r => .found r.1 r.2.1 false r.2.2
    else
      match a.dropWhile fun c => c ≠ charSemicolon with
      | [] => .ok .none
      | a => nextEntryLoop env fuel a

def addressIndexOf (address a : Str) : Nat := (address.length - a.length) % (uint32Max + 1)

def busParseNextAddress (env : AddressEnv) (b : AddressBus) : AddressBus × Except Errno Bool :=
  match b.address with
  | none => (b, .ok false)
  | some address =>
    if charAt address b.addressIndex = 0 then (b, .ok false)
    else
      let b := busResetParsedAddress b
      let a := address.drop b.addressIndex
      match nextEntryLoop env (a.length + 1) a with
      | .error r => (b, .error r)
      | .ok .none => (b, .ok false)
      | .ok .finish => ({ b with addressIndex := addressIndexOf address [] }, .ok true)
      | .ok (.found a sockaddr isLocal guid) =>
        let b := { b with sockaddr := sockaddr, isLocal := isLocal }
        match guid with
        | none => ({ b with addressIndex := addressIndexOf address a }, .ok true)
        | some guid =>
          match sdId128FromString guid with
          | none => (b, .error .einval)
          | some id =>
            ({ b with serverId := id, addressIndex := addressIndexOf address a }, .ok true)

/-- The attempt that a turn of `bus_start_address` makes, if there is an address. -/
def busTryAddress (env : AddressEnv) (b : AddressBus) : AddressBus × Except Errno Unit :=
  if b.sockaddr = .unspec then (b, .error .econnrefused)
  else
    let r := env.connect b.tried b.sockaddr
    let b := { b with tried := b.tried ++ [b.sockaddr] }
    match r with
    | .error r => ({ b with lastConnectError := some r }, .error r)
    | .ok () => (b, .ok ())

/-- `bus_start_address`, with as many turns as there is fuel for. -/
def busStartAddress (env : AddressEnv) : Nat → AddressBus → Option (AddressBus × Except Errno Unit)
  | 0, _ => none
  | fuel + 1, b =>
    match busTryAddress env b with
    | (b, .ok ()) => some (b, .ok ())
    | (b, .error _) =>
      match busParseNextAddress env b with
      | (b, .error r) => some (b, .error r)
      | (b, .ok false) => some (b, .error (b.lastConnectError.getD .econnrefused))
      | (b, .ok true) => busStartAddress env fuel b

def busNextAddress (env : AddressEnv) (fuel : Nat) (b : AddressBus) :
    Option (AddressBus × Except Errno Unit) :=
  busStartAddress env fuel (busResetParsedAddress b)

end Basu
