import Basu.Message.Header
import Basu.Message.ReadBack

/-! Parsing a received dbus1 message (`bus_message_from_malloc`): the fixed part of the header, the
loop over the header fields, and the checks on what they add up to. -/

namespace Basu
open Lib

/-- `message_skip_fields`. The first argument bounds loop and recursion; every turn takes at
least one byte, so twice the size of the fields is enough. -/
def messageSkipFields (e : Endian) (fields : Bytes) :
    Nat → Nat → Nat → Option Nat → Str → Except Errno Nat
  | 0, _, _, _, _ => .error .ebadmsg
  | fuel + 1, ri, originalIndex, arraySize, signature =>
    let t := charAt signature 0
    if arraySize.any (fun n => n ≤ ri - originalIndex) then .ok ri
    else if t = 0 then .ok ri
    else if t = sdBusTypeString then
      match peekString e utf8IsValid fields ri with
      | .error r => .error r
      | .ok (_, ri) => messageSkipFields e fields fuel ri originalIndex arraySize (signature.drop 1)
    else if t = sdBusTypeObjectPath then
      match peekString e objectPathIsValid fields ri with
      | .error r => .error r
      | .ok (_, ri) => messageSkipFields e fields fuel ri originalIndex arraySize (signature.drop 1)
    else if t = sdBusTypeSignature then
      match peekSignature fields ri with
      | .error r => .error r
      | .ok (_, ri) => messageSkipFields e fields fuel ri originalIndex arraySize (signature.drop 1)
    else if busTypeIsBasic t then
      match bufferPeek fields ri ((busTypeGetAlignment t).getD 1) ((busTypeGetSize t).getD 1) with
      | .error r => .error r
      | .ok (_, ri) => messageSkipFields e fields fuel ri originalIndex arraySize (signature.drop 1)
    else if t = sdBusTypeArray then
      match signatureElementLength (signature.drop 1),
          busTypeGetAlignment (charAt signature 1) with
      | some l, some alignment =>
        match peekUint32 e fields ri with
        | .error r => .error r
        | .ok (nas, ri) =>
          if busArrayMaxSize < nas then .error .ebadmsg
          else match bufferPeek fields ri alignment 0 with
            | .error r => .error r
            | .ok (_, ri) =>
              -- the elements are skipped with the signature of one element
              match messageSkipFields e fields fuel ri ri (some nas)
                  ((signature.drop 1).take l) with
              | .error r => .error r
              | .ok ri =>
                messageSkipFields e fields fuel ri originalIndex arraySize (signature.drop (1 + l))
      | _, _ => .error .einval
    else if t = sdBusTypeVariant then
      match peekSignature fields ri with
      | .error r => .error r
      | .ok (s, ri) =>
        match messageSkipFields e fields fuel ri ri none s with
        | .error r => .error r
        | .ok ri =>
          messageSkipFields e fields fuel ri originalIndex arraySize (signature.drop 1)
    else if t = sdBusTypeStruct ∨ t = sdBusTypeDictEntry then
      match signatureElementLength signature with
      | none => .error .einval
      | some l =>
        match messageSkipFields e fields fuel ri ri none ((signature.drop 1).take l) with
        | .error r => .error r
        | .ok ri => messageSkipFields e fields fuel ri originalIndex arraySize (signature.drop l)
    else .error .ebadmsg

structure Parsed where
  header : Header
  signature : Option Str := none
  unixFds : Option Nat := none
  deriving DecidableEq, Repr

def Parsed.add (P : Parsed) : Field → Parsed
  | .signature s => { P with signature := some s }
  | .unixFds x => { P with unixFds := some x }
  | f => { P with header := P.header.add f }

def parseStringField (e : Endian) (fields : Bytes) (present : Option Str) (signature : Str)
    (type : UInt8) (validate : Str → Bool) (add : Str → Parsed) (ri : Nat) :
    Except Errno (Parsed × Nat) :=
  if present.isSome then .error .ebadmsg
  else if signature ≠ [type] then .error .ebadmsg
  else (peekString e validate fields ri).map fun (s, ri) => (add s, ri)

def parseFieldValue (e : Endian) (fields : Bytes) (P : Parsed) (code : UInt8) (signature : Str)
    (ri : Nat) : Except Errno (Parsed × Nat) :=
  if code = 0 then .error .ebadmsg
  else if code = 1 then
    parseStringField e fields P.header.path signature sdBusTypeObjectPath objectPathIsValid
      (fun s => P.add (.path s)) ri
  else if code = 2 then
    parseStringField e fields P.header.interface signature sdBusTypeString interfaceNameIsValid
      (fun s => P.add (.interface s)) ri
  else if code = 3 then
    parseStringField e fields P.header.member signature sdBusTypeString memberNameIsValid
      (fun s => P.add (.member s)) ri
  else if code = 4 then
    parseStringField e fields P.header.errorName signature sdBusTypeString errorNameIsValid
      (fun s => P.add (.errorName s)) ri
  else if code = 6 then
    parseStringField e fields P.header.destination signature sdBusTypeString serviceNameIsValid
      (fun s => P.add (.destination s)) ri
  else if code = 7 then
    parseStringField e fields P.header.sender signature sdBusTypeString serviceNameIsValid
      (fun s => P.add (.sender s)) ri
  else if code = 8 then
    if P.signature.isSome then .error .ebadmsg
    else if signature ≠ [sdBusTypeSignature] then .error .ebadmsg
    else (peekSignature fields ri).map fun (s, ri) => (P.add (.signature s), ri)
  else if code = 5 then
    if P.header.replyCookie ≠ 0 then .error .ebadmsg
    else if signature ≠ [sdBusTypeUint32] then .error .ebadmsg
    else match peekUint32 e fields ri with
      | .error r => .error r
      | .ok (serial, ri) =>
        if serial = 0 then .error .ebadmsg else .ok (P.add (.replySerial serial), ri)
  else if code = 9 then
    if P.unixFds.isSome then .error .ebadmsg
    else if signature ≠ [sdBusTypeUint32] then .error .ebadmsg
    else match peekUint32 e fields ri with
      | .error _ => .error .ebadmsg
      | .ok (n, ri) => .ok (P.add (.unixFds n), ri)
  else
    (messageSkipFields e fields (2 * fields.length + 3) ri ri none signature).map
      fun ri => (P, ri)

def parseField (e : Endian) (fields : Bytes) (P : Parsed) (ri : Nat) :
    Except Errno (Parsed × Nat) :=
  match bufferPeek fields ri 8 1 with
  | .error r => .error r
  | .ok (q, ri) =>
    match peekSignature fields ri with
    | .error r => .error r
    | .ok (signature, ri) => parseFieldValue e fields P (charAt q 0) signature ri

def parseFieldsLoop (e : Endian) (fields : Bytes) : Nat → Parsed → Nat → Except Errno Parsed
  | 0, _, _ => .error .ebadmsg
  | fuel + 1, P, ri =>
    if fields.length ≤ ri then .ok P
    else match parseField e fields P ri with
      | .error r => .error r
      | .ok (P, ri) => parseFieldsLoop e fields fuel P ri

def hasRequiredFields (h : Header) : Bool :=
  if h.type = sdBusMessageSignal then
    h.path.isSome && h.interface.isSome && h.member.isSome && h.replyCookie = 0
  else if h.type = sdBusMessageMethodCall then
    h.path.isSome && h.member.isSome && h.replyCookie = 0
  else if h.type = sdBusMessageMethodReturn then h.replyCookie ≠ 0
  else if h.type = sdBusMessageMethodError then h.replyCookie ≠ 0 && h.errorName.isSome
  else true

/-- "/org/freedesktop/DBus/Local". -/
def localPath : Str :=
  [47, 111, 114, 103, 47, 102, 114, 101, 101, 100, 101, 115, 107, 116, 111, 112, 47, 68, 66, 117,
    115, 47, 76, 111, 99, 97, 108]

/-- "org.freedesktop.DBus.Local". -/
def localName : Str :=
  [111, 114, 103, 46, 102, 114, 101, 101, 100, 101, 115, 107, 116, 111, 112, 46, 68, 66, 117,
    115, 46, 76, 111, 99, 97, 108]

def notLocal (h : Header) : Bool :=
  h.path ≠ some localPath && h.interface ≠ some localName && h.sender ≠ some localName

/-- The first string of the body is read as the message of an error; it is no harm if there is
none. -/
def Received.readErrorMessage (m : Received) : Received :=
  match sdBusMessageReadBasic m sdBusTypeString with
  | .ok (some (.string s), m) => { m with errorMessage := some s }
  | _ => m

def parsedMessage (e : Endian) (P : Parsed) (body : Bytes) (fds : List Nat) : Received :=
  let m : Received :=
    { endian := e, header := P.header, body := body, root := { signature := P.signature },
      fds := fds }
  if P.header.type = sdBusMessageMethodError then m.readErrorMessage else m

def busMessageParseFields (e : Endian) (header : Header) (fields body : Bytes)
    (fds : List Nat) : Except Errno Received :=
  match parseFieldsLoop e fields (fields.length + 1) { header := header } 0 with
  | .error r => .error r
  | .ok P =>
    if fds.length ≠ P.unixFds.getD 0 then .error .ebadmsg
    else if hasRequiredFields P.header = false then .error .ebadmsg
    else if notLocal P.header = false then .error .ebadmsg
    else .ok (parsedMessage e P body fds)

def endianOfCode (c : UInt8) : Option Endian :=
  if c = busLittleEndian then some .little
  else if c = busBigEndian then some .big
  else none

def busMessageFromMalloc (buffer : Bytes) (fds : List Nat) : Except Errno Received :=
  if buffer.length < busHeaderSize then .error .ebadmsg
  else if charAt buffer 3 ≠ 1 then .error .ebadmsg
  else if charAt buffer 1 = 0 then .error .ebadmsg
  else match endianOfCode (charAt buffer 0) with
    | none => .error .ebadmsg
    | some e =>
      let bodySize := getWord e (slice buffer 4 4)
      let serial := getWord e (slice buffer 8 4)
      let fieldsSize := getWord e (slice buffer 12 4)
      if serial = 0 then .error .ebadmsg
      else if busHeaderSize + alignUp fieldsSize 8 + bodySize ≠ buffer.length then
        .error .ebadmsg
      else busMessageParseFields e
        { type := charAt buffer 1, flags := charAt buffer 2, serial := serial,
          fields := slice buffer busHeaderSize fieldsSize }
        (slice buffer busHeaderSize fieldsSize)
        (buffer.drop (busHeaderSize + alignUp fieldsSize 8)) fds

end Basu
