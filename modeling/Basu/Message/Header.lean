import Basu.Message.Failure
import Basu.Names

/-! The header of a message under construction (`bus-message.c`): header fields are appended one
after the other, each aligned to eight bytes; sealing adds the signature and the number of
descriptors. -/

namespace Basu
open Lib

def sdBusMessageMethodCall : UInt8 := 1
def sdBusMessageMethodReturn : UInt8 := 2
def sdBusMessageMethodError : UInt8 := 3
def sdBusMessageSignal : UInt8 := 4

def busMessageNoReplyExpected : UInt8 := 1
def busMessageNoAutoStart : UInt8 := 2
def busMessageAllowInteractiveAuthorization : UInt8 := 4

inductive Field
  | path (s : Str)
  | interface (s : Str)
  | member (s : Str)
  | errorName (s : Str)
  | replySerial (x : Nat)
  | destination (s : Str)
  | sender (s : Str)
  | signature (s : Str)
  | unixFds (x : Nat)
  deriving DecidableEq, Repr

def Field.code : Field → UInt8
  | .path _ => 1
  | .interface _ => 2
  | .member _ => 3
  | .errorName _ => 4
  | .replySerial _ => 5
  | .destination _ => 6
  | .sender _ => 7
  | .signature _ => 8
  | .unixFds _ => 9

def Field.type : Field → UInt8
  | .path _ => sdBusTypeObjectPath
  | .signature _ => sdBusTypeSignature
  | .replySerial _ | .unixFds _ => sdBusTypeUint32
  | _ => sdBusTypeString

def Field.payload (e : Endian) : Field → Bytes
  | .path s | .interface s | .member s | .errorName s | .destination s | .sender s => strBytes e s
  | .replySerial x | .unixFds x => putWord e 4 x
  | .signature s => sigBytes s

def Field.bytes (e : Endian) (f : Field) : Bytes := [f.code, 1, f.type, 0] ++ f.payload e

def Header.add (h : Header) : Field → Header
  | .path s => { h with path := some s }
  | .interface s => { h with interface := some s }
  | .member s => { h with member := some s }
  | .errorName s => { h with errorName := some s }
  | .replySerial x => { h with replyCookie := x }
  | .destination s => { h with destination := some s }
  | .sender s => { h with sender := some s }
  | .signature _ | .unixFds _ => h

def busHeaderSize : Nat := 16

def messageExtendFields (m : Message) (fill : Bytes) : Except Errno Message :=
  if m.poisoned then .error .enomem
  else
    let oldSize := busHeaderSize + m.header.fields.length
    let start := alignUp oldSize 8
    if uint32Max < start + fill.length then .error .enomem
    else .ok { m with header := { m.header with
      fields := m.header.fields ++ (zeros (start - oldSize) ++ fill) } }

def messageAppendFieldString (m : Message) (h type : UInt8) (s : Str) : Except Errno Message :=
  if uint32Max < s.length then .error .einval
  else messageExtendFields m ([h, 1, type, 0] ++ strBytes m.endian s)

def messageAppendFieldSignature (m : Message) (h : UInt8) (s : Str) : Except Errno Message :=
  if 255 < s.length then .error .einval
  else messageExtendFields m ([h, 1, sdBusTypeSignature, 0] ++ sigBytes s)

def messageAppendFieldUint32 (m : Message) (h : UInt8) (x : Nat) : Except Errno Message :=
  messageExtendFields m ([h, 1, sdBusTypeUint32, 0] ++ putWord m.endian 4 x)

def messageAppendReplyCookie (m : Message) (cookie : Nat) : Except Errno Message :=
  if uint32Max < cookie then .error .eopnotsupp else messageAppendFieldUint32 m 5 cookie

def Message.addField (m : Message) (f : Field) : Except Errno Message :=
  (match f with
    | .path s => messageAppendFieldString m 1 sdBusTypeObjectPath s
    | .interface s => messageAppendFieldString m 2 sdBusTypeString s
    | .member s => messageAppendFieldString m 3 sdBusTypeString s
    | .errorName s => messageAppendFieldString m 4 sdBusTypeString s
    | .replySerial x => messageAppendReplyCookie m x
    | .destination s => messageAppendFieldString m 6 sdBusTypeString s
    | .sender s => messageAppendFieldString m 7 sdBusTypeString s
    | .signature s => messageAppendFieldSignature m 8 s
    | .unixFds x => messageAppendFieldUint32 m 9 x).map
  fun (m : Message) => { m with header := m.header.add f }

def Message.addFields (m : Message) : List Field → Except Errno Message
  | [] => .ok m
  | f :: fs =>
    match m.addField f with
    | .error r => .error r
    | .ok m => m.addFields fs

structure Bus where
  nativeEndian : Endian
  allowFds : Bool := true
  allowInteractiveAuthorization : Bool := false

def sdBusMessageNew (bus : Bus) (type : UInt8) : Except Errno Message :=
  if 5 ≤ type then .error .einval
  else .ok {
    endian := bus.nativeEndian
    header := {
      type := type
      flags := if bus.allowInteractiveAuthorization then busMessageAllowInteractiveAuthorization
        else 0 }
    allowFds := bus.allowFds }

def Message.orFlags (m : Message) (flags : UInt8) : Message :=
  { m with header := { m.header with flags := m.header.flags ||| flags } }

def sdBusMessageNewSignal (bus : Bus) (path interface member : CStr) : Except Errno Message :=
  if objectPathIsValid path.1 = false then .error .einval
  else if interfaceNameIsValid interface.1 = false then .error .einval
  else if memberNameIsValid member.1 = false then .error .einval
  else match sdBusMessageNew bus sdBusMessageSignal with
    | .error _ => .error .enomem
    | .ok m => (m.orFlags busMessageNoReplyExpected).addFields
        [.path path.1, .interface interface.1, .member member.1]

def sdBusMessageNewMethodCall (bus : Bus) (destination : Option CStr) (path : CStr)
    (interface : Option CStr) (member : CStr) : Except Errno Message :=
  if destination.any (fun s => !serviceNameIsValid s.1) then .error .einval
  else if objectPathIsValid path.1 = false then .error .einval
  else if interface.any (fun s => !interfaceNameIsValid s.1) then .error .einval
  else if memberNameIsValid member.1 = false then .error .einval
  else match sdBusMessageNew bus sdBusMessageMethodCall with
    | .error _ => .error .enomem
    | .ok m => m.addFields ([.path path.1, .member member.1] ++
        (interface.map fun s => Field.interface s.1).toList ++
        (destination.map fun s => Field.destination s.1).toList)

structure Call where
  cookie : Nat
  sender : Option CStr
  senderValid : ∀ s ∈ sender, serviceNameIsValid s.1 = true
  enforcedReplySignature : Option Str := none

def messageNewReply (bus : Bus) (call : Call) (type : UInt8) : Except Errno Message :=
  if call.cookie = 0 then .error .eopnotsupp
  else match sdBusMessageNew bus type with
    | .error _ => .error .enomem
    | .ok m =>
      ((m.orFlags busMessageNoReplyExpected).addFields (.replySerial call.cookie ::
        (call.sender.map fun s => Field.destination s.1).toList)).map
      fun m => { m with enforcedReplySignature := call.enforcedReplySignature }

def sdBusMessageNewMethodReturn (bus : Bus) (call : Call) : Except Errno Message :=
  messageNewReply bus call sdBusMessageMethodReturn

def newMethodErrorHeader (bus : Bus) (call : Call) (name : CStr) : Except Errno Message :=
  match messageNewReply bus call sdBusMessageMethodError with
  | .error r => .error r
  | .ok m => m.addField (.errorName name.1)

def sdBusMessageNewMethodError (bus : Bus) (call : Call) (name : CStr) (message : Option CStr) :
    Except Errno Message :=
  match newMethodErrorHeader bus call name with
  | .error r => .error r
  | .ok m =>
    match message with
    | none => .ok m
    | some s =>
      match messageAppendBasic m (.string (some s)) with
      | (.error r, _) => .error r
      | (.ok (), m) => .ok m

def sdBusMessageSetDestination (m : Message) (s : CStr) : Except Errno Message :=
  if serviceNameIsValid s.1 = false then .error .einval
  else if m.sealed then .error .eperm
  else if m.header.destination.isSome then .error .eexist
  else m.addField (.destination s.1)

def sdBusMessageSetSender (m : Message) (s : CStr) : Except Errno Message :=
  if serviceNameIsValid s.1 = false then .error .einval
  else if m.sealed then .error .eperm
  else if m.header.sender.isSome then .error .eexist
  else m.addField (.sender s.1)

def Message.setFlag (m : Message) (flag : UInt8) (b : Bool) : Message :=
  { m with header := { m.header with
    flags := if b then m.header.flags ||| flag else m.header.flags &&& ~~~flag } }

def sealFields (signature : Str) (fds : List Nat) : List Field :=
  (if signature = [] then [] else [Field.signature signature]) ++
    (if fds = [] then [] else [Field.unixFds fds.length])

def sdBusMessageSeal (m : Message) (cookie : Nat) : Except Errno Message :=
  if m.sealed then .error .eperm
  else if m.containers ≠ [] then .error .ebadmsg
  else if m.poisoned then .error .estale
  else if uint32Max < cookie then .error .eopnotsupp
  else if m.header.type = sdBusMessageMethodReturn ∧
      m.enforcedReplySignature.any (· ≠ strempty m.root.signature) then .error .enomsg
  else match m.addFields (sealFields (strempty m.root.signature) m.fds) with
    | .error r => .error r
    | .ok m => .ok { m with
        header := { m.header with serial := cookie }
        root := { m.root with index := 0 }
        sealed := true }

def busLittleEndian : UInt8 := 108
def busBigEndian : UInt8 := 66

def Endian.code : Endian → UInt8
  | .little => busLittleEndian
  | .big => busBigEndian

def Message.headerBytes (m : Message) : Bytes :=
  [Endian.code m.endian, m.header.type, m.header.flags, 1] ++
    (putWord m.endian 4 m.bodySize ++
      (putWord m.endian 4 m.header.serial ++ putWord m.endian 4 m.header.fields.length))

def Message.blob (m : Message) : Bytes :=
  m.headerBytes ++ (m.header.fields ++ (zeros (padTo m.header.fields.length 8) ++ m.body))

end Basu
