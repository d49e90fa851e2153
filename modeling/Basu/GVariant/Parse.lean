import Basu.GVariant.Message

/-! `bus_message_from_malloc` for both versions. A message of version 2 has its header fields in an
array with a table of offsets behind it, and the signature of its body in front of the last word of
the buffer. -/

namespace Basu.GVariant
open Lib

/-- `message_peek_fields`; the size is passed on in 32 bits. -/
def messagePeekFields (fieldsSize : Nat) (fields : Bytes) (ri align nbytes : Nat) :
    Except Errno (Bytes × Nat) :=
  if fieldsSize % 2 ^ 32 < alignUp ri align + nbytes then .error .ebadmsg
  else bufferPeek fields ri align nbytes

def lastZero : Bytes → Option Nat
  | [] => none
  | b :: bs =>
    match lastZero bs with
    | some i => some (i + 1)
    | none => if b = 0 then some 0 else none

def messagePeekFieldString (fieldsSize : Nat) (fields : Bytes) (validate : Str → Bool)
    (ri itemSize : Nat) : Except Errno (Str × Nat) :=
  if itemSize = 0 then .error .ebadmsg
  else match messagePeekFields fieldsSize fields ri 1 itemSize with
    | .error r => .error r
    | .ok (q, ri) =>
      if validateText validate q (itemSize - 1) then .ok (q.take (itemSize - 1), ri)
      else .error .ebadmsg

def messagePeekFieldWord (e : Endian) (fieldsSize : Nat) (fields : Bytes) (size ri itemSize : Nat) :
    Except Errno (Nat × Nat) :=
  if itemSize ≠ size then .error .ebadmsg
  else match messagePeekFields fieldsSize fields ri size size with
    | .error r => .error r
    | .ok (q, ri) => .ok (getWord e q, ri)

def stringField (fieldsSize : Nat) (fields : Bytes) (present : Option Str) (signature : Str)
    (type : UInt8) (validate : Str → Bool) (add : Str → Parsed) (ri itemSize : Nat) :
    Except Errno (Parsed × Nat) :=
  if present.isSome then .error .ebadmsg
  else if signature ≠ [type] then .error .ebadmsg
  else (messagePeekFieldString fieldsSize fields validate ri itemSize).map fun (s, ri) => (add s, ri)

/-- The switch of `bus_message_parse_fields` on the code of a field, for version 2. A field with an
unknown code is passed over. -/
def fieldValue (e : Endian) (fieldsSize : Nat) (fields : Bytes) (P : Parsed) (code : Nat)
    (signature : Str) (ri itemSize : Nat) : Except Errno (Parsed × Nat) :=
  if code = 0 then .error .ebadmsg
  else if code = 1 then
    stringField fieldsSize fields P.header.path signature sdBusTypeObjectPath objectPathIsValid
      (fun s => P.add (.path s)) ri itemSize
  else if code = 2 then
    stringField fieldsSize fields P.header.interface signature sdBusTypeString interfaceNameIsValid
      (fun s => P.add (.interface s)) ri itemSize
  else if code = 3 then
    stringField fieldsSize fields P.header.member signature sdBusTypeString memberNameIsValid
      (fun s => P.add (.member s)) ri itemSize
  else if code = 4 then
    stringField fieldsSize fields P.header.errorName signature sdBusTypeString errorNameIsValid
      (fun s => P.add (.errorName s)) ri itemSize
  else if code = 6 then
    stringField fieldsSize fields P.header.destination signature sdBusTypeString serviceNameIsValid
      (fun s => P.add (.destination s)) ri itemSize
  else if code = 7 then
    stringField fieldsSize fields P.header.sender signature sdBusTypeString serviceNameIsValid
      (fun s => P.add (.sender s)) ri itemSize
  else if code = 8 then .error .ebadmsg
  else if code = 5 then
    if P.header.replyCookie ≠ 0 then .error .ebadmsg
    else if signature ≠ [sdBusTypeUint64] then .error .ebadmsg
    else match messagePeekFieldWord e fieldsSize fields 8 ri itemSize with
      | .error r => .error r
      | .ok (cookie, ri) =>
        if cookie = 0 then .error .ebadmsg else .ok (P.add (.replySerial cookie), ri)
  else if code = 9 then
    if P.unixFds.isSome then .error .ebadmsg
    else if signature ≠ [sdBusTypeUint32] then .error .ebadmsg
    else match messagePeekFieldWord e fieldsSize fields 4 ri itemSize with
      | .error _ => .error .ebadmsg
      | .ok (n, ri) => .ok (P.add (.unixFds n), ri)
  else .ok (P, ri)

def parseItem (e : Endian) (fieldsSize : Nat) (fields : Bytes) (P : Parsed) (start stop : Nat) :
    Except Errno (Parsed × Nat) :=
  match messagePeekFields fieldsSize fields start 8 8 with
  | .error r => .error r
  | .ok (q, ri) =>
    if stop < ri then .error .ebadmsg
    else match messagePeekFields fieldsSize fields (alignUp ri 8) 1 (stop - alignUp ri 8) with
      | .error r => .error r
      | .ok (v, _) =>
        match lastZero v with
        | none => .error .ebadmsg
        | some b =>
          fieldValue e fieldsSize fields P (getWord e q) (v.drop (b + 1)) (alignUp ri 8) b

def parseItems (e : Endian) (fieldsSize : Nat) (fields : Bytes) (sz : Nat) (table : Bytes)
    (nOffsets : Nat) : Nat → Nat → Nat → Parsed → Except Errno Parsed
  | 0, _, _, _ => .error .ebadmsg
  | fuel + 1, i, ri, P =>
    if fieldsSize ≤ ri then .ok P
    else if nOffsets ≤ i then .ok P
    else
      let start := if i = 0 then 0 else alignUp (tableWord sz table (i - 1)) 8
      match parseItem e fieldsSize fields P start (tableWord sz table i) with
      | .error r => .error r
      | .ok (P, ri) => parseItems e fieldsSize fields sz table nOffsets fuel (i + 1) ri P

def fieldOffsets (fieldsSize : Nat) (fields : Bytes) : Except Errno (Bytes × Nat) :=
  let sz := wordSize fieldsSize
  -- without fields the size wraps around, and the word read is of no use to the loop
  if fieldsSize < sz then .ok ([], 0)
  else match messagePeekFields fieldsSize fields (fieldsSize - sz) 1 sz with
    | .error r => .error r
    | .ok (q, _) =>
      let framing := getWord .little q
      if fieldsSize - sz ≤ framing then .error .ebadmsg
      else if (fieldsSize - framing) % sz ≠ 0 then .error .ebadmsg
      else match messagePeekFields fieldsSize fields framing 1 (fieldsSize - framing) with
        | .error r => .error r
        | .ok (table, _) => .ok (table, (fieldsSize - framing) / sz)

def parseFields (e : Endian) (header : Header) (fieldsSize : Nat) (fields : Bytes) :
    Except Errno Parsed :=
  match fieldOffsets fieldsSize fields with
  | .error r => .error r
  | .ok (table, nOffsets) =>
    parseItems e fieldsSize fields (wordSize fieldsSize) table nOffsets (nOffsets + 1) 0 0
      { header := header }

def busMessageSize (z : Sizes) : Nat :=
  SizeT.w64.wrap (busHeaderSize + SizeT.w64.align8 z.fieldsSize + z.bodySize)

/-- The signature at the end of the buffer, and where the NUL in front of it is. The search for that
NUL goes back as far as the buffer. -/
def footerSignature (buffer : Bytes) (sz : Nat) : Except Errno (Nat × Str) :=
  if buffer.length < 1 + sz then .error .ebadmsg
  else
    let text := buffer.take (buffer.length - sz)
    match lastZero text with
    | none => .error .ebadmsg
    | some p =>
      let l := text.length - (p + 1)
      if l < 2 ∨ charAt text (p + 1) ≠ sdBusTypeStructBegin ∨
          charAt text (p + l) ≠ sdBusTypeStructEnd then .error .ebadmsg
      else .ok (p, (text.drop (p + 2)).take (l - 2))

def userBodySize (buffer : Bytes) (bodySize p : Nat) : Nat :=
  SizeT.w64.wrap (bodySize + SizeT.w64.modulus - (buffer.length - p))

def Inbound.readErrorMessage (m : Inbound) : Inbound :=
  match sdBusMessageReadBasic m sdBusTypeString with
  | .ok (some (.string s), m) => { m with errorMessage := some s }
  | _ => m

def checkParsed (P : Parsed) (fds : List Nat) : Bool :=
  fds.length = P.unixFds.getD 0 && hasRequiredFields P.header && notLocal P.header

def parseGvariant (e : Endian) (header : Header) (buffer : Bytes) (z : Sizes) (fds : List Nat) :
    Except Errno Inbound :=
  match footerSignature buffer (wordSize (busMessageSize z)) with
  | .error r => .error r
  | .ok (p, signature) =>
    let userSize := userBodySize buffer z.bodySize p
    match parseFields e header z.fieldsSize (slice buffer busHeaderSize z.fieldsSize) with
    | .error r => .error r
    | .ok P =>
      if checkParsed P fds = false then .error .ebadmsg
      else
        let m : Inbound :=
          { version := 2, endian := e, header := P.header, fieldsSize := z.fieldsSize
            bodySize := z.bodySize, userBodySize := userSize
            body := buffer.drop (busHeaderSize + SizeT.w64.align8 z.fieldsSize)
            root := { signature := some signature, stop := userSize }, fds := fds }
        match buildStructOffsets m signature userSize with
        | .error r => .error (if r = .einval then .ebadmsg else r)
        | .ok x =>
          let m := { m with
            rindex := x.rindex
            root := { m.root with offsets := x.offsets, itemSize := x.itemSize } }
          .ok (if m.header.type = sdBusMessageMethodError then m.readErrorMessage else m)

def parseDbus1 (e : Endian) (header : Header) (buffer : Bytes) (z : Sizes) (fds : List Nat) :
    Except Errno Inbound :=
  (busMessageParseFields e header (slice buffer busHeaderSize z.fieldsSize)
    (buffer.drop (busHeaderSize + SizeT.w64.align8 z.fieldsSize)) fds).map fun r =>
    { version := 1, endian := e, header := r.header, fieldsSize := z.fieldsSize
      bodySize := z.bodySize, userBodySize := z.bodySize, body := r.body
      root := { signature := r.root.signature, index := r.root.index, stop := z.bodySize }
      rindex := r.rindex, fds := r.fds, errorMessage := r.errorMessage }

def busMessageFromMalloc (buffer : Bytes) (fds : List Nat) : Except Errno Inbound :=
  match busMessageFromHeader .w64 buffer, endianOfCode (charAt buffer 0) with
  | .error r, _ => .error r
  | _, none => .error .ebadmsg
  | .ok z, some e =>
    let version := charAt buffer 3
    let header : Header :=
      { type := charAt buffer 1, flags := charAt buffer 2
        serial := if version = 2 then getWord e (slice buffer 8 8) else getWord e (slice buffer 8 4)
        fields := slice buffer busHeaderSize z.fieldsSize }
    if version = 2 then parseGvariant e header buffer z fds else parseDbus1 e header buffer z fds

end Basu.GVariant
