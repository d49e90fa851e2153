import Basu.Message.Peek
import Basu.Message.Writer

/-! The read side of a received dbus1 message (`bus-message.c`): a cursor into the body, a stack
of entered containers, and an index into the signature of each. None of these functions touches
the message when it fails. -/

namespace Basu
open Lib

def busArrayMaxSize : Nat := 64 * 1024 * 1024

def busContainerDepth : Nat := 128

/-- `struct bus_container` as the read side uses it; `arraySize` is the word the pointer of an
entered array points at. -/
structure RContainer where
  enclosing : UInt8 := 0
  signature : Option Str := none
  index : Nat := 0
  begin : Nat := 0
  arraySize : Nat := 0
  deriving DecidableEq, Repr

structure Received where
  endian : Endian
  header : Header
  body : Bytes
  root : RContainer := {}
  /-- From the innermost container out. -/
  containers : List RContainer := []
  rindex : Nat := 0
  fds : List Nat := []
  errorMessage : Option Str := none
  deriving DecidableEq, Repr

def RContainer.rest (c : RContainer) : Str := (strempty c.signature).drop c.index

def RContainer.cur (c : RContainer) : UInt8 := charAt c.rest 0

def Received.last (m : Received) : RContainer := m.containers.headD m.root

def Received.setLast (m : Received) (c : RContainer) : Received :=
  match m.containers with
  | [] => { m with root := c }
  | _ :: cs => { m with containers := c :: cs }

def Received.advance (m : Received) (n : Nat) : Received :=
  if m.last.enclosing = sdBusTypeArray then m
  else m.setLast { m.last with index := m.last.index + n }

def messageEndOfSignature (m : Received) : Bool := m.last.cur = 0

def messageEndOfArray (m : Received) : Bool :=
  m.last.enclosing = sdBusTypeArray && m.last.begin + m.last.arraySize ≤ m.rindex

def Basic.all : List Basic :=
  [.num .byte, .num .int16, .num .uint16, .num .int32, .num .uint32, .num .int64, .num .uint64,
    .num .double, .boolean, .string, .objectPath, .signature, .unixFd]

def Basic.ofCode (c : UInt8) : Option Basic := Basic.all.find? (fun b => b.code = c)

def readBasicValue (m : Received) : Basic → Except Errno (BasicVal × Nat)
  | .num t =>
    (bufferPeek m.body m.rindex t.size t.size).map fun (q, ri) =>
      (.num t (BitVec.ofNat _ (getWord m.endian q)), ri)
  | .boolean =>
    (peekUint32 m.endian m.body m.rindex).map fun (w, ri) => (.boolean (w ≠ 0), ri)
  | .string =>
    (peekString m.endian utf8IsValid m.body m.rindex).map fun (s, ri) => (.string s, ri)
  | .objectPath =>
    (peekString m.endian objectPathIsValid m.body m.rindex).map fun (s, ri) => (.objectPath s, ri)
  | .signature => (peekSignature m.body m.rindex).map fun (s, ri) => (.signature s, ri)
  | .unixFd =>
    match peekUint32 m.endian m.body m.rindex with
    | .error r => .error r
    | .ok (j, ri) =>
      match m.fds[j]? with
      | none => .error .ebadmsg
      | some fd => .ok (.unixFd fd, ri)

def sdBusMessageReadBasic (m : Received) (type : UInt8) :
    Except Errno (Option BasicVal × Received) :=
  match Basic.ofCode type with
  | none => .error .einval
  | some b =>
    if messageEndOfSignature m then .error .enxio
    else if messageEndOfArray m then .ok (none, m)
    else if m.last.cur ≠ type then .error .enxio
    else match readBasicValue m b with
      | .error r => .error r
      | .ok (v, ri) => .ok (some v, Received.advance { m with rindex := ri } 1)

/-- `sd_bus_message_peek_type`: the type of what comes next, with the contents of a container;
`none` at the end of the container. -/
def sdBusMessagePeekType (m : Received) : Except Errno (Option (UInt8 × Option Str)) :=
  let c := m.last
  if messageEndOfSignature m || messageEndOfArray m then .ok none
  else if busTypeIsBasic c.cur then .ok (some (c.cur, none))
  else if c.cur = sdBusTypeArray then
    match signatureElementLength (c.rest.drop 1) with
    | none => .error .einval
    | some l => .ok (some (sdBusTypeArray, some ((c.rest.drop 1).take l)))
  else if c.cur = sdBusTypeStructBegin ∨ c.cur = sdBusTypeDictEntryBegin then
    match signatureElementLength c.rest with
    | none => .error .einval
    | some l =>
      .ok (some (if c.cur = sdBusTypeStructBegin then sdBusTypeStruct else sdBusTypeDictEntry,
        some ((c.rest.drop 1).take (l - 2))))
  else if c.cur = sdBusTypeVariant then
    match peekSignature m.body m.rindex with
    | .error r => .error r
    | .ok (s, _) => .ok (some (sdBusTypeVariant, some s))
  else .error .einval

/-- What entering a container finds: the size of an array, the new cursor and how far the index
of the container around it moves. -/
structure Entered where
  arraySize : Nat := 0
  rindex : Nat
  skip : Nat

def busMessageEnterArray (m : Received) (c : RContainer) (contents : Str) :
    Except Errno Entered :=
  if signatureIsSingle contents true = false then .error .einval
  else if c.cur ≠ sdBusTypeArray then .error .enxio
  else if contents.isPrefixOf (c.rest.drop 1) = false then .error .enxio
  else match peekUint32 m.endian m.body m.rindex with
    | .error r => .error r
    | .ok (size, ri) =>
      if busArrayMaxSize < size then .error .ebadmsg
      else match busTypeGetAlignment (charAt contents 0) with
        | none => .error .einval
        | some alignment =>
          match bufferPeek m.body ri alignment 0 with
          | .error r => .error r
          | .ok (_, ri) => .ok { arraySize := size, rindex := ri, skip := 1 + contents.length }

def busMessageEnterVariant (m : Received) (c : RContainer) (contents : Str) :
    Except Errno Entered :=
  if signatureIsSingle contents false = false then .error .einval
  else if charAt contents 0 = sdBusTypeDictEntryBegin then .error .einval
  else if c.cur ≠ sdBusTypeVariant then .error .enxio
  else match peekSignature m.body m.rindex with
    | .error r => .error r
    | .ok (s, ri) =>
      if s ≠ contents then .error .enxio else .ok { rindex := ri, skip := 1 }

def RContainer.hasMembers (c : RContainer) (first last : UInt8) (contents : Str) : Bool :=
  c.cur = first && contents.isPrefixOf (c.rest.drop 1) &&
    charAt (c.rest.drop 1) contents.length = last

def enterStructOrDictEntry (m : Received) (contents : Str) : Except Errno Entered :=
  match bufferPeek m.body m.rindex 8 0 with
  | .error r => .error r
  | .ok (_, ri) => .ok { rindex := ri, skip := 1 + contents.length + 1 }

def busMessageEnterStruct (m : Received) (c : RContainer) (contents : Str) :
    Except Errno Entered :=
  if signatureIsValid contents false = false then .error .einval
  else if c.hasMembers sdBusTypeStructBegin sdBusTypeStructEnd contents = false then
    .error .enxio
  else enterStructOrDictEntry m contents

def busMessageEnterDictEntry (m : Received) (c : RContainer) (contents : Str) :
    Except Errno Entered :=
  if signatureIsPair contents = false then .error .einval
  else if c.enclosing ≠ sdBusTypeArray then .error .enxio
  else if c.hasMembers sdBusTypeDictEntryBegin sdBusTypeDictEntryEnd contents = false then
    .error .enxio
  else enterStructOrDictEntry m contents

def enterByType (m : Received) (type : UInt8) (contents : Str) : Except Errno Entered :=
  if type = sdBusTypeArray then busMessageEnterArray m m.last contents
  else if type = sdBusTypeVariant then busMessageEnterVariant m m.last contents
  else if type = sdBusTypeStruct then busMessageEnterStruct m m.last contents
  else if type = sdBusTypeDictEntry then busMessageEnterDictEntry m m.last contents
  else .error .einval

def Received.enter (m : Received) (type : UInt8) (contents : Str) (x : Entered) : Received :=
  let m := Received.advance { m with rindex := x.rindex } x.skip
  { m with containers :=
      { enclosing := type, signature := some contents, begin := x.rindex,
        arraySize := x.arraySize } :: m.containers }

def sdBusMessageEnterContainer (m : Received) (type : UInt8) (contents : Str) :
    Except Errno (Bool × Received) :=
  if type = 0 then .error .einval
  else if busContainerDepth ≤ m.containers.length then .error .ebadmsg
  else if messageEndOfSignature m then .error .enxio
  else if messageEndOfArray m then .ok (false, m)
  else match enterByType m type contents with
    | .error r => .error r
    | .ok x => .ok (true, m.enter type contents x)

/-- `sd_bus_message_exit_container`: an array has to end where its length says, any other
container where its signature does. -/
def sdBusMessageExitContainer (m : Received) : Except Errno Received :=
  match m.containers with
  | [] => .error .enxio
  | c :: cs =>
    if c.enclosing ≠ sdBusTypeArray ∧ c.cur ≠ 0 then .error .ebusy
    else if c.enclosing = sdBusTypeArray ∧ c.begin + c.arraySize ≠ m.rindex then .error .ebusy
    else .ok { m with containers := cs }

def sdBusMessageRewind (m : Received) : Received :=
  { m with containers := [], rindex := 0, root := { m.root with index := 0 } }

/-- What a reader sees: values, and containers with the type and the contents they were entered
with. -/
inductive Item
  | basic (v : BasicVal)
  | container (type : UInt8) (contents : Str) (items : List Item)

inductive ReadItems : Received → List Item → Received → Prop
  | eof {m : Received} (h : sdBusMessagePeekType m = .ok none) : ReadItems m [] m
  | basic {m m₁ m₂ : Received} {type : UInt8} {v : BasicVal} {items : List Item}
      (hp : sdBusMessagePeekType m = .ok (some (type, none)))
      (hr : sdBusMessageReadBasic m type = .ok (some v, m₁))
      (h : ReadItems m₁ items m₂) : ReadItems m (.basic v :: items) m₂
  | container {m m₁ m₂ m₃ m₄ : Received} {type : UInt8} {contents : Str}
      {inner items : List Item}
      (hp : sdBusMessagePeekType m = .ok (some (type, some contents)))
      (he : sdBusMessageEnterContainer m type contents = .ok (true, m₁))
      (hi : ReadItems m₁ inner m₂) (hx : sdBusMessageExitContainer m₂ = .ok m₃)
      (h : ReadItems m₃ items m₄) : ReadItems m (.container type contents inner :: items) m₄

def BasicVal.resolve (fds : List Nat) : BasicVal → BasicVal
  | .unixFd i => .unixFd (fds.getD i 0)
  | v => v

mutual

/-- What reading a value yields, when the message came with the descriptors `fds`. -/
def Val.item (fds : List Nat) : Val → Item
  | .basic v => .basic (v.resolve fds)
  | .variant v => .container sdBusTypeVariant v.ty.sig [v.item fds]
  | .array t vs => .container sdBusTypeArray t.sig (Val.items fds vs)
  | .struct vs => .container sdBusTypeStruct (Ty.sigs (Val.tys vs)) (Val.items fds vs)
  | .dictEntry k v =>
    .container sdBusTypeDictEntry (k.type.code :: v.ty.sig) [.basic (k.resolve fds), v.item fds]

def Val.items (fds : List Nat) : List Val → List Item
  | [] => []
  | v :: vs => v.item fds :: Val.items fds vs

end

end Basu
