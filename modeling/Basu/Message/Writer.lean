import Basu.Value

/-! The append side of a dbus1 message (`bus-message.c`): a body in parts, a stack of open
containers, and for an open array a saved pointer to its length word, here the index of a part and
an offset into it. A function that fails returns the message as it leaves it behind. -/

namespace Basu
open Lib

def CStr := { s : Str // (0 : UInt8) ∉ s }

/-- `struct bus_body_part`, without the bookkeeping of its storage. -/
structure Part where
  data : Bytes
  sealed : Bool := false
  isZero : Bool := false
  deriving DecidableEq, Repr

structure Container where
  enclosing : UInt8 := 0
  signature : Option Str := none
  index : Nat := 0
  arraySize : Option (Nat × Nat) := none
  deriving DecidableEq, Repr

structure Header where
  type : UInt8
  flags : UInt8 := 0
  /-- The header fields that follow the fixed part of the header. -/
  fields : Bytes := []
  path : Option Str := none
  interface : Option Str := none
  member : Option Str := none
  destination : Option Str := none
  sender : Option Str := none
  errorName : Option Str := none
  replyCookie : Nat := 0
  serial : Nat := 0
  deriving DecidableEq, Repr

structure Message where
  endian : Endian
  header : Header
  enforcedReplySignature : Option Str := none
  allowFds : Bool := true
  sealed : Bool := false
  poisoned : Bool := false
  parts : List Part := []
  bodySize : Nat := 0
  root : Container := {}
  /-- From the innermost container out. -/
  containers : List Container := []
  fds : List Nat := []
  deriving DecidableEq, Repr

def strempty (s : Option Str) : Str := s.getD []

/-- `c->signature && c->signature[c->index]`, as the character found or NUL. -/
def Container.cur (c : Container) : UInt8 := charAt (strempty c.signature) c.index

def messageGetLastContainer (m : Message) : Container := m.containers.headD m.root

def Message.setLastContainer (m : Message) (c : Container) : Message :=
  match m.containers with
  | [] => { m with root := c }
  | _ :: cs => { m with containers := c :: cs }

def Message.strextendSignature (m : Message) (s : Str) : Message :=
  let c := messageGetLastContainer m
  m.setLastContainer { c with signature := some (strempty c.signature ++ s) }

def Message.setIndex (m : Message) (i : Nat) : Message :=
  m.setLastContainer { messageGetLastContainer m with index := i }

def memfdMinSize : Nat := 512 * 1024


def partZero (sz : Nat) : Part := { data := zeros sz, sealed := true, isZero := true }

/-- The parts of the body after `padding` zero bytes and `fill` were added, and the place of `fill`.
-/
def growParts (parts : List Part) (align padding : Nat) (fill : Bytes) (forceInline : Bool) :
    List Part × (Nat × Nat) :=
  match parts.getLast? with
  | none => addNew
  | some last =>
    if last.sealed || decide (padding ≠ padTo last.data.length align) ||
        (forceInline && decide (memfdMinSize < last.data.length)) then addNew
    else
      (parts.dropLast ++ [{ last with data := last.data ++ (zeros padding ++ fill) }],
        (parts.length - 1, last.data.length + padding))
where
  addNew : List Part × (Nat × Nat) :=
    let ps := if 0 < padding then parts ++ [partZero padding] else parts
    (ps ++ [{ data := fill }], (ps.length, 0))

def addArraySize (e : Endian) (expand : Nat) (c : Container) (parts : List Part) : List Part :=
  match c.arraySize with
  | none => parts
  | some (i, off) =>
    parts.modify i fun part => { part with data := addWord e 4 expand part.data off }

def messageExtendContainers (m : Message) (expand : Nat) : Message :=
  if expand = 0 then m
  else { m with parts := m.containers.foldr (addArraySize m.endian expand) m.parts }

/-- `message_extend_body` with `add_offset` unset, as dbus1 calls it, together with the copy of
`fill` into the space it returns. -/
def messageExtendBody (m : Message) (align : Nat) (fill : Bytes) (forceInline : Bool) :
    Option (Nat × Nat) × Message :=
  if m.poisoned then (none, m)
  else
    let startBody := alignUp m.bodySize align
    let endBody := startBody + fill.length
    let padding := startBody - m.bodySize
    let added := padding + fill.length
    if uint32Max < endBody then (none, { m with poisoned := true })
    else if 0 < added then
      let (parts, loc) := growParts m.parts align padding fill forceInline
      (some loc, messageExtendContainers { m with parts := parts, bodySize := endBody } added)
    else (some (0, 0), { m with bodySize := endBody })

/-- The second argument of `append_basic`, read as its type code asks. The duplicate of a file
descriptor is what `fcntl` answers. -/
inductive BasicArg
  | num (t : Num) (x : BitVec (8 * t.size))
  | boolean (p : Option Int)
  | string (p : Option CStr)
  | objectPath (p : Option CStr)
  | signature (p : Option CStr)
  | unixFd (p : Option Int) (dup : Except Errno Nat)
  /-- A type code that is not basic; the pointer is never looked at. -/
  | other (type : UInt8) (h : busTypeIsBasic type = false)

def BasicArg.type : BasicArg → UInt8
  | .num t _ => t.code
  | .boolean _ => sdBusTypeBoolean
  | .string _ => sdBusTypeString
  | .objectPath _ => sdBusTypeObjectPath
  | .signature _ => sdBusTypeSignature
  | .unixFd _ _ => sdBusTypeUnixFd
  | .other c _ => c

def messagePushFd (m : Message) (fd : Int) (dup : Except Errno Nat) : Except Errno Nat :=
  if fd < 0 then .error .einval
  else if m.allowFds = false then .error .eopnotsupp
  else dup

def strBytesOf (e : Endian) (p : Option CStr) : Bytes := strBytes e (strempty (p.map (·.1)))

/-- The alignment and the bytes of an argument, the checks on it included, and the descriptor
it adds to the message. -/
def argBytes (m : Message) : BasicArg → Except Errno (Nat × Bytes × List Nat)
  | .num t x => .ok (t.size, putWord m.endian t.size x.toNat, [])
  | .boolean p => .ok (4, putWord m.endian 4 (if p.getD 0 = 0 then 0 else 1), [])
  | .string p => .ok (4, strBytesOf m.endian p, [])
  | .objectPath none => .error .einval
  | .objectPath (some s) => .ok (4, strBytesOf m.endian (some s), [])
  | .signature p => .ok (1, sigBytes (strempty (p.map (·.1))), [])
  | .unixFd none _ => .error .einval
  | .unixFd (some fd) dup =>
    (messagePushFd m fd dup).map fun copy => (4, putWord m.endian 4 m.fds.length, [copy])
  | .other _ _ => .error .einval

def appendBasicValue (m : Message) (p : BasicArg) : Except Errno Unit × Message :=
  match argBytes m p with
  | .error r => (.error r, m)
  | .ok (align, bytes, fds) =>
    match messageExtendBody m align bytes false with
    | (none, m) => (.error .enomem, m)
    | (some _, m) =>
      let c := messageGetLastContainer m
      let m := { m with fds := m.fds ++ fds }
      (.ok (), if c.enclosing = sdBusTypeArray then m else m.setIndex (c.index + 1))

def messageAppendBasic (m : Message) (p : BasicArg) : Except Errno Unit × Message :=
  let c := messageGetLastContainer m
  if m.sealed then (.error .eperm, m)
  else if busTypeIsBasic p.type = false then (.error .einval, m)
  else if m.poisoned then (.error .estale, m)
  else if c.cur ≠ 0 then
    if c.cur ≠ p.type then (.error .enxio, m) else appendBasicValue m p
  -- only the signature of the top-level container may grow
  else if c.enclosing ≠ 0 then (.error .enxio, m)
  else appendBasicValue (m.strextendSignature [p.type]) p

def Container.hasContents (c : Container) (contents : Str) : Bool :=
  contents.isPrefixOf ((strempty c.signature).drop (c.index + 1))

def Message.advance (m : Message) (c : Container) (nindex : Nat) : Message :=
  if c.enclosing = sdBusTypeArray then m else m.setIndex nindex

/-- The rest of every `bus_message_open_*` once its bytes are written. -/
def finishOpen (c : Container) (nindex : Nat) :
    Except Errno (Option (Nat × Nat)) × Message → Except Errno (Option (Nat × Nat)) × Message
  | (.error r, m) => (.error r, m)
  | (.ok a, m) => (.ok a, m.advance c nindex)

/-- The dbus1 branch of `bus_message_open_array`: the length word, then the padding before the
first element, which does not count. -/
def openArrayBody (m : Message) (contents : Str) :
    Except Errno (Option (Nat × Nat)) × Message :=
  match busTypeGetAlignment (charAt contents 0) with
  | none => (.error .einval, m)
  | some alignment =>
    match messageExtendBody m 4 (putWord m.endian 4 0) false with
    | (none, m) => (.error .enomem, m)
    | (some a, m) =>
      match messageExtendBody m alignment [] false with
      | (none, m) => (.error .enomem, m)
      | (some _, m) => (.ok (some a), m)

def busMessageOpenArray (m : Message) (c : Container) (contents : Str) :
    Except Errno (Option (Nat × Nat)) × Message :=
  if signatureIsSingle contents true = false then (.error .einval, m)
  else if c.cur ≠ 0 then
    if c.cur ≠ sdBusTypeArray then (.error .enxio, m)
    else if c.hasContents contents = false then (.error .enxio, m)
    else finishOpen c (c.index + 1 + contents.length) (openArrayBody m contents)
  else if c.enclosing ≠ 0 then (.error .enxio, m)
  else
    let m := m.strextendSignature (sdBusTypeArray :: contents)
    let nindex := (strempty (messageGetLastContainer m).signature).length
    finishOpen c nindex (openArrayBody m contents)

def openBody (m : Message) (align : Nat) (fill : Bytes) :
    Except Errno (Option (Nat × Nat)) × Message :=
  match messageExtendBody m align fill false with
  | (none, m) => (.error .enomem, m)
  | (some _, m) => (.ok none, m)

def busMessageOpenVariant (m : Message) (c : Container) (contents : Str) :
    Except Errno (Option (Nat × Nat)) × Message :=
  if signatureIsSingle contents false = false then (.error .einval, m)
  else if charAt contents 0 = sdBusTypeDictEntryBegin then (.error .einval, m)
  else if c.cur ≠ 0 then
    if c.cur ≠ sdBusTypeVariant then (.error .enxio, m)
    else finishOpen c (c.index + 1) (openBody m 1 (sigBytes contents))
  else if c.enclosing ≠ 0 then (.error .enxio, m)
  else
    let m := m.strextendSignature [sdBusTypeVariant]
    finishOpen c (c.index + 1) (openBody m 1 (sigBytes contents))

def Container.hasMembers (c : Container) (first last : UInt8) (contents : Str) : Bool :=
  c.cur = first && c.hasContents contents &&
    charAt (strempty c.signature) (c.index + 1 + contents.length) = last

def busMessageOpenStruct (m : Message) (c : Container) (contents : Str) :
    Except Errno (Option (Nat × Nat)) × Message :=
  if signatureIsValid contents false = false then (.error .einval, m)
  else if c.cur ≠ 0 then
    if c.hasMembers sdBusTypeStructBegin sdBusTypeStructEnd contents = false then
      (.error .enxio, m)
    else finishOpen c (c.index + 1 + contents.length + 1) (openBody m 8 [])
  else if c.enclosing ≠ 0 then (.error .enxio, m)
  else
    let m := m.strextendSignature (sdBusTypeStructBegin :: (contents ++ [sdBusTypeStructEnd]))
    let nindex := (strempty (messageGetLastContainer m).signature).length
    finishOpen c nindex (openBody m 8 [])

def busMessageOpenDictEntry (m : Message) (c : Container) (contents : Str) :
    Except Errno (Option (Nat × Nat)) × Message :=
  if signatureIsPair contents = false then (.error .einval, m)
  else if c.enclosing ≠ sdBusTypeArray then (.error .enxio, m)
  else if c.cur ≠ 0 then
    if c.hasMembers sdBusTypeDictEntryBegin sdBusTypeDictEntryEnd contents = false then
      (.error .enxio, m)
    else openBody m 8 []
  else (.error .enxio, m)

def openByType (m : Message) (type : UInt8) (contents : Str) :
    Except Errno (Option (Nat × Nat)) × Message :=
  let c := messageGetLastContainer m
  if type = sdBusTypeArray then busMessageOpenArray m c contents
  else if type = sdBusTypeVariant then busMessageOpenVariant m c contents
  else if type = sdBusTypeStruct then busMessageOpenStruct m c contents
  else if type = sdBusTypeDictEntry then busMessageOpenDictEntry m c contents
  else (.error .einval, m)

def sdBusMessageOpenContainer (m : Message) (type : UInt8) (contents : Str) :
    Except Errno Unit × Message :=
  if m.sealed then (.error .eperm, m)
  else if m.poisoned then (.error .estale, m)
  else
    match openByType m type contents with
    | (.error e, m) => (.error e, m)
    | (.ok arraySize, m) =>
      (.ok (), { m with
        containers :=
          { enclosing := type, signature := some contents, arraySize := arraySize } ::
            m.containers })

def sdBusMessageCloseContainer (m : Message) : Except Errno Unit × Message :=
  if m.sealed then (.error .eperm, m)
  else match m.containers with
    | [] => (.error .einval, m)
    | c :: cs =>
      if m.poisoned then (.error .estale, m)
      else if c.enclosing ≠ sdBusTypeArray ∧ c.cur ≠ 0 then (.error .einval, m)
      else (.ok (), { m with containers := cs })

inductive Op
  | appendBasic (p : BasicArg)
  | openContainer (type : UInt8) (contents : CStr)
  | closeContainer

def Op.exec (m : Message) : Op → Except Errno Unit × Message
  | .appendBasic p => messageAppendBasic m p
  | .openContainer type contents => sdBusMessageOpenContainer m type contents.1
  | .closeContainer => sdBusMessageCloseContainer m

def Op.sigsFit : Op → Bool
  | .appendBasic (.signature p) => sigFits (strempty (p.map (·.1)))
  | .openContainer type contents => type ≠ sdBusTypeVariant || sigFits contents.1
  | _ => true

inductive Runs : Message → List Op → Message → Prop
  | nil (m : Message) : Runs m [] m
  | cons {m m₁ m₂ : Message} {op : Op} {ops : List Op}
      (h : op.exec m = (.ok (), m₁)) (hs : Runs m₁ ops m₂) : Runs m (op :: ops) m₂

def runAll (m : Message) : List Op → Option Message
  | [] => some m
  | op :: ops =>
    match op.exec m with
    | (.ok (), m) => runAll m ops
    | (.error _, _) => none

theorem runs_of_runAll {m m' : Message} {ops : List Op} (h : runAll m ops = some m') :
    Runs m ops m' := by
  induction ops generalizing m with
  | nil =>
    simp only [runAll, Option.some.injEq] at h
    exact h ▸ .nil m
  | cons op ops ih =>
    simp only [runAll] at h
    split at h
    · rename_i m₁ hexec
      exact .cons hexec (ih h)
    · exact absurd h (by simp)

theorem exists_runs {m : Message} {ops : List Op} (h : (runAll m ops).isSome = true) :
    ∃ m', Runs m ops m' := by
  obtain ⟨m', hm'⟩ := Option.isSome_iff_exists.mp h
  exact ⟨m', runs_of_runAll hm'⟩

def Message.body (m : Message) : Bytes := (m.parts.map (·.data)).flatten

end Basu
