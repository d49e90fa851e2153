import Basu.GVariant.Type
import Basu.Socket.Size

/-! Received messages of either version (`bus-message.c`), with `size_t` of 64 bits. Version 2 is
marshalled as GVariant: the end of an item is known from the type of the item or from a table of
offsets at the end of its container. -/

namespace Basu.GVariant
open Lib

/-- `struct bus_container` as the read side of version 2 uses it. -/
structure Container where
  enclosing : UInt8 := 0
  signature : Option Str
  index : Nat := 0
  savedIndex : Nat := 0
  before : Nat := 0
  begin : Nat := 0
  stop : Nat := 0
  offsets : List Nat := []
  offsetIndex : Nat := 0
  itemSize : Nat := 0
  deriving DecidableEq, Repr

structure Inbound where
  version : UInt8
  endian : Endian
  header : Header
  fieldsSize : Nat
  bodySize : Nat
  userBodySize : Nat
  body : Bytes
  root : Container
  /-- From the innermost container out. -/
  containers : List Container := []
  rindex : Nat := 0
  fds : List Nat := []
  errorMessage : Option Str := none
  deriving DecidableEq, Repr

def Container.rest (c : Container) : Str := (strempty c.signature).drop c.index

def Container.cur (c : Container) : UInt8 := charAt c.rest 0

def Inbound.last (m : Inbound) : Container := m.containers.headD m.root

def Inbound.setLast (m : Inbound) (c : Container) : Inbound :=
  match m.containers with
  | [] => { m with root := c }
  | _ :: cs => { m with containers := c :: cs }

def Container.advance (c : Container) (n : Nat) : Container :=
  if c.enclosing = sdBusTypeArray then c else { c with index := c.index + n }

def messageEndOfSignature (m : Inbound) : Bool := m.last.cur = 0

def messageEndOfArray (m : Inbound) (index : Nat) : Bool :=
  m.last.enclosing = sdBusTypeArray && m.last.stop ≤ index

def messagePeekBody (m : Inbound) (rindex align nbytes : Nat) : Except Errno (Bytes × Nat) :=
  let start := alignUp rindex align
  let stop := start + nbytes
  if m.userBodySize < stop then .error .ebadmsg
  else if m.body.length < start then .error .ebadmsg
  else if (slice m.body rindex (start - rindex)).any (· ≠ 0) then .error .ebadmsg
  else if m.body.length < stop then .error .ebadmsg
  else .ok (slice m.body start nbytes, stop)

def tableWord (sz : Nat) (table : Bytes) (i : Nat) : Nat := getWord .little (slice table (i * sz) sz)

/-- The first loop of `build_struct_offsets`: an offset is stored for each member without a fixed
size, except the last one. -/
def countVariable : Nat → Str → Option Nat
  | 0, _ => none
  | fuel + 1, p =>
    if charAt p 0 = 0 then some 0
    else match signatureElementLength p with
      | none => none
      | some n =>
        match busGvariantIsFixedSize (p.take n) with
        | none => none
        | some fixed =>
          (countVariable fuel (p.drop n)).map fun k =>
            if !fixed && charAt p n ≠ 0 then k + 1 else k

/-- Where a member without a fixed size ends, relative to the structure, and how many offsets are
left then. The table is read from its end. -/
def variableEnd (size sz nVariable : Nat) (table : Bytes) (v : Nat) : Except Errno (Nat × Nat) :=
  if v = 0 then .ok (size - nVariable * sz, 0)
  else
    let x := tableWord sz table (v - 1)
    if size ≤ x then .error .ebadmsg else .ok (x, v - 1)

def memberOffsets (begin size sz nVariable : Nat) (table : Bytes) :
    Nat → Str → Nat → Nat → Except Errno (List Nat)
  | 0, _, _, _ => .error .einval
  | fuel + 1, p, v, previous =>
    if charAt p 0 = 0 then .ok []
    else match signatureElementLength p with
      | none => .error .einval
      | some n =>
        let start := alignUp previous ((busGvariantGetAlignment (p.take n)).getD 1)
        match busGvariantGetSize (p.take n) with
        | some k =>
          (memberOffsets begin size sz nVariable table fuel (p.drop n) v (start + k)).map
            ((start + k) :: ·)
        | none =>
          match variableEnd size sz nVariable table v with
          | .error r => .error r
          | .ok (x, v) =>
            if begin + x < start then .error .ebadmsg
            else (memberOffsets begin size sz nVariable table fuel (p.drop n) v (begin + x)).map
              ((begin + x) :: ·)

/-- What a container is entered with: the size of its first item, the ends of its items, and where
the message is read on. -/
structure Entered where
  itemSize : Nat
  offsets : List Nat := []
  rindex : Nat
  deriving DecidableEq, Repr

def buildStructOffsets (m : Inbound) (signature : Str) (size : Nat) : Except Errno Entered :=
  if signature = [] then
    match messagePeekBody m m.rindex 1 1 with
    | .error r => .error r
    | .ok (q, ri) => if charAt q 0 ≠ 0 then .error .ebadmsg else .ok { itemSize := 0, rindex := ri }
  else
    let sz := wordSize size
    match countVariable (signature.length + 1) signature with
    | none => .error .einval
    | some nVariable =>
      if size < nVariable * sz then .error .ebadmsg
      else match messagePeekBody m (m.rindex + size - nVariable * sz) 1 (nVariable * sz) with
        | .error r => .error r
        | .ok (table, _) =>
          (memberOffsets m.rindex size sz nVariable table (signature.length + 1) signature nVariable
            m.rindex).map fun offsets =>
            { itemSize := offsets.headD 0 - m.rindex, offsets := offsets, rindex := m.rindex }

def Container.atEnd (c : Container) : Container × Nat := ({ c with itemSize := 0 }, c.stop)

def Container.toNext (c : Container) (alignment : Nat) : Container × Nat :=
  let start := alignUp (c.offsets.getD c.offsetIndex 0) alignment
  ({ c with
    itemSize := c.offsets.getD (c.offsetIndex + 1) 0 - start
    offsetIndex := c.offsetIndex + 1 }, start)

def containerNextItem (c : Container) : Except Errno (Container × Nat) :=
  let signature := strempty c.signature
  if c.enclosing = sdBusTypeArray then
    match busGvariantGetSize signature with
    | none =>
      if c.offsets.length ≤ c.offsetIndex + 1 then .ok c.atEnd
      else .ok (c.toNext ((busGvariantGetAlignment signature).getD 1))
    | some sz =>
      if (c.stop - c.begin) / sz ≤ c.offsetIndex + 1 then .ok c.atEnd
      else .ok ({ c with itemSize := sz, offsetIndex := c.offsetIndex + 1 },
        c.begin + (c.offsetIndex + 1) * sz)
  else if c.enclosing = sdBusTypeVariant then .ok c.atEnd
  else if c.offsets.length ≤ c.offsetIndex + 1 then .ok c.atEnd
  else match signatureElementLength c.rest with
    | none => .error .einval
    | some n =>
      match signatureElementLength (c.rest.drop n) with
      | none => .error .einval
      | some j =>
        .ok (c.toNext ((busGvariantGetAlignment ((c.rest.drop n).take j)).getD 1))

theorem containerNextItem_kept {c c' : Container} {ri : Nat}
    (h : containerNextItem c = .ok (c', ri)) :
    c' = { c with itemSize := c'.itemSize, offsetIndex := c'.offsetIndex } := by
  unfold containerNextItem at h
  dsimp only at h
  split at h
  · split at h <;> split at h <;> cases h <;> rfl
  split at h
  · cases h
    rfl
  split at h
  · cases h
    rfl
  split at h
  · cases h
  split at h
  · cases h
  cases h
  rfl

/-- A text of `l` characters with its NUL. -/
def validateText (validate : Str → Bool) (q : Bytes) (l : Nat) : Bool :=
  validateNul q l && validate (q.take l)

def readText (m : Inbound) (itemSize : Nat) (validate : Str → Bool) (value : Str → BasicVal) :
    Except Errno (BasicVal × Nat) :=
  if itemSize = 0 then .error .ebadmsg
  else match messagePeekBody m m.rindex 1 itemSize with
    | .error r => .error r
    | .ok (q, ri) =>
      if validateText validate q (itemSize - 1) then .ok (value (q.take (itemSize - 1)), ri)
      else .error .ebadmsg

def readWord (m : Inbound) (itemSize : Nat) (b : Basic) (value : Bytes → Except Errno BasicVal) :
    Except Errno (BasicVal × Nat) :=
  if busGvariantGetSize [b.code] ≠ some itemSize then .error .ebadmsg
  else match messagePeekBody m m.rindex ((busGvariantGetAlignment [b.code]).getD 1) itemSize with
    | .error r => .error r
    | .ok (q, ri) => (value q).map fun v => (v, ri)

def readBasicValue (m : Inbound) (itemSize : Nat) : Basic → Except Errno (BasicVal × Nat)
  | .string => readText m itemSize utf8IsValid .string
  | .objectPath => readText m itemSize objectPathIsValid .objectPath
  | .signature => readText m itemSize validSignature .signature
  | .boolean => readWord m itemSize .boolean fun q => .ok (.boolean (charAt q 0 ≠ 0))
  | .num t => readWord m itemSize (.num t) fun q =>
    .ok (.num t (BitVec.ofNat _ (getWord m.endian q)))
  | .unixFd => readWord m itemSize .unixFd fun q =>
    match m.fds[getWord m.endian q]? with
    | none => .error .ebadmsg
    | some fd => .ok (.unixFd fd)

def sdBusMessageReadBasic (m : Inbound) (type : UInt8) :
    Except Errno (Option BasicVal × Inbound) :=
  match Basic.ofCode type with
  | none => .error .einval
  | some b =>
    if messageEndOfSignature m then .error .enxio
    else if messageEndOfArray m m.rindex then .ok (none, m)
    else if m.last.cur ≠ type then .error .enxio
    else match readBasicValue m m.last.itemSize b with
      | .error r => .error r
      | .ok (v, _) =>
        match containerNextItem m.last with
        | .error r => .error r
        | .ok (c, ri) => .ok (some v, { m.setLast (c.advance 1) with rindex := ri })

structure SameMessage (m m' : Inbound) : Prop where
  version : m'.version = m.version
  header : m'.header = m.header
  fieldsSize : m'.fieldsSize = m.fieldsSize
  bodySize : m'.bodySize = m.bodySize
  userBodySize : m'.userBodySize = m.userBodySize
  body : m'.body = m.body
  signature : m'.root.signature = m.root.signature

theorem SameMessage.refl (m : Inbound) : SameMessage m m := ⟨rfl, rfl, rfl, rfl, rfl, rfl, rfl⟩

theorem sameMessage_setLast {m : Inbound} {c : Container} (h : c.signature = m.last.signature) :
    SameMessage m (m.setLast c) := by
  unfold Inbound.setLast
  cases hc : m.containers with
  | nil =>
    refine ⟨rfl, rfl, rfl, rfl, rfl, rfl, ?_⟩
    dsimp only
    rw [h, Inbound.last, hc]
    rfl
  | cons d cs => exact ⟨rfl, rfl, rfl, rfl, rfl, rfl, rfl⟩

theorem advance_signature (c : Container) (n : Nat) : (c.advance n).signature = c.signature := by
  unfold Container.advance
  split_ifs <;> rfl

theorem sdBusMessageReadBasic_same {m m' : Inbound} {type : UInt8} {v : Option BasicVal}
    (h : sdBusMessageReadBasic m type = .ok (v, m')) : SameMessage m m' := by
  unfold sdBusMessageReadBasic at h
  split at h
  · cases h
  split_ifs at h
  · cases h
    exact .refl m
  · split at h
    · cases h
    split at h
    · cases h
    rename_i hc
    cases h
    have hkept := congrArg Container.signature (containerNextItem_kept hc)
    exact { sameMessage_setLast ((advance_signature _ 1).trans hkept) with }

end Basu.GVariant
