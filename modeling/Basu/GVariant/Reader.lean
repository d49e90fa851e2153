import Basu.GVariant.Parse
import Mathlib.Data.List.TakeWhile

/-! The read side of a message of version 2 (`bus-message.c`): containers are entered at the item
the cursor is at, and left for the item behind it. -/

namespace Basu.GVariant
open Lib

/-- The search of `sd_bus_message_peek_type` for the NUL in front of the signature of a variant. -/
def variantContents (m : Inbound) (itemSize : Nat) : Nat → Nat → Except Errno Str
  | 0, _ => .error .ebadmsg
  | fuel + 1, k =>
    if itemSize < k then .error .ebadmsg
    else match messagePeekBody m (m.rindex + itemSize - k) 1 k with
      | .error r => .error r
      | .ok (q, _) =>
        if charAt q 0 = 0 then .ok ((q.drop 1).takeWhile (· ≠ 0))
        else variantContents m itemSize fuel (k + 1)

/-- `sd_bus_message_peek_type`: the type of what comes next, with the contents of a container;
`none` at the end of the container. -/
def sdBusMessagePeekType (m : Inbound) : Except Errno (Option (UInt8 × Option Str)) :=
  let c := m.last
  if messageEndOfSignature m || messageEndOfArray m m.rindex then .ok none
  else if busTypeIsBasic c.cur then .ok (some (c.cur, none))
  else if c.cur = sdBusTypeArray then
    match signatureElementLength (c.rest.drop 1) with
    | none => .error .einval
    | some l => .ok (some (sdBusTypeArray, some ((c.rest.drop 1).take l)))
  else if c.cur = sdBusTypeStructBegin ∨ c.cur = sdBusTypeDictEntryBegin then
    match signatureElementLength c.rest with
    | none => .error .einval
    | some l =>
      .ok (some (if c.cur = sdBusTypeStructBegin then sdBusTypeStruct else sdBusTypeDictEntry,
        some ((c.rest.drop 1).take (l - 2))))
  else if c.cur = sdBusTypeVariant then
    if c.itemSize < 2 then .error .ebadmsg
    else match variantContents m c.itemSize (c.itemSize + 1) 2 with
      | .error r => .error r
      | .ok s =>
        if signatureIsValid s true = false then .error .ebadmsg
        else .ok (some (sdBusTypeVariant, some s))
  else .error .einval

/-- The offsets of an array of elements without a fixed size. Each has to be behind the padded end
of the element in front. -/
def arrayOffsets (rindex itemSize sz alignment : Nat) (table : Bytes) :
    Nat → Nat → Nat → Except Errno (List Nat)
  | 0, _, _ => .ok []
  | n + 1, i, previous =>
    let x := tableWord sz table i
    if itemSize - sz < x then .error .ebadmsg
    else if x < alignUp previous alignment then .error .ebadmsg
    else (arrayOffsets rindex itemSize sz alignment table n (i + 1) x).map ((rindex + x) :: ·)

def busMessageEnterArray (m : Inbound) (c : Container) (contents : Str) : Except Errno Entered :=
  if signatureIsSingle contents true = false then .error .einval
  else if c.cur ≠ sdBusTypeArray then .error .enxio
  else if contents.isPrefixOf (c.rest.drop 1) = false then .error .enxio
  else if c.itemSize = 0 then .ok { itemSize := 0, rindex := m.rindex }
  else if busGvariantIsFixedSize contents ≠ some false then
    .ok { itemSize := (busGvariantGetSize contents).getD 0, rindex := m.rindex }
  else
    let sz := wordSize c.itemSize
    match messagePeekBody m (m.rindex + c.itemSize - sz) 1 sz with
    | .error r => .error r
    | .ok (q, _) =>
      let framing := getWord .little q
      if c.itemSize - sz < framing then .error .ebadmsg
      else if (c.itemSize - framing) % sz ≠ 0 then .error .ebadmsg
      else
        let n := (c.itemSize - framing) / sz
        match messagePeekBody m (m.rindex + framing) 1 (n * sz) with
        | .error r => .error r
        | .ok (table, _) =>
          -- the alignment is that of all types of the container around the array
          (arrayOffsets m.rindex c.itemSize sz
            ((busGvariantGetAlignment (strempty c.signature)).getD 1) table n 0 0).map
            fun offsets =>
              { itemSize := offsets.headD 0 - m.rindex, offsets := offsets, rindex := m.rindex }

def busMessageEnterVariant (m : Inbound) (c : Container) (contents : Str) :
    Except Errno Entered :=
  let k := contents.length
  if signatureIsSingle contents false = false then .error .einval
  else if charAt contents 0 = sdBusTypeDictEntryBegin then .error .einval
  else if c.cur ≠ sdBusTypeVariant then .error .enxio
  else if c.itemSize < 1 + k then .error .ebadmsg
  else match messagePeekBody m (m.rindex + c.itemSize - (1 + k)) 1 (1 + k) with
    | .error r => .error r
    | .ok (q, _) =>
      if charAt q 0 ≠ 0 then .error .ebadmsg
      else if q.drop 1 ≠ contents then .error .enxio
      else .ok { itemSize := c.itemSize - (1 + k), rindex := m.rindex }

def Container.hasMembers (c : Container) (first last : UInt8) (contents : Str) : Bool :=
  c.cur = first && contents.isPrefixOf (c.rest.drop 1) &&
    charAt (c.rest.drop 1) contents.length = last

def busMessageEnterStruct (m : Inbound) (c : Container) (contents : Str) : Except Errno Entered :=
  if signatureIsValid contents false = false then .error .einval
  else if c.hasMembers sdBusTypeStructBegin sdBusTypeStructEnd contents = false then .error .enxio
  else buildStructOffsets m contents c.itemSize

def busMessageEnterDictEntry (m : Inbound) (c : Container) (contents : Str) :
    Except Errno Entered :=
  if signatureIsPair contents = false then .error .einval
  else if c.enclosing ≠ sdBusTypeArray then .error .enxio
  else if c.hasMembers sdBusTypeDictEntryBegin sdBusTypeDictEntryEnd contents = false then
    .error .enxio
  else buildStructOffsets m contents c.itemSize

def signatureSkip (type : UInt8) (contents : Str) : Nat :=
  if type = sdBusTypeArray then 1 + contents.length
  else if type = sdBusTypeVariant then 1
  else 1 + contents.length + 1

def enterByType (m : Inbound) (type : UInt8) (contents : Str) : Except Errno Entered :=
  if type = sdBusTypeArray then busMessageEnterArray m m.last contents
  else if type = sdBusTypeVariant then busMessageEnterVariant m m.last contents
  else if type = sdBusTypeStruct then busMessageEnterStruct m m.last contents
  else if type = sdBusTypeDictEntry then busMessageEnterDictEntry m m.last contents
  else .error .einval

def Inbound.newContainer (m : Inbound) (type : UInt8) (contents : Str) (x : Entered) : Container :=
  { enclosing := type
    signature := some contents
    before := m.rindex
    begin := x.rindex
    stop := if type = sdBusTypeStruct ∧ contents = [] then x.rindex else x.rindex + m.last.itemSize
    offsets := x.offsets
    itemSize := x.itemSize }

def Inbound.enter (m : Inbound) (type : UInt8) (contents : Str) (x : Entered) : Inbound :=
  let c := { m.last with savedIndex := m.last.index }
  let m' := m.setLast (c.advance (signatureSkip type contents))
  { m' with rindex := x.rindex, containers := m.newContainer type contents x :: m'.containers }

def resolveContainer (m : Inbound) (type : UInt8) (contents : Option Str) :
    Except Errno (UInt8 × Option Str) :=
  match contents with
  | some s => if type = 0 then .error .einval else .ok (type, some s)
  | none =>
    match sdBusMessagePeekType m with
    | .error r => .error r
    | .ok none => if type ≠ 0 then .error .enxio else .ok (0, none)
    | .ok (some (tt, cc)) => if type ≠ 0 ∧ type ≠ tt then .error .enxio else .ok (tt, cc)

def sdBusMessageEnterContainer (m : Inbound) (type : UInt8) (contents : Option Str) :
    Except Errno (Bool × Inbound) :=
  match resolveContainer m type contents with
  | .error r => .error r
  | .ok (type, contents) =>
    if busContainerDepth ≤ m.containers.length then .error .ebadmsg
    else if messageEndOfSignature m then .error .enxio
    else if messageEndOfArray m m.rindex then .ok (false, m)
    else match contents with
      -- a basic type comes next: the call copies a string that is not there
      | none => .error .einval
      | some s =>
        match enterByType m type s with
        | .error r => .error r
        | .ok x => .ok (true, m.enter type s x)

def Inbound.resume (m : Inbound) : Except Errno Inbound :=
  match containerNextItem { m.last with index := m.last.savedIndex } with
  | .error r => .error r
  | .ok (c, ri) => .ok { m.setLast { c with index := m.last.index } with rindex := ri }

def sdBusMessageExitContainer (m : Inbound) : Except Errno Inbound :=
  match m.containers with
  | [] => .error .enxio
  | c :: cs =>
    if c.enclosing ≠ sdBusTypeArray ∧ c.cur ≠ 0 then .error .ebusy
    else if m.rindex < c.stop then .error .ebusy
    else Inbound.resume { m with containers := cs }

inductive Call
  | enter (type : UInt8) (contents : Option CStr)
  | read (type : UInt8)
  | exit

def Call.exec (m : Inbound) : Call → Except Errno (Bool × Inbound)
  | .enter type contents => sdBusMessageEnterContainer m type (contents.map (·.1))
  | .read type => (sdBusMessageReadBasic m type).map fun (v, m) => (v.isSome, m)
  | .exit => (sdBusMessageExitContainer m).map fun m => (true, m)

structure Reader where
  message : Inbound
  made : List (Inbound × Call) := []

def Reader.call (R : Reader) (x : Call) : Except Errno (Bool × Reader) :=
  (x.exec R.message).map fun (b, m) => (b, { message := m, made := R.made ++ [(R.message, x)] })

theorem zero_notMem_takeWhile (s : Str) : (0 : UInt8) ∉ s.takeWhile (· ≠ 0) := by
  intro h
  have hne := List.mem_takeWhile_imp h
  exact (of_decide_eq_true hne) rfl

def cStr (s : Str) : CStr := ⟨s.takeWhile (· ≠ 0), zero_notMem_takeWhile s⟩

mutual

/-- `sd_bus_message_skip` of the types in a string. The first argument bounds the calls one inside
the other. -/
def sdBusMessageSkip : Nat → Reader → Str → Except Errno (Bool × Reader)
  | 0, _, _ => .error .einval
  | fuel + 1, R, types =>
    let t := charAt types 0
    if t = 0 then .ok (false, R)
    else if busTypeIsBasic t then
      match R.call (.read t) with
      | .error r => .error r
      | .ok (false, R) => .ok (false, R)
      | .ok (true, R) => (sdBusMessageSkip fuel R (types.drop 1)).map fun (_, R) => (true, R)
    else if t = sdBusTypeArray then
      match signatureElementLength (types.drop 1) with
      | none => .error .einval
      | some k =>
        let s := (types.drop 1).take k
        match R.call (.enter sdBusTypeArray (some (cStr s))) with
        | .error r => .error r
        | .ok (false, R) => .ok (false, R)
        | .ok (true, R) =>
          match skipElements fuel R s with
          | .error r => .error r
          | .ok R => skipBehind fuel R (types.drop (1 + k))
    else if t = sdBusTypeVariant then
      match sdBusMessagePeekType R.message with
      | .error r => .error r
      | .ok none => .ok (false, R)
      | .ok (some (x, contents)) =>
        if x ≠ sdBusTypeVariant then .error .enxio
        else
          let s := contents.getD []
          match R.call (.enter sdBusTypeVariant (some (cStr s))) with
          | .error r => .error r
          | .ok (false, R) => .ok (false, R)
          | .ok (true, R) =>
            match sdBusMessageSkip fuel R s with
            | .error r => .error r
            | .ok (_, R) => skipBehind fuel R (types.drop 1)
    else if opensMembers t then
      match signatureElementLength types with
      | none => .error .einval
      | some k =>
        let s := membersOf types k
        let type := if t = sdBusTypeStructBegin then sdBusTypeStruct else sdBusTypeDictEntry
        match R.call (.enter type (some (cStr s))) with
        | .error r => .error r
        | .ok (false, R) => .ok (false, R)
        | .ok (true, R) =>
          match sdBusMessageSkip fuel R s with
          | .error r => .error r
          | .ok (_, R) => skipBehind fuel R (types.drop k)
    else .error .einval

def skipElements : Nat → Reader → Str → Except Errno Reader
  | 0, _, _ => .error .einval
  | fuel + 1, R, s =>
    match sdBusMessageSkip fuel R s with
    | .error r => .error r
    | .ok (false, R) => .ok R
    | .ok (true, R) => skipElements fuel R s

def skipBehind : Nat → Reader → Str → Except Errno (Bool × Reader)
  | 0, _, _ => .error .einval
  | fuel + 1, R, types =>
    match R.call .exit with
    | .error r => .error r
    | .ok (_, R) => (sdBusMessageSkip fuel R types).map fun (_, R) => (true, R)

end

def sdBusMessageSkipOne (fuel : Nat) (R : Reader) : Except Errno (Bool × Reader) :=
  if messageEndOfSignature R.message then .error .enxio
  else if messageEndOfArray R.message R.message.rindex then .ok (false, R)
  else match signatureElementLength R.message.last.rest with
    | none => .error .einval
    | some l => sdBusMessageSkip fuel R (R.message.last.rest.take l)

inductive UserCall
  | call (x : Call)
  | skip (fuel : Nat) (types : Option CStr)

def UserCall.exec (R : Reader) : UserCall → Except Errno Reader
  | .call x => (R.call x).map (·.2)
  | .skip fuel none => (sdBusMessageSkipOne fuel R).map (·.2)
  | .skip fuel (some types) => (sdBusMessageSkip fuel R types.1).map (·.2)

def readerRun (R : Reader) : List UserCall → Except Errno Reader
  | [] => .ok R
  | x :: xs =>
    match x.exec R with
    | .error r => .error r
    | .ok R => readerRun R xs

end Basu.GVariant
