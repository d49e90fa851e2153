import Basu.Signature
import Basu.Names
import Basu.Lib.Table
import Mathlib.Logic.Function.Basic

/-! The object tree of a bus (`bus-objects.c`, `bus-slot.c`): a node for each path something is
attached to and for each prefix of such a path, and the table of the methods and properties that
the attached vtables declare. Nodes and slots are numbered as they are allocated. -/

namespace Basu
open Lib
open Function

def sdBusVtableHidden : UInt64 := 0x02
def sdBusVtableUnprivileged : UInt64 := 0x04
def sdBusVtableMethodNoReply : UInt64 := 0x08
def sdBusVtablePropertyConst : UInt64 := 0x10
def sdBusVtablePropertyEmitsChange : UInt64 := 0x20
def sdBusVtablePropertyEmitsInvalidation : UInt64 := 0x40
def sdBusVtablePropertyExplicit : UInt64 := 0x80

def hasFlag (flags mask : UInt64) : Bool := flags &&& mask ≠ 0

/-- One entry behind the start of a vtable; functions are known by number. A string that may be
NULL is empty here, as `strempty` and `isempty` take it. -/
inductive VtableEntry
  | method (flags : UInt64) (member signature result : Str) (handler : Option Nat)
  | signal (flags : UInt64) (member signature : Str)
  | property (writable : Bool) (flags : UInt64) (member signature : Str) (get set : Option Nat)
  | other
  deriving DecidableEq, Repr

inductive MemberKind
  | method
  | property
  deriving DecidableEq, Repr

def VtableEntry.kind : VtableEntry → Option MemberKind
  | .method .. => some .method
  | .property .. => some .property
  | _ => none

def VtableEntry.member : VtableEntry → Str
  | .method _ member .. => member
  | .signal _ member _ => member
  | .property _ _ member .. => member
  | .other => []

def VtableEntry.flags : VtableEntry → UInt64
  | .method flags .. => flags
  | .signal flags .. => flags
  | .property _ flags .. => flags
  | .other => 0

def VtableEntry.isValid : VtableEntry → Bool
  | .method flags member signature result handler =>
    memberNameIsValid member && signatureIsValid signature false &&
      signatureIsValid result false &&
      (handler.isSome || (signature.isEmpty && result.isEmpty)) &&
      !hasFlag flags (sdBusVtablePropertyConst ||| sdBusVtablePropertyEmitsChange |||
        sdBusVtablePropertyEmitsInvalidation)
  | .signal flags member signature =>
    memberNameIsValid member && signatureIsValid signature false &&
      !hasFlag flags sdBusVtableUnprivileged
  | .property writable flags member signature get set =>
    (!writable || ((set.isSome || busTypeIsBasic (charAt signature 0)) &&
      !hasFlag flags sdBusVtablePropertyConst)) &&
    memberNameIsValid member && signatureIsSingle signature false &&
      (get.isSome || busTypeIsBasic (charAt signature 0) || signature = [97, 115]) &&
      !hasFlag flags sdBusVtableMethodNoReply &&
      !(1 < (hasFlag flags sdBusVtablePropertyConst).toNat +
        (hasFlag flags sdBusVtablePropertyEmitsChange).toNat +
        (hasFlag flags sdBusVtablePropertyEmitsInvalidation).toNat) &&
      !(hasFlag flags sdBusVtablePropertyEmitsChange &&
        hasFlag flags sdBusVtablePropertyExplicit) &&
      !(hasFlag flags sdBusVtableUnprivileged && !writable)
  | .other => false

/-- An array of `sd_bus_vtable`: where it is, whether it begins with a start entry of the right
size, the flags of that entry, and the entries up to the end. -/
structure Vtable where
  address : Nat := 0
  hasStart : Bool := true
  flags : UInt64 := 0
  entries : List VtableEntry := []
  deriving DecidableEq, Repr

inductive NodeSlotType
  | callback
  | enumerator
  | objectManager
  | vtable
  deriving DecidableEq, Repr

/-- `attached` is the four lists `callbacks`, `enumerators`, `object_managers` and `vtables`. A node
is live until it is freed. -/
structure ObjNode where
  live : Bool := false
  path : Str := []
  parent : Option Nat := none
  child : List Nat := []
  attached : NodeSlotType → List Nat := fun _ => []

def ObjNode.setAttached (x : ObjNode) (t : NodeSlotType) (l : List Nat) : ObjNode :=
  { x with attached := update x.attached t l }

/-- A slot of the object tree; it is connected as long as `slot->bus` is set. The interface is
empty when there is none. `path` is what the slot was registered for; no code reads it. -/
structure ObjSlot where
  path : Str := []
  connected : Bool := false
  type : NodeSlotType := .callback
  node : Option Nat := none
  isFallback : Bool := false
  callback : Nat := 0
  interface : Str := []
  vtable : Vtable := {}
  find : Option Nat := none
  lastIteration : Nat := 0

structure VtableMember where
  path : Str
  interface : Str
  member : Str
  parent : Nat
  entry : VtableEntry
  lastIteration : Nat := 0
  deriving DecidableEq, Repr

def VtableMember.key (m : VtableMember) : Str × Str × Str := (m.path, m.interface, m.member)

structure ObjBus where
  node : Nat → ObjNode := fun _ => {}
  nNodes : Nat := 0
  nodes : List (Str × Nat) := []
  slot : Nat → ObjSlot := fun _ => {}
  nSlots : Nat := 0
  members : MemberKind → List VtableMember := fun _ => []
  nodesModified : Bool := false

def ObjBus.vtables (b : ObjBus) (n : Nat) : List Nat := (b.node n).attached .vtable

def ObjBus.getNode (b : ObjBus) (path : Str) : Option Nat :=
  (Table.get Prod.fst b.nodes path).map Prod.snd

def ObjBus.setNode (b : ObjBus) (n : Nat) (x : ObjNode) : ObjBus :=
  { b with node := update b.node n x }

def ObjBus.setSlot (b : ObjBus) (s : Nat) (x : ObjSlot) : ObjBus :=
  { b with slot := update b.slot s x }

def ObjBus.setMembers (b : ObjBus) (k : MemberKind) (t : List VtableMember) : ObjBus :=
  { b with members := update b.members k t }

def lastSlash (p : Str) : Nat := p.length - 1 - p.reverse.findIdx (fun c => c = charSlash)

def rootPath : Str := [charSlash]

def parentPath (p : Str) : Str := p.take (max 1 (lastSlash p))

def pathPrefixes : Nat → Str → List Str
  | 0, _ => []
  | fuel + 1, p => if p = rootPath then [] else parentPath p :: pathPrefixes fuel (parentPath p)

def objectPathPrefixes (p : Str) : List Str := pathPrefixes p.length p

example : objectPathPrefixes [47, 97, 47, 98, 99, 47, 100] =
    [[47, 97, 47, 98, 99], [47, 97], [47]] := by
  decide

def ObjBus.newNode (b : ObjBus) (path : Str) (parent : Option Nat) : ObjBus × Nat :=
  let n := b.nNodes
  let b := { b with nNodes := n + 1, nodes := (path, n) :: b.nodes }
  let b := b.setNode n { live := true, path := path, parent := parent }
  match parent with
  | none => (b, n)
  | some q => (b.setNode q { b.node q with child := n :: (b.node q).child }, n)

/-- `bus_node_allocate`; the path gets shorter each time, so the fuel is its length. -/
def busNodeAllocate : Nat → ObjBus → Str → ObjBus × Nat
  | 0, b, _ => (b, 0)
  | fuel + 1, b, path =>
    match b.getNode path with
    | some n => (b, n)
    | none =>
      if path = rootPath then b.newNode path none
      else
        let r := busNodeAllocate fuel b (parentPath path)
        r.1.newNode path (some r.2)

def ObjNode.isBare (x : ObjNode) : Bool :=
  x.child.isEmpty && (x.attached .callback).isEmpty && (x.attached .vtable).isEmpty &&
    (x.attached .enumerator).isEmpty && (x.attached .objectManager).isEmpty

def ObjBus.dropNode (b : ObjBus) (n : Nat) : ObjBus :=
  let x := b.node n
  let b := { b with nodes := Table.remove Prod.fst b.nodes x.path }
  let b := b.setNode n { x with live := false }
  match x.parent with
  | none => b
  | some q => b.setNode q { b.node q with child := (b.node q).child.erase n }

/-- `bus_node_gc`; the fuel is the length of the node's path. -/
def busNodeGc : Nat → ObjBus → Nat → ObjBus
  | 0, b, _ => b
  | fuel + 1, b, n =>
    if (b.node n).isBare then
      match (b.node n).parent with
      | none => b.dropNode n
      | some q => busNodeGc fuel (b.dropNode n) q
    else b

def ObjBus.gc (b : ObjBus) (n : Nat) : ObjBus := busNodeGc (b.node n).path.length b n

def ObjBus.slotAllocate (b : ObjBus) (x : ObjSlot) : ObjBus :=
  { b with nSlots := b.nSlots + 1 }.setSlot b.nSlots { x with connected := true }

/-- `LIST_PREPEND` and `LIST_INSERT_AFTER`: behind the given item, in front without one. -/
def listInsertAfter (a : Option Nat) (x : Nat) : List Nat → List Nat
  | [] => [x]
  | y :: l =>
    match a with
    | none => x :: y :: l
    | some z => if y = z then y :: x :: l else y :: listInsertAfter a x l

def ObjBus.attach (b : ObjBus) (n s : Nat) (after : Option Nat) : ObjBus :=
  let x := b.node n
  let t := (b.slot s).type
  let b := b.setSlot s { b.slot s with node := some n }
  let b := b.setNode n (x.setAttached t (listInsertAfter after s (x.attached t)))
  { b with nodesModified := true }

def ObjBus.removeMember (b : ObjBus) (path interface : Str) (e : VtableEntry) : ObjBus :=
  match e.kind with
  | none => b
  | some k => b.setMembers k (Table.remove VtableMember.key (b.members k)
      (path, interface, e.member))

def ObjBus.removeMembers (b : ObjBus) (path interface : Str) (es : List VtableEntry) : ObjBus :=
  es.foldl (fun b e => b.removeMember path interface e) b

def ObjBus.detach (b : ObjBus) (n s : Nat) : ObjBus :=
  let x := b.node n
  let t := (b.slot s).type
  let b := b.setNode n (x.setAttached t ((x.attached t).erase s))
  let b := b.setSlot s { b.slot s with connected := false, interface := [] }
  { b with nodesModified := true }

def ObjBus.slotDisconnect (b : ObjBus) (s : Nat) : ObjBus :=
  let slot := b.slot s
  if !slot.connected then b
  else match slot.node with
    | none => b.setSlot s { slot with connected := false, interface := [] }
    | some n =>
      let b := if slot.type = .vtable then
          b.removeMembers (b.node n).path slot.interface slot.vtable.entries
        else b
      (b.detach n s).gc n

/-- `bus_add_object`, `sd_bus_add_node_enumerator` and `sd_bus_add_object_manager`: allocate the
node, allocate the slot, put it in front. -/
def addNodeSlot (b : ObjBus) (path : Str) (x : ObjSlot) : ObjBus × Except Errno Nat :=
  if !objectPathIsValid path then (b, .error .einval)
  else
    let r := busNodeAllocate path.length b path
    let s := r.1.nSlots
    ((r.1.slotAllocate { x with path := path }).attach r.2 s none, .ok s)

def busAddObject (b : ObjBus) (fallback : Bool) (path : Str) (callback : Option Nat) :
    ObjBus × Except Errno Nat :=
  match callback with
  | none => (b, .error .einval)
  | some f => addNodeSlot b path { type := .callback, isFallback := fallback, callback := f }

def sdBusAddNodeEnumerator (b : ObjBus) (path : Str) (callback : Option Nat) :
    ObjBus × Except Errno Nat :=
  match callback with
  | none => (b, .error .einval)
  | some f => addNodeSlot b path { type := .enumerator, callback := f }

def sdBusAddObjectManager (b : ObjBus) (path : Str) : ObjBus × Except Errno Nat :=
  addNodeSlot b path { type := .objectManager }

def reservedInterfaces : List Str :=
  ["org.freedesktop.DBus.Properties", "org.freedesktop.DBus.Introspectable",
    "org.freedesktop.DBus.Peer", "org.freedesktop.DBus.ObjectManager"].map
    (fun s => s.toList.map (fun c => c.toNat.toUInt8))

/-- The loop over the vtables that are there: a refusal, or the last one of the interface. -/
def findExisting (b : ObjBus) (interface : Str) (vtable : Vtable) (fallback : Bool) :
    List Nat → Option Nat → Except Errno (Option Nat)
  | [], existing => .ok existing
  | i :: l, existing =>
    if (b.slot i).isFallback ≠ fallback then .error .eprototype
    else if (b.slot i).interface = interface then
      if (b.slot i).vtable.address = vtable.address then .error .eexist
      else findExisting b interface vtable fallback l (some i)
    else findExisting b interface vtable fallback l existing

def memberOf (path interface : Str) (s : Nat) (e : VtableEntry) : VtableMember :=
  { path := path, interface := interface, member := e.member, parent := s, entry := e }

def putMembers (path interface : Str) (s : Nat) :
    List VtableEntry → ObjBus → ObjBus × Option Errno
  | [], b => (b, none)
  | e :: es, b =>
    if !e.isValid then (b, some .einval)
    else match e.kind with
      | none => putMembers path interface s es b
      | some k =>
        match Table.put VtableMember.key (b.members k) (memberOf path interface s e) with
        | none => (b, some .eexist)
        | some t => putMembers path interface s es (b.setMembers k t)

/-- `add_object_vtable_internal` from the allocation of the slot on. The slot has no node yet, so
on failure its disconnection does not take the members back out. -/
def addVtableSlot (b : ObjBus) (n : Nat) (path : Str) (x : ObjSlot) (existing : Option Nat) :
    ObjBus × Except Errno Nat :=
  let s := b.nSlots
  let r := putMembers path x.interface s x.vtable.entries (b.slotAllocate x)
  match r.2 with
  | some e => ((r.1.slotDisconnect s).gc n, .error e)
  | none => (r.1.attach n s existing, .ok s)

def addObjectVtableInternal (b : ObjBus) (path interface : Str) (vtable : Vtable)
    (fallback : Bool) (find : Option Nat) : ObjBus × Except Errno Nat :=
  if !objectPathIsValid path then (b, .error .einval)
  else if !interfaceNameIsValid interface then (b, .error .einval)
  else if !vtable.hasStart then (b, .error .einval)
  else if interface ∈ reservedInterfaces then (b, .error .einval)
  else
    let r := busNodeAllocate path.length b path
    match findExisting r.1 interface vtable fallback (r.1.vtables r.2) none with
    | .error e => (r.1.gc r.2, .error e)
    | .ok existing =>
      addVtableSlot r.1 r.2 path
        { path := path, type := .vtable, isFallback := fallback, interface := interface,
          vtable := vtable, find := find } existing

inductive ObjectOp
  | addObject (path : Str) (callback : Option Nat)
  | addFallback (path : Str) (callback : Option Nat)
  | addObjectVtable (path interface : Str) (vtable : Vtable)
  | addFallbackVtable (path interface : Str) (vtable : Vtable) (find : Option Nat)
  | addNodeEnumerator (path : Str) (callback : Option Nat)
  | addObjectManager (path : Str)
  | slotDisconnect (slot : Nat)
  deriving DecidableEq, Repr

def ObjectOp.exec (b : ObjBus) : ObjectOp → ObjBus
  | .addObject path callback => (busAddObject b false path callback).1
  | .addFallback path callback => (busAddObject b true path callback).1
  | .addObjectVtable path interface vtable =>
    (addObjectVtableInternal b path interface vtable false none).1
  | .addFallbackVtable path interface vtable find =>
    (addObjectVtableInternal b path interface vtable true find).1
  | .addNodeEnumerator path callback => (sdBusAddNodeEnumerator b path callback).1
  | .addObjectManager path => (sdBusAddObjectManager b path).1
  | .slotDisconnect slot => b.slotDisconnect slot

def objectRun (ops : List ObjectOp) : ObjBus := ops.foldl ObjectOp.exec {}

end Basu
