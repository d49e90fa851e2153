import Basu.Object.Order

/-! Calls of the properties interface on an object tree that stays as it is: the functions called
back answer without changing it, so no walk starts again. No vtable may have the properties
interface, so the lookup of a method is left out; object callbacks decline. -/

namespace Basu.Steady
open Lib

variable {U V : Type}

/-- What `node_vtable_get_userdata` comes to: no object, its user data, or a failure. -/
inductive Found (U : Type)
  | absent
  | object (u : U)
  | failed
  deriving DecidableEq, Repr

/-- The user data of a slot, its `find`, the value of a property, and the paths of an enumerator;
no value and no paths on failure. A property without a getter is read from its user data. -/
structure Callbacks (U V : Type) where
  userdata : Nat → U
  find : Nat → Str → Found U
  get : Nat → Str → VtableEntry → U → Option V
  enumerate : Nat → Str → Option (List Str)

structure Property (V : Type) where
  member : Str
  signature : Str
  value : V
  deriving DecidableEq, Repr

/-- The answer to a call: a value, an error of a function called back, or an error that says what
is unknown. Others may answer what is unhandled. -/
inductive Outcome (α : Type)
  | reply (a : α)
  | failed
  | unknownInterface
  | unknownProperty
  | unknownMethod
  | unhandled
  deriving DecidableEq, Repr

/-- A piece of the walk answers, or goes on with `found_object`. -/
inductive Step (α : Type)
  | ended (o : Outcome α)
  | onward (found : Bool)
  deriving DecidableEq, Repr

section
variable (cb : Callbacks U V) (b : ObjBus) (path : Str)

def nodeVtableGetUserdata (s : Nat) : Found U :=
  match (b.slot s).find with
  | none => .object (cb.userdata s)
  | some _ => cb.find s path

def passedOver (requireFallback : Bool) (s : Nat) : Bool :=
  requireFallback && !(b.slot s).isFallback

def isListed (e : VtableEntry) : Bool :=
  e.kind = some .property && !hasFlag e.flags sdBusVtableHidden &&
    !hasFlag e.flags sdBusVtablePropertyExplicit

def vtableAppendOneProperty (s : Nat) (u : U) (e : VtableEntry) : Option (Property V) :=
  (cb.get s path e u).map fun v => ⟨e.member, e.signature, v⟩

def appendEntries (s : Nat) (u : U) : List VtableEntry → Option (List (Property V))
  | [] => some []
  | e :: es =>
    if isListed e then
      (vtableAppendOneProperty cb path s u e).bind fun p =>
        (appendEntries s u es).map fun l => p :: l
    else appendEntries s u es

def vtableAppendAllProperties (s : Nat) (u : U) : Option (List (Property V)) :=
  if hasFlag (b.slot s).vtable.flags sdBusVtableHidden then some []
  else appendEntries cb path s u (b.slot s).vtable.entries

def propertyGetSetCallbacksRun (c : VtableMember) (requireFallback : Bool) : Option (Outcome V) :=
  if passedOver b requireFallback c.parent then none
  else match nodeVtableGetUserdata cb b path c.parent with
    | .absent => none
    | .failed => some .failed
    | .object u => match cb.get c.parent path c.entry u with
      | none => some .failed
      | some v => some (.reply v)

def getAllLoop (requireFallback : Bool) (iface : Option Str) :
    List Nat → Bool → Bool → List (Property V) → Option (Outcome (List (Property V)))
  | [], found, foundInterface, l =>
    if !found then none else if !foundInterface then some .unknownInterface else some (.reply l)
  | s :: first, found, foundInterface, l =>
    if passedOver b requireFallback s then getAllLoop requireFallback iface first found foundInterface l
    else match nodeVtableGetUserdata cb b path s with
      | .failed => some .failed
      | .absent => getAllLoop requireFallback iface first found foundInterface l
      | .object u =>
        if iface.isSome && iface ≠ some (b.slot s).interface then
          getAllLoop requireFallback iface first true foundInterface l
        else match vtableAppendAllProperties cb b path s u with
          | none => some .failed
          | some l' => getAllLoop requireFallback iface first true true (l ++ l')

def isKnownInterface (iface : Option Str) : Bool :=
  iface = none || iface = some propertiesInterface || iface = some peerInterface ||
    iface = some introspectableInterface

def propertyGetAllCallbacksRun (first : List Nat) (requireFallback : Bool) (iface : Option Str)
    (found : Bool) : Option (Outcome (List (Property V))) :=
  getAllLoop cb b path requireFallback iface first found (isKnownInterface iface) []

def nodeExistsLoop (requireFallback : Bool) : List Nat → Ret
  | [] => .zero
  | s :: l =>
    if passedOver b requireFallback s then nodeExistsLoop requireFallback l
    else match nodeVtableGetUserdata cb b path s with
      | .absent => nodeExistsLoop requireFallback l
      | .object _ => .pos
      | .failed => .neg

def hasCallback (n : Nat) (requireFallback : Bool) : Bool :=
  ((b.node n).attached .callback).any fun k => !passedOver b requireFallback k

def isPresent (n : Nat) (requireFallback : Bool) : Bool :=
  (!requireFallback && (!((b.node n).attached .enumerator).isEmpty ||
    !((b.node n).attached .objectManager).isEmpty)) || hasCallback b n requireFallback

def busNodeExists (n : Nat) (requireFallback : Bool) : Ret :=
  if isPresent b n requireFallback then .pos else nodeExistsLoop cb b path requireFallback (b.vtables n)

variable {α : Type}

def objectFindAndRun (run : Nat → Bool → Option (Outcome α)) (p : Str) (requireFallback : Bool)
    (found : Bool) : Step α :=
  match b.getNode p with
  | none => .onward found
  | some n =>
    let found := found || hasCallback b n requireFallback
    match run n found with
    | some o => .ended o
    | none =>
      if found then .onward true
      else match busNodeExists cb b path n requireFallback with
        | .neg => .ended .failed
        | .zero => .onward false
        | .pos => .onward true

/-- The path and its prefixes one after the other; `unknown` is the answer if nobody took the
call. -/
def placesRun (run : Str → Bool → Nat → Bool → Option (Outcome α)) (unknown : Outcome α) :
    List (Str × Bool) → Bool → Outcome α
  | [], found => if found then unknown else .unhandled
  | (p, requireFallback) :: l, found =>
    match objectFindAndRun cb b path (run p requireFallback) p requireFallback found with
    | .ended o => o
    | .onward found => placesRun run unknown l found

def runGet (iface member : Str) (p : Str) (requireFallback : Bool) (_ : Nat) (_ : Bool) :
    Option (Outcome V) :=
  match Table.get VtableMember.key (b.members .property) (p, iface, member) with
  | none => none
  | some c => propertyGetSetCallbacksRun cb b path c requireFallback

def runGetAll (iface : Str) (_ : Str) (requireFallback : Bool) (n : Nat) (found : Bool) :
    Option (Outcome (List (Property V))) :=
  propertyGetAllCallbacksRun cb b path (b.vtables n) requireFallback
    (if iface.isEmpty then none else some iface) found

def processGet (iface member : Str) : Outcome V :=
  placesRun cb b path (runGet cb b path iface member) .unknownProperty (consultOrder path) false

def processGetAll (iface : Str) : Outcome (List (Property V)) :=
  placesRun cb b path (runGetAll cb b path iface) .unknownMethod (consultOrder path) false

end

end Basu.Steady
