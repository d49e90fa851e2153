import Basu.Object.Agree

/-! `InterfacesAdded` and `InterfacesRemoved`: two walks over the vtables for a path, each with a set
of the interfaces that are handled. A message under construction is the containers that are open,
each with what it holds so far. -/

namespace Basu.Steady
open Lib

inductive Content (V : Type)
  | string (s : Str)
  | value (v : V)
  | container (type : UInt8) (contents : Str) (items : List (Content V))

/-- `current` is in the innermost open container, `outer` has the containers that are open, each
behind what stands in front of it. -/
structure OpenMessage (V : Type) where
  outer : List (UInt8 × Str × List (Content V)) := []
  current : List (Content V) := []

namespace OpenMessage
variable {V : Type}

def append (d : OpenMessage V) (x : Content V) : OpenMessage V := { d with current := d.current ++ [x] }

def openContainer (d : OpenMessage V) (type : UInt8) (contents : Str) : OpenMessage V :=
  { outer := (type, contents, d.current) :: d.outer, current := [] }

def closeContainer (d : OpenMessage V) : Option (OpenMessage V) :=
  match d.outer with
  | [] => none
  | (type, contents, front) :: outer =>
    some { outer := outer, current := front ++ [.container type contents d.current] }

def sealMessage (d : OpenMessage V) : Option (List (Content V)) :=
  if d.outer.isEmpty then some d.current else none

end OpenMessage

variable {U V : Type}

def typeEntry : UInt8 := 'e'.toNat.toUInt8
def typeArray : UInt8 := 'a'.toNat.toUInt8
def typeVariant : UInt8 := 'v'.toNat.toUInt8

def writeProperty (d : OpenMessage V) (p : Property V) : Option (OpenMessage V) :=
  ((((d.openContainer typeEntry (str "sv")).append (.string p.member)).openContainer typeVariant
    p.signature).append (.value p.value)).closeContainer.bind OpenMessage.closeContainer

def writeProperties (d : OpenMessage V) : List (Property V) → Option (OpenMessage V)
  | [] => some d
  | p :: l => (writeProperty d p).bind fun d => writeProperties d l

def writeBare (d : OpenMessage V) (interface : Str) : OpenMessage V :=
  d.append (.container typeEntry (str "sa{sv}") [.string interface, .container typeArray (str "{sv}") []])

def builtinInterfaces : List Str :=
  [peerInterface, introspectableInterface, propertiesInterface, objectManagerInterface]

def openInterface (d : OpenMessage V) (interface : Str) : OpenMessage V :=
  ((d.openContainer typeEntry (str "sa{sv}")).append (.string interface)).openContainer typeArray
    (str "{sv}")

def closeInterface (d : OpenMessage V) (previous : Option Str) : Option (OpenMessage V) :=
  match previous with
  | none => some d
  | some _ => d.closeContainer.bind OpenMessage.closeContainer

section
variable (cb : Callbacks U V) (b : ObjBus) (path : Str)

def appendAllTo (s : Nat) (u : U) (d : OpenMessage V) : Option (OpenMessage V) :=
  (vtableAppendAllProperties cb b path s u).bind (writeProperties d)

def objectAddedLoop (requireFallback : Bool) : List Nat → Option Str → List Str → OpenMessage V →
    Option (List Str × OpenMessage V)
  | [], previous, set, d => (closeInterface d previous).map fun d => (set, d)
  | c :: l, previous, set, d =>
    if passedOver b requireFallback c then objectAddedLoop requireFallback l previous set d
    else match nodeVtableGetUserdata cb b path c with
      | .failed => none
      | .absent => objectAddedLoop requireFallback l previous set d
      | .object u =>
        if some (b.slot c).interface = previous then
          (appendAllTo cb b path c u d).bind (objectAddedLoop requireFallback l previous set)
        else if (b.slot c).interface ∈ set then objectAddedLoop requireFallback l previous set d
        else (closeInterface d previous).bind fun d =>
          (appendAllTo cb b path c u (openInterface d (b.slot c).interface)).bind
            (objectAddedLoop requireFallback l (some (b.slot c).interface)
              ((b.slot c).interface :: set))

def objectAddedAppendAllPrefix (p : Str) (requireFallback : Bool) (set : List Str) (d : OpenMessage V) :
    Option (List Str × OpenMessage V) :=
  match b.getNode p with
  | none => some (set, d)
  | some n => objectAddedLoop cb b path requireFallback (b.vtables n) none set d

def objectAddedPlaces : List (Str × Bool) → List Str → OpenMessage V → Option (OpenMessage V)
  | [], _, d => some d
  | (p, requireFallback) :: l, set, d =>
    (objectAddedAppendAllPrefix cb b path p requireFallback set d).bind fun r =>
      objectAddedPlaces l r.1 r.2

def objectAddedAppendAll (d : OpenMessage V) : Option (OpenMessage V) :=
  objectAddedPlaces cb b path (consultOrder path) [] (builtinInterfaces.foldl writeBare d)

def objectRemovedLoop (requireFallback : Bool) : List Nat → Option Str → List Str → OpenMessage V →
    Option (List Str × OpenMessage V)
  | [], _, set, d => some (set, d)
  | c :: l, previous, set, d =>
    if passedOver b requireFallback c then objectRemovedLoop requireFallback l previous set d
    else if some (b.slot c).interface = previous then
      objectRemovedLoop requireFallback l previous set d
    else if (b.slot c).interface ∈ set then objectRemovedLoop requireFallback l previous set d
    else match nodeVtableGetUserdata cb b path c with
      | .failed => none
      | .absent => objectRemovedLoop requireFallback l previous set d
      | .object _ => objectRemovedLoop requireFallback l (some (b.slot c).interface)
          ((b.slot c).interface :: set) (d.append (.string (b.slot c).interface))

def objectRemovedAppendAllPrefix (p : Str) (requireFallback : Bool) (set : List Str)
    (d : OpenMessage V) :
    Option (List Str × OpenMessage V) :=
  match b.getNode p with
  | none => some (set, d)
  | some n => objectRemovedLoop cb b path requireFallback (b.vtables n) none set d

def objectRemovedPlaces : List (Str × Bool) → List Str → OpenMessage V → Option (OpenMessage V)
  | [], _, d => some d
  | (p, requireFallback) :: l, set, d =>
    (objectRemovedAppendAllPrefix cb b path p requireFallback set d).bind fun r =>
      objectRemovedPlaces l r.1 r.2

def objectRemovedAppendAll (d : OpenMessage V) : Option (OpenMessage V) :=
  objectRemovedPlaces cb b path (consultOrder path) []
    (builtinInterfaces.foldl (fun d i => d.append (.string i)) d)

def managerAbove : Nat → Nat → Option Nat
  | 0, _ => none
  | fuel + 1, n =>
    if !((b.node n).attached .objectManager).isEmpty then some n
    else match (b.node n).parent with
      | none => none
      | some q => managerAbove fuel q

def busFindParentObjectManager : Option Nat :=
  ((path :: objectPathPrefixes path).findSome? b.getNode).bind (managerAbove b (b.nNodes + 1))

structure Signal (V : Type) where
  path : Str
  body : List (Content V)

def emitWith (contents : Str) (f : OpenMessage V → Option (OpenMessage V)) : Option (Signal V) :=
  if !objectPathIsValid path then none
  else (busFindParentObjectManager b path).bind fun n =>
    (f ((({} : OpenMessage V).append (.string path)).openContainer typeArray contents)).bind fun d =>
      d.closeContainer.bind fun d => d.sealMessage.map fun body => ⟨(b.node n).path, body⟩

def sdBusEmitObjectAdded : Option (Signal V) :=
  emitWith b path (str "{sa{sv}}") (objectAddedAppendAll cb b path)

def sdBusEmitObjectRemoved : Option (Signal V) :=
  emitWith b path (str "s") (objectRemovedAppendAll cb b path)

end

end Basu.Steady
