import Basu.Lib.Linked
import Basu.Lib.Table
import Basu.Match.Parse

/-! The match tree as it lies in memory (`bus-match.c`). A node knows its parent and its child list;
a compare node whose type can be hashed has its value nodes in a table instead. Nodes are numbered
as they are allocated, the root being 0, and callbacks by number. -/

namespace Basu
open Lib
open Function

inductive MatchKey
  | u8 (n : UInt8)
  | str (s : Option Str)
  deriving DecidableEq, Repr

def matchKey (t : NodeType) (u8 : UInt8) (str : Option Str) : MatchKey :=
  if t = .messageType then .u8 u8 else .str str

def MatchComponent.key (c : MatchComponent) : MatchKey := matchKey c.type c.valueU8 c.valueStr

inductive MatchPayload
  | root
  | value (u8 : UInt8) (str : Option Str)
  | leaf (callback : Nat)
  | compare (type : NodeType) (children : Option (List (MatchKey × Nat)))
  deriving DecidableEq, Repr

structure MatchNode where
  payload : MatchPayload
  parent : Option Nat := none
  child : List Nat := []
  deriving DecidableEq, Repr

def MatchPayload.isInner : MatchPayload → Bool
  | .root | .value .. => true
  | .leaf _ | .compare .. => false

def MatchPayload.isCompare : MatchPayload → Bool
  | .compare .. => true
  | _ => false

def MatchPayload.table : MatchPayload → List (MatchKey × Nat)
  | .compare _ (some table) => table
  | _ => []

def MatchNode.members (n : MatchNode) : List Nat := n.child ++ n.payload.table.map Prod.snd

structure MatchTree where
  node : Nat → Option MatchNode
  fresh : Nat
  matchNode : Nat → Option Nat

namespace MatchTree

def empty : MatchTree where
  node := fun i => if i = 0 then some { payload := .root } else none
  fresh := 1
  matchNode := fun _ => none

def isCompareOf (T : MatchTree) (t : NodeType) (i : Nat) : Bool :=
  match T.node i with
  | some { payload := .compare t' _, .. } => t' = t
  | _ => false

def valueNodeSame (T : MatchTree) (c : MatchComponent) (i : Nat) : Bool :=
  match T.node i with
  | some { payload := .value u8 str, .. } => matchKey c.type u8 str = c.key
  | _ => false

def newNode (T : MatchTree) (p : Nat) (pn : MatchNode) (payload : MatchPayload) : MatchTree :=
  { T with
    node := attach T.node p T.fresh pn { payload := payload, parent := some p }
    fresh := T.fresh + 1 }

def prepend (T : MatchTree) (p : Nat) (pn : MatchNode) (payload : MatchPayload) : MatchTree :=
  T.newNode p { pn with child := T.fresh :: pn.child } payload

def findValue (T : MatchTree) (n : MatchNode) (c : MatchComponent) : Option Nat :=
  if busMatchCanHash c.type then (Table.get Prod.fst n.payload.table c.key).map Prod.snd
  else n.child.find? (T.valueNodeSame c)

def addValue (T : MatchTree) (i : Nat) (c : MatchComponent) : Option (Nat × MatchTree) :=
  match T.node i with
  | none => none
  | some n =>
    let value := .value c.valueU8 c.valueStr
    match n.payload with
    | .compare t (some table) =>
      (Table.put Prod.fst table (c.key, T.fresh)).map fun table =>
        (T.fresh, T.newNode i { n with payload := .compare t (some table) } value)
    | _ => some (T.fresh, T.prepend i n value)

/-- `bus_match_add_compare_value` below the node `w`; there is no result if an assertion fails. -/
def busMatchAddCompareValue (T : MatchTree) (w : Nat) (c : MatchComponent) :
    Option (Nat × MatchTree) :=
  match T.node w with
  | none => none
  | some wn =>
    if !wn.payload.isInner then none
    else
      match wn.child.find? (T.isCompareOf c.type) with
      | some i =>
        match T.node i with
        | none => none
        | some n =>
          match T.findValue n c with
          | some v => some (v, T)
          | none => T.addValue i c
      | none =>
        let children := if busMatchCanHash c.type then some [] else none
        (T.prepend w wn (.compare c.type children)).addValue T.fresh c

def busMatchAddLeaf (T : MatchTree) (w : Nat) (callback : Nat) : Option MatchTree :=
  match T.node w with
  | none => none
  | some wn =>
    if !wn.payload.isInner then none
    else
      let T' := T.prepend w wn (.leaf callback)
      some { T' with matchNode := update T.matchNode callback (some T.fresh) }

def busMatchAddFrom (callback : Nat) : List MatchComponent → Nat → MatchTree → Option MatchTree
  | [], w, T => T.busMatchAddLeaf w callback
  | c :: cs, w, T =>
    (T.busMatchAddCompareValue w c).bind fun r => busMatchAddFrom callback cs r.1 r.2

def busMatchAdd (T : MatchTree) (components : List MatchComponent) (callback : Nat) :
    Option MatchTree :=
  busMatchAddFrom callback components 0 T

end MatchTree

def MatchPayload.without (p value : MatchPayload) : MatchPayload :=
  match p, value with
  | .compare t (some table), .value u8 str =>
    if t = .messageType ∨ busMatchCanHash t = true ∧ str.isSome = true then
      .compare t (some (Table.remove Prod.fst table (matchKey t u8 str)))
    else p
  | _, _ => p

namespace MatchTree

def dropNode (T : MatchTree) (i p : Nat) (pn : MatchNode) : MatchTree :=
  { T with node := detach T.node p i pn }

/-- `bus_match_node_free`; there is no result if an assertion fails. -/
def busMatchNodeFree (T : MatchTree) (i : Nat) : Option MatchTree :=
  match T.node i with
  | none => none
  | some n =>
    match n.parent with
    | none => none
    | some p =>
      match T.node p with
      | none => none
      | some pn =>
        if n.child ≠ [] ∨ n.payload = .root then none
        else if pn.child ≠ [] ∧ i ∉ pn.child then none
        else if n.payload.table ≠ [] then none
        else
          let pn := { pn with payload := pn.payload.without n.payload, child := pn.child.erase i }
          some (T.dropNode i p pn)

def busMatchNodeMaybeFree (T : MatchTree) (i : Nat) : Option (Bool × MatchTree) :=
  match T.node i with
  | none => none
  | some n =>
    if n.payload = .root then some (false, T)
    else if n.child ≠ [] then some (false, T)
    else if n.payload.table ≠ [] then some (true, T)
    else (T.busMatchNodeFree i).map fun T => (true, T)

/-- The loop that prunes the tree above; a parent has a smaller number, so that `fuel` turns are
enough from a node below `fuel` on. -/
def prune : Nat → Option Nat → MatchTree → Option MatchTree
  | _, none, T => some T
  | 0, some _, _ => none
  | fuel + 1, some i, T =>
    match T.node i with
    | none => none
    | some n =>
      match T.busMatchNodeMaybeFree i with
      | none => none
      | some (false, T) => some T
      | some (true, T) => prune fuel n.parent T

def busMatchRemove (T : MatchTree) (callback : Nat) : Option MatchTree :=
  match T.matchNode callback with
  | none => some T
  | some i =>
    match T.node i with
    | some { payload := .leaf _, parent := pp, .. } =>
      ({ T with matchNode := update T.matchNode callback none }.busMatchNodeFree i).bind
        (prune i pp)
    | _ => none

end MatchTree

inductive MatchOp
  | add (components : List MatchComponent) (callback : Nat)
  | remove (callback : Nat)
  deriving DecidableEq, Repr

namespace MatchTree

def apply (T : MatchTree) : MatchOp → Option MatchTree
  | .add components callback => T.busMatchAdd components callback
  | .remove callback => T.busMatchRemove callback

def run : List MatchOp → MatchTree → Option MatchTree
  | [], T => some T
  | op :: ops, T => (T.apply op).bind (run ops)

end MatchTree

end Basu
