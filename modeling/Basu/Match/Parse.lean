import Basu.Lib.Wrap
import Basu.Match.Tree
import Mathlib.Data.List.Sort

/-! The parser of match rules (`bus-match.c`). A cursor is what is left of the string; what would
read behind the NUL at its end has no result. -/

namespace Basu
open Lib

def readAt (p : Str) (i : Nat) : Option UInt8 := if i ≤ p.length then some (charAt p i) else none

def advance (p : Str) (n : Nat) : Option Str := if n ≤ p.length then some (p.drop n) else none

def undecchar (c : UInt8) : Option Nat := if 48 ≤ c ∧ c ≤ 57 then some (c - 48).toNat else none

/-- "type" -/
def typeWord : Str := [116, 121, 112, 101]

/-- "sender" -/
def senderWord : Str := [115, 101, 110, 100, 101, 114]

/-- "destination" -/
def destinationWord : Str := [100, 101, 115, 116, 105, 110, 97, 116, 105, 111, 110]

/-- "interface" -/
def interfaceWord : Str := [105, 110, 116, 101, 114, 102, 97, 99, 101]

/-- "member" -/
def memberWord : Str := [109, 101, 109, 98, 101, 114]

/-- "path" -/
def pathWord : Str := [112, 97, 116, 104]

/-- "path_namespace" -/
def pathNamespaceWord : Str := [112, 97, 116, 104, 95, 110, 97, 109, 101, 115, 112, 97, 99, 101]

/-- "arg" -/
def argWord : Str := [97, 114, 103]

/-- "namespace" -/
def namespaceWord : Str := [110, 97, 109, 101, 115, 112, 97, 99, 101]

/-- "has" -/
def hasWord : Str := [104, 97, 115]

def argDigit (k : Str) (type : Fin 64 → NodeType) : Option (Except Errno NodeType) :=
  (readAt k 3).map fun c =>
    match undecchar c with
    | some j => if h : j < 64 then .ok (type ⟨j, h⟩) else .error .einval
    | none => .error .einval

def argDigits (k : Str) (type : Fin 64 → NodeType) : Option (Except Errno NodeType) :=
  match readAt k 3, readAt k 4 with
  | some c, some d => some <|
    match undecchar c, undecchar d with
    | some a, some b =>
      if a = 0 then .error .einval
      else if h : a * 10 + b < 64 then .ok (type ⟨a * 10 + b, h⟩) else .error .einval
    | _, _ => .error .einval
  | _, _ => none

def argBegins (k : Str) (n i : Nat) (word : Str) : Option Bool :=
  if n = i + word.length ∧ argWord.isPrefixOf k = true then
    (advance k i).map fun k => word.isPrefixOf k
  else some false

def argFamily (k : Str) (n : Nat) (word : Str) (type : Fin 64 → NodeType)
    (otherwise : Option (Except Errno NodeType)) : Option (Except Errno NodeType) :=
  match argBegins k n 4 word with
  | none => none
  | some true => argDigit k type
  | some false =>
    match argBegins k n 5 word with
    | none => none
    | some true => argDigits k type
    | some false => otherwise

def busMatchNodeTypeFromString (k : Str) (n : Nat) : Option (Except Errno NodeType) :=
  if n = 4 ∧ typeWord.isPrefixOf k = true then some (.ok .messageType)
  else if n = 6 ∧ senderWord.isPrefixOf k = true then some (.ok .sender)
  else if n = 11 ∧ destinationWord.isPrefixOf k = true then some (.ok .destination)
  else if n = 9 ∧ interfaceWord.isPrefixOf k = true then some (.ok .interface)
  else if n = 6 ∧ memberWord.isPrefixOf k = true then some (.ok .member)
  else if n = 4 ∧ pathWord.isPrefixOf k = true then some (.ok .path)
  else if n = 14 ∧ pathNamespaceWord.isPrefixOf k = true then some (.ok .pathNamespace)
  else
    argFamily k n [] .arg <|
    argFamily k n pathWord .argPath <|
    argFamily k n namespaceWord .argNamespace <|
    argFamily k n hasWord .argHas <|
    some (.error .einval)

def NodeType.code : NodeType → Nat
  | .sender => 3
  | .messageType => 4
  | .destination => 5
  | .interface => 6
  | .member => 7
  | .path => 8
  | .pathNamespace => 9
  | .arg i => 10 + i
  | .argPath i => 74 + i
  | .argNamespace i => 138 + i
  | .argHas i => 202 + i

def charQuote : UInt8 := 39
def charBackslash : UInt8 := 92
def charBlank : UInt8 := 32

def counterSize : Nat := 2 ^ 32

/-- The loop over a value: the value, and what starts at the character that ends it. The value is
written at an unsigned counter. -/
def matchValue (quoted : Bool) : Bool → Str → Str → Except Errno (Str × Str)
  | _, value, [] => if quoted then .error .einval else .ok (value, [])
  | escaped, value, c :: q =>
    if !escaped && c == charBackslash then matchValue quoted true value q
    else if !escaped && quoted && c == charQuote then .ok (value, c :: q)
    else if !escaped && !quoted && c == charComma then .ok (value, c :: q)
    else matchValue quoted false (pushWrap counterSize value c) q

/-- "signal" -/
def signalName : Str := [115, 105, 103, 110, 97, 108]

/-- "method_call" -/
def methodCallName : Str := [109, 101, 116, 104, 111, 100, 95, 99, 97, 108, 108]

/-- "error" -/
def errorName : Str := [101, 114, 114, 111, 114]

/-- "method_return" -/
def methodReturnName : Str := [109, 101, 116, 104, 111, 100, 95, 114, 101, 116, 117, 114, 110]

def busMessageTypeFromString (s : Str) : Except Errno UInt8 :=
  if s = signalName then .ok 4
  else if s = methodCallName then .ok 1
  else if s = errorName then .ok 3
  else if s = methodReturnName then .ok 2
  else .error .einval

structure MatchComponent where
  type : NodeType
  valueU8 : UInt8
  valueStr : Option Str
  deriving DecidableEq, Repr

def matchComponent (t : NodeType) (value : Str) : Except Errno MatchComponent :=
  if t = .messageType then
    (busMessageTypeFromString value).map fun u => ⟨t, u, none⟩
  else .ok ⟨t, 0, some value⟩

/-- A turn of `bus_match_parse` up to the component: with what starts at the end of its value, and
whether this is a quote. -/
def matchTurn (p : Str) : Option (Except Errno (MatchComponent × Str × Bool)) :=
  let p := p.dropWhile (· == charBlank)
  match p.dropWhile (· != charEquals) with
  | [] => some (.error .einval)
  | eq =>
    match busMatchNodeTypeFromString p (p.length - eq.length), readAt eq 1 with
    | some (.ok t), some c =>
      let quoted := c == charQuote
      (advance eq (1 + quoted.toNat)).map fun q =>
        match matchValue quoted false [] q with
        | .error r => .error r
        | .ok (value, q) => (matchComponent t value).map fun c => (c, q, quoted)
    | some (.error _), _ => some (.error .einval)
    | _, _ => none

def matchLoop : Nat → Str → List MatchComponent → Option (Except Errno (List MatchComponent))
  | 0, _, components => some (.ok components)
  | fuel + 1, p, components =>
    if p = [] then some (.ok components)
    else match matchTurn p with
    | none => none
    | some (.error r) => some (.error r)
    | some (.ok (c, q, quoted)) =>
      let components := pushWrap counterSize components c
      match readAt q quoted.toNat with
      | none => none
      | some d =>
        if d = 0 then some (.ok components)
        else if d ≠ charComma then some (.error .einval)
        else match advance q (1 + quoted.toNat) with
        | none => none
        | some p => matchLoop fuel p components

/-- `match_component_compare`: whether the first may stand in front of the second. -/
def matchComponentLE (a b : MatchComponent) : Prop := a.type.code ≤ b.type.code

instance : DecidableRel matchComponentLE := fun a b =>
  inferInstanceAs (Decidable (a.type.code ≤ b.type.code))

def hasDuplicates : List MatchComponent → Bool
  | [] => false
  | [_] => false
  | a :: b :: l => a.type == b.type || hasDuplicates (b :: l)

/-- `bus_match_parse`; which of two components of one type comes first does not matter. -/
def busMatchParse (rule : Str) : Option (Except Errno (List MatchComponent)) :=
  (matchLoop (rule.length + 1) rule []).map fun r => r.bind fun components =>
    let components := components.insertionSort matchComponentLE
    if hasDuplicates components then .error .einval else .ok components

end Basu
