import Basu.Names

/-! JSON variants (`json.c`) without real numbers: magic values, inline copies and references, and how
they are put together. No function here gives them a place in a source. -/

namespace Basu
open Lib

inductive JsonVariantType
  | string | integer | unsigned | boolean | array | object | null
  deriving DecidableEq

inductive MagicVariant
  | true | false | null | zeroInteger | zeroUnsigned | emptyString | emptyArray | emptyObject
  deriving DecidableEq

/-- What a pointer to a variant leads to; variants do not change after they were made. -/
inductive JsonVariant
  | magic (m : MagicVariant)
  | integer (i : Int)
  | unsigned (u : Nat)
  | boolean (b : Bool)
  | null
  | string (s : Str)
  | array (depth : Nat) (elements : List JsonVariant)
  | object (depth : Nat) (elements : List JsonVariant)
  /-- A surrogate for another variant, with its type. -/
  | reference (type : JsonVariantType) (v : JsonVariant)

def depthMax : Nat := 16 * 1024

def jsonVariantDereference : JsonVariant → JsonVariant
  | .reference _ v => jsonVariantDereference v
  | v => v

def jsonVariantDepth (v : JsonVariant) : Nat :=
  match jsonVariantDereference v with
  | .array depth _ => depth
  | .object depth _ => depth
  | _ => 0

def MagicVariant.type : MagicVariant → JsonVariantType
  | .true | .false => .boolean
  | .null => .null
  | .zeroInteger => .integer
  | .zeroUnsigned => .unsigned
  | .emptyString => .string
  | .emptyArray => .array
  | .emptyObject => .object

def jsonVariantType : JsonVariant → JsonVariantType
  | .magic m => m.type
  | .integer _ => .integer
  | .unsigned _ => .unsigned
  | .boolean _ => .boolean
  | .null => .null
  | .string _ => .string
  | .array _ _ => .array
  | .object _ _ => .object
  | .reference type _ => type

def jsonVariantString : JsonVariant → Option Str
  | .magic .emptyString => some []
  | .reference _ v => jsonVariantString v
  | .string s => some s
  | _ => none

def jsonVariantBoolean : JsonVariant → Bool
  | .magic .true => true
  | .reference .boolean v => jsonVariantBoolean v
  | .boolean b => b
  | _ => false

def jsonVariantInteger : JsonVariant → Int
  | .reference _ v => jsonVariantInteger v
  | .integer i => i
  | .unsigned u => if u ≤ 2 ^ 63 - 1 then u else 0
  | _ => 0

def jsonVariantUnsigned : JsonVariant → Nat
  | .reference _ v => (jsonVariantInteger v % 2 ^ 64).toNat
  | .integer i => if 0 ≤ i then i.toNat else 0
  | .unsigned u => u
  | _ => 0

def jsonVariantIsString (v : JsonVariant) : Bool :=
  jsonVariantType (jsonVariantDereference v) = .string

def jsonVariantElements : JsonVariant → Nat
  | .array _ es => es.length
  | .object _ es => es.length
  | .reference .array v => jsonVariantElements v
  | .reference .object v => jsonVariantElements v
  | _ => 0

def jsonVariantNormalize (v : JsonVariant) : JsonVariant :=
  let v := jsonVariantDereference v
  match jsonVariantType v with
  | .boolean => if jsonVariantBoolean v then .magic .true else .magic .false
  | .null => .magic .null
  | .integer => if jsonVariantInteger v = 0 then .magic .zeroInteger else v
  | .unsigned => if jsonVariantUnsigned v = 0 then .magic .zeroUnsigned else v
  | .string => if (jsonVariantString v).getD [] = [] then .magic .emptyString else v
  | .array => if jsonVariantElements v = 0 then .magic .emptyArray else v
  | .object => if jsonVariantElements v = 0 then .magic .emptyObject else v

def jsonVariantConservativeNormalize : JsonVariant → JsonVariant
  | .magic m => .magic m
  | v => jsonVariantNormalize v

def jsonVariantByIndex : JsonVariant → Nat → Option JsonVariant
  | .array _ es, idx => es[idx]?.map jsonVariantConservativeNormalize
  | .object _ es, idx => es[idx]?.map jsonVariantConservativeNormalize
  | .reference .array v, idx => jsonVariantByIndex v idx
  | .reference .object v, idx => jsonVariantByIndex v idx
  | _, _ => none

inductive JsonErrno
  | einval | elnrng
  deriving DecidableEq

def jsonVariantNewInteger (i : Int) : JsonVariant :=
  if i = 0 then .magic .zeroInteger else .integer i

def jsonVariantNewUnsigned (u : Nat) : JsonVariant :=
  if u = 0 then .magic .zeroUnsigned else .unsigned u

def jsonVariantNewBoolean (b : Bool) : JsonVariant := if b then .magic .true else .magic .false

def jsonVariantNewNull : JsonVariant := .magic .null

/-- `json_variant_new_stringn`, with the bytes that are pointed to, if any; they are read up to a
NUL. -/
def jsonVariantNewStringn : Option Str → JsonVariant
  | none => jsonVariantNewNull
  | some s => if s = [] then .magic .emptyString else .string (s.takeWhile (· ≠ 0))

/-- `json_variant_set`: what is stored in the element of an array or an object; strings up to
`inlineMax` bytes are stored inline. -/
def jsonVariantSet (inlineMax : Nat) (b : JsonVariant) : JsonVariant :=
  let b := jsonVariantDereference b
  match jsonVariantType b with
  | .integer => .integer (jsonVariantInteger b)
  | .unsigned => .unsigned (jsonVariantUnsigned b)
  | .boolean => .boolean (jsonVariantBoolean b)
  | .string =>
    if ((jsonVariantString b).getD []).length ≤ inlineMax then
      .string ((jsonVariantString b).getD [])
    else .reference .string (jsonVariantConservativeNormalize b)
  | .array => .reference .array (jsonVariantConservativeNormalize b)
  | .object => .reference .object (jsonVariantConservativeNormalize b)
  | .null => .null

/-- The loop over the elements from the index `i` on; the even ones of an object are its keys. -/
def elementsLoop (inlineMax : Nat) (isObject : Bool) :
    Nat → Nat → List JsonVariant → Except JsonErrno (Nat × List JsonVariant)
  | _, depth, [] => .ok (depth, [])
  | i, depth, c :: cs =>
    if isObject ∧ i % 2 = 0 ∧ !jsonVariantIsString c then .error .einval
    else
      let d := jsonVariantDepth c
      if depthMax ≤ d then .error .elnrng
      else
        match elementsLoop inlineMax isObject (i + 1) (if depth ≤ d then d + 1 else depth) cs with
        | .error e => .error e
        | .ok (depth, ws) => .ok (depth, jsonVariantSet inlineMax c :: ws)

def jsonVariantNewArray (inlineMax : Nat) (array : List JsonVariant) :
    Except JsonErrno JsonVariant :=
  if array = [] then .ok (.magic .emptyArray)
  else (elementsLoop inlineMax false 0 0 array).map fun (depth, es) => .array depth es

def jsonVariantNewObject (inlineMax : Nat) (array : List JsonVariant) :
    Except JsonErrno JsonVariant :=
  if array = [] then .ok (.magic .emptyObject)
  else if array.length % 2 ≠ 0 then .error .einval
  else (elementsLoop inlineMax true 0 0 array).map fun (depth, es) => .object depth es

end Basu
