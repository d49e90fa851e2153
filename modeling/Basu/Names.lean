import Basu.Type

/-! What counts as a name or a text: the validators of `bus-internal.c` for object paths and for
interface, service and member names, and `utf8_is_valid`. -/

namespace Basu
open Lib

def isLetter (c : UInt8) : Bool := (97 ≤ c && c ≤ 122) || (65 ≤ c && c ≤ 90)

def isDigit (c : UInt8) : Bool := 48 ≤ c && c ≤ 57

def charSlash : UInt8 := 47
def charDot : UInt8 := 46
def charUnderscore : UInt8 := 95
def charDash : UInt8 := 45
def charColon : UInt8 := 58
def charComma : UInt8 := 44
def charEquals : UInt8 := 61

def str (s : String) : Str := s.toList.map fun c => c.toNat.toUInt8

def objectPathLoop : Bool → Str → Bool
  | slash, [] => !slash
  | slash, c :: q =>
    if c = charSlash then (if slash then false else objectPathLoop true q)
    else if isLetter c || isDigit c || c = charUnderscore then objectPathLoop false q
    else false

def objectPathIsValid (p : Str) : Bool :=
  if charAt p 0 ≠ charSlash then false
  else if charAt p 1 = 0 then true
  else objectPathLoop true (p.drop 1)

/-- The loop that interface and service names share: `digitFirst` allows a digit right behind a
dot, `dash` allows dashes. -/
def dottedNameLoop (digitFirst dash : Bool) : Bool → Bool → Str → Bool
  | dot, foundDot, [] => !dot && foundDot
  | dot, foundDot, c :: q =>
    if c = charDot then (if dot then false else dottedNameLoop digitFirst dash true true q)
    else if isLetter c || ((!dot || digitFirst) && isDigit c) || c = charUnderscore ||
        (dash && c = charDash) then
      dottedNameLoop digitFirst dash false foundDot q
    else false

def interfaceNameIsValid (p : Str) : Bool :=
  !p.isEmpty && dottedNameLoop false false true false p && p.length ≤ 255

def errorNameIsValid (p : Str) : Bool := interfaceNameIsValid p

def serviceNameIsValid (p : Str) : Bool :=
  let unique : Bool := charAt p 0 = charColon
  !p.isEmpty && dottedNameLoop unique true true false (if unique then p.drop 1 else p) &&
    p.length ≤ 255

def memberNameIsValid (p : Str) : Bool :=
  !p.isEmpty && p.all (fun c => isLetter c || isDigit c || c = charUnderscore) && p.length ≤ 255

def utf8EncodedExpectedLen (c : UInt8) : Nat :=
  if c < 0x80 then 1
  else if c &&& 0xe0 = 0xc0 then 2
  else if c &&& 0xf0 = 0xe0 then 3
  else if c &&& 0xf8 = 0xf0 then 4
  else if c &&& 0xfc = 0xf8 then 5
  else if c &&& 0xfe = 0xfc then 6
  else 0

def utf8FirstBits (len : Nat) (c : UInt8) : Nat :=
  match len with
  | 2 => (c &&& 0x1f).toNat
  | 3 => (c &&& 0x0f).toNat
  | 4 => (c &&& 0x07).toNat
  | 5 => (c &&& 0x03).toNat
  | _ => (c &&& 0x01).toNat

def utf8Continue : Nat → Str → Option Nat
  | unichar, [] => some unichar
  | unichar, c :: s =>
    if c &&& 0xc0 = 0x80 then utf8Continue (unichar * 64 + (c &&& 0x3f).toNat) s else none

def utf8UnicharToEncodedLen (unichar : Nat) : Nat :=
  if unichar < 0x80 then 1
  else if unichar < 0x800 then 2
  else if unichar < 0x10000 then 3
  else if unichar < 0x200000 then 4
  else if unichar < 0x4000000 then 5
  else 6

def unicharIsValid (ch : Nat) : Bool :=
  !(0x110000 ≤ ch) && !(ch &&& 0xfffff800 = 0xd800) && !(0xfdd0 ≤ ch && ch ≤ 0xfdef) &&
    !(ch &&& 0xfffe = 0xfffe)

/-- The length of the character the string starts with. A terminating NUL is no continuation byte,
so the string is never left. -/
def utf8EncodedValidUnichar (s : Str) : Option Nat :=
  let len := utf8EncodedExpectedLen (charAt s 0)
  if len = 0 then none
  else if len = 1 then some 1
  else
    let cs := (List.range len).map (charAt s)
    if cs.all (fun c => c &&& 0x80 = 0x80) then
      match utf8Continue (utf8FirstBits len (charAt s 0)) (cs.drop 1) with
      | none => none
      | some unichar =>
        if utf8UnicharToEncodedLen unichar = len && unicharIsValid unichar then some len
        else none
    else none

def utf8IsValidLoop : Nat → Str → Bool
  | 0, _ => false
  | fuel + 1, p =>
    if charAt p 0 = 0 then true
    else match utf8EncodedValidUnichar p with
      | none => false
      | some len => utf8IsValidLoop fuel (p.drop len)

def utf8IsValid (s : Str) : Bool := utf8IsValidLoop (s.length + 1) s

example : utf8IsValid [0x61, 0xc3, 0xa4, 0xf0, 0x9f, 0x98, 0x80] = true := by decide

example : utf8IsValid [0xc0, 0x80] = false := by decide

example : objectPathIsValid [47, 97, 47, 98] = true ∧ objectPathIsValid [47, 97, 47] = false := by
  decide

end Basu
