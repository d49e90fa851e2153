import Basu.Hex
import Basu.Json.Variant

/-! The text of a JSON variant (`json_format`), with no flags or with `JSON_FORMAT_PRETTY`. -/

namespace Basu
open Lib

def decimal (n : Nat) : Str := (Nat.toDigits 10 n).map fun c => c.toNat.toUInt8

def signedDecimal (i : Int) : Str :=
  if i < 0 then charDash :: decimal i.natAbs else decimal i.natAbs

def charQuotationMark : UInt8 := 34
def charReverseSolidus : UInt8 := 92
def charOpenBracket : UInt8 := 91
def charCloseBracket : UInt8 := 93
def charOpenBrace : UInt8 := 123
def charCloseBrace : UInt8 := 125

def escapeChar (c : UInt8) : Str :=
  if c = charQuotationMark then [charReverseSolidus, charQuotationMark]
  else if c = charReverseSolidus then [charReverseSolidus, charReverseSolidus]
  else if c = charSlash then [charReverseSolidus, charSlash]
  else if c = 8 then [charReverseSolidus, 98]
  else if c = 12 then [charReverseSolidus, 102]
  else if c = 10 then [charReverseSolidus, 110]
  else if c = 13 then [charReverseSolidus, 114]
  else if c = 9 then [charReverseSolidus, 116]
  else if c < 32 then [charReverseSolidus, 117, 48, 48, hexchar (c >>> 4), hexchar (c &&& 15)]
  else [c]

def quoted (s : Str) : Str := charQuotationMark :: (s.flatMap escapeChar ++ [charQuotationMark])

def formatMembers (separator : Str) (member : Nat → Option Str) : Nat → Nat → Option Str
  | 0, _ => some []
  | k + 1, i =>
    match member i with
    | none => none
    | some s =>
      match formatMembers separator member k (i + 1) with
      | none => none
      | some rest => some ((if 0 < i then separator else []) ++ (s ++ rest))

def separator (pretty : Bool) : Str := if pretty then [charComma, 10] else [charComma]

def deeper (pretty : Bool) (indent : Str) : Str := if pretty then indent ++ [9] else indent

def lead (pretty : Bool) (indent : Str) : Str := if pretty then deeper pretty indent else []

def enclose (pretty : Bool) (indent : Str) (openByte closeByte : UInt8) (s : Str) : Str :=
  if pretty then openByte :: 10 :: (s ++ (10 :: (indent ++ [closeByte])))
  else openByte :: (s ++ [closeByte])

def arrayMember (pretty : Bool) (indent : Str) (element : Nat → Option Str) (i : Nat) :
    Option Str :=
  (element i).map (lead pretty indent ++ ·)

def formatArray (pretty : Bool) (indent : Str) (n : Nat) (element : Nat → Option Str) :
    Option Str :=
  if n = 0 then some [charOpenBracket, charCloseBracket]
  else
    (formatMembers (separator pretty) (arrayMember pretty indent element) n 0).map
      (enclose pretty indent charOpenBracket charCloseBracket)

def colon (pretty : Bool) : Str := if pretty then str " : " else str ":"

def objectMember (pretty : Bool) (indent : Str) (element : Nat → Option Str) (i : Nat) :
    Option Str :=
  match element (2 * i), element (2 * i + 1) with
  | some k, some v => some (lead pretty indent ++ (k ++ (colon pretty ++ v)))
  | _, _ => none

def formatObject (pretty : Bool) (indent : Str) (n : Nat) (element : Nat → Option Str) :
    Option Str :=
  if n = 0 then some [charOpenBrace, charCloseBrace]
  else
    (formatMembers (separator pretty) (objectMember pretty indent element) ((n + 1) / 2) 0).map
      (enclose pretty indent charOpenBrace charCloseBrace)

theorem sizeOf_dereference_le : ∀ v : JsonVariant, sizeOf (jsonVariantDereference v) ≤ sizeOf v
  | .reference _ v => by
    rw [jsonVariantDereference, JsonVariant.reference.sizeOf_spec]
    have h := sizeOf_dereference_le v
    omega
  | .magic _ | .integer _ | .unsigned _ | .boolean _ | .null | .string _ | .array _ _
  | .object _ _ => le_refl _

theorem sizeOf_normalize_le (v : JsonVariant) : sizeOf (jsonVariantNormalize v) ≤ sizeOf v + 1 := by
  have hmagic : ∀ m : MagicVariant, sizeOf (JsonVariant.magic m) ≤ sizeOf v + 1 := by
    intro m
    have hpos : 1 ≤ sizeOf v := by cases v <;> simp <;> omega
    cases m <;> simp <;> omega
  have hself := (sizeOf_dereference_le v).trans (Nat.le_succ _)
  unfold jsonVariantNormalize
  dsimp only
  split <;> first | exact hmagic _ | (split <;> first | exact hmagic _ | exact hself)

theorem sizeOf_conservativeNormalize_le (v : JsonVariant) :
    sizeOf (jsonVariantConservativeNormalize v) ≤ sizeOf v + 1 := by
  unfold jsonVariantConservativeNormalize
  split
  · exact Nat.le_succ _
  · exact sizeOf_normalize_le v

theorem sizeOf_element_lt {es : List JsonVariant} {e : JsonVariant} {i : Nat}
    (h : es[i]?.map jsonVariantConservativeNormalize = some e) : sizeOf e < sizeOf es + 1 := by
  obtain ⟨x, hx, rfl⟩ := Option.map_eq_some_iff.mp h
  have hlt := List.sizeOf_lt_of_mem (List.mem_of_getElem? hx)
  have hle := sizeOf_conservativeNormalize_le x
  omega

theorem sizeOf_byIndex_lt : ∀ {v e : JsonVariant} {i : Nat}, jsonVariantByIndex v i = some e →
    sizeOf e < sizeOf v
  | .array depth es, e, i, h => by
    have hlt := sizeOf_element_lt h
    rw [JsonVariant.array.sizeOf_spec]
    omega
  | .object depth es, e, i, h => by
    have hlt := sizeOf_element_lt h
    rw [JsonVariant.object.sizeOf_spec]
    omega
  | .reference .array v, e, i, h => by
    have hlt := sizeOf_byIndex_lt (v := v) h
    rw [JsonVariant.reference.sizeOf_spec]
    omega
  | .reference .object v, e, i, h => by
    have hlt := sizeOf_byIndex_lt (v := v) h
    rw [JsonVariant.reference.sizeOf_spec]
    omega

/-- `json_format`; there is no text where an assertion fails. -/
def jsonFormat (pretty : Bool) (indent : Str) (v : JsonVariant) : Option Str :=
  match jsonVariantType v with
  | .integer => some (signedDecimal (jsonVariantInteger v))
  | .unsigned => some (decimal (jsonVariantUnsigned v))
  | .boolean => some (if jsonVariantBoolean v then str "true" else str "false")
  | .null => some (str "null")
  | .string => (jsonVariantString v).map quoted
  | .array =>
    formatArray pretty indent (jsonVariantElements v) fun i =>
      match h : jsonVariantByIndex v i with
      | none => none
      | some e =>
        have := sizeOf_byIndex_lt h
        jsonFormat pretty (deeper pretty indent) e
  | .object =>
    formatObject pretty indent (jsonVariantElements v) fun i =>
      match h : jsonVariantByIndex v i with
      | none => none
      | some e =>
        have := sizeOf_byIndex_lt h
        jsonFormat pretty (deeper pretty indent) e
termination_by sizeOf v

def formatNode (pretty : Bool) (indent : Str) (text : JsonVariant → Option Str) (v : JsonVariant) :
    Option Str :=
  match jsonVariantType v with
  | .integer => some (signedDecimal (jsonVariantInteger v))
  | .unsigned => some (decimal (jsonVariantUnsigned v))
  | .boolean => some (if jsonVariantBoolean v then str "true" else str "false")
  | .null => some (str "null")
  | .string => (jsonVariantString v).map quoted
  | .array =>
    formatArray pretty indent (jsonVariantElements v) fun i => (jsonVariantByIndex v i).bind text
  | .object =>
    formatObject pretty indent (jsonVariantElements v) fun i => (jsonVariantByIndex v i).bind text

theorem jsonFormat_eq (pretty : Bool) (indent : Str) (v : JsonVariant) :
    jsonFormat pretty indent v =
      formatNode pretty indent (jsonFormat pretty (deeper pretty indent)) v := by
  have hbind : ∀ i, (match h : jsonVariantByIndex v i with
      | none => none
      | some e => jsonFormat pretty (deeper pretty indent) e) =
      (jsonVariantByIndex v i).bind (jsonFormat pretty (deeper pretty indent)) := by
    intro i
    split <;> rename_i h <;> rw [h] <;> rfl
  rw [jsonFormat, formatNode]
  simp only [hbind]

end Basu
