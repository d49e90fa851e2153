import Basu.Address.Parse

/-! Values that `bus_address_escape` wrote come back from `parse_address_key`. -/

namespace Basu
open Lib

def isAddressPlain (c : UInt8) : Bool :=
  isDigit c || isLetter c || c = charUnderscore || c = charDash || c = charSlash || c = charDot

def busAddressEscape (v : Str) : Str :=
  v.flatMap fun c => if isAddressPlain c then [c] else charPercent :: hexPair c

def endsAddressValue (c : UInt8) : Prop := c = charComma ∨ c = charSemicolon ∨ c = 0

theorem not_ends_of_plain {c : UInt8} (h : isAddressPlain c = true) :
    ¬endsAddressValue c ∧ c ≠ charPercent := by
  unfold isAddressPlain isDigit isLetter at h
  unfold endsAddressValue
  unfold charUnderscore charDash charSlash charDot at h
  unfold charComma charSemicolon charPercent
  grind

theorem not_ends_hexchar {x : UInt8} (h : x < 16) : ¬endsAddressValue (hexchar x) := by
  unfold endsAddressValue hexchar charComma charSemicolon
  grind

theorem busAddressEscape_cons (c : UInt8) (v : Str) :
    busAddressEscape (c :: v) =
      (if isAddressPlain c then [c] else charPercent :: hexPair c) ++ busAddressEscape v :=
  List.flatMap_cons

theorem busAddressEscape_clean (v : Str) : ∀ c ∈ busAddressEscape v, ¬endsAddressValue c := by
  intro c hc
  obtain ⟨x, -, hx⟩ := List.mem_flatMap.mp hc
  split_ifs at hx with hplain
  · rw [List.mem_singleton.mp hx]
    exact (not_ends_of_plain hplain).1
  · rcases List.mem_cons.mp hx with rfl | hx
    · simp [endsAddressValue, charPercent, charComma, charSemicolon]
    · rcases List.mem_pair.mp hx with rfl | rfl
      · exact not_ends_hexchar (shiftRight_four_lt x)
      · exact not_ends_hexchar (and_fifteen_lt x)

theorem addressValue_plain {c : UInt8} (h : isAddressPlain c = true) (a : Str) :
    addressValue (c :: a) = (addressValue a).map fun r => (c :: r.1, r.2) := by
  obtain ⟨hend, hpercent⟩ := not_ends_of_plain h
  exact addressValue_other (fun h => hend (h.elim (fun h => Or.inr (Or.inl h)) Or.inl)) hpercent a

theorem addressValue_escaped (c : UInt8) (a : Str) :
    addressValue (charPercent :: (hexPair c ++ a)) =
      (addressValue a).map fun r => (c :: r.1, r.2) := by
  unfold hexPair
  rw [List.cons_append, List.cons_append, List.nil_append, addressValue_percent,
    unhexchar_hexchar (shiftRight_four_lt c), unhexchar_hexchar (and_fifteen_lt c)]
  dsimp only
  rw [nibbles]

theorem addressValue_escape (v rest : Str) (h : addressValue rest = .ok ([], rest)) :
    addressValue (busAddressEscape v ++ rest) = .ok (v, rest) := by
  induction v with
  | nil => exact h
  | cons c v ih =>
    rw [busAddressEscape_cons, List.append_assoc]
    split_ifs with hplain
    · rw [List.singleton_append, addressValue_plain hplain, ih]
      rfl
    · rw [List.cons_append, addressValue_escaped, ih]
      rfl

/-- An escaped value holds nothing that could end it, and behind its key it is read back as it was,
up to the character that does end it; a comma is taken as well. -/
theorem escape_round_trip (v : Str) (h : (0 : UInt8) ∉ v) :
    (∀ c ∈ busAddressEscape v, ¬endsAddressValue c) ∧
    ∀ rest : Str, (rest = [] ∨ ∃ t, rest = charComma :: t ∨ rest = charSemicolon :: t) →
      addressValue (busAddressEscape v ++ rest) = .ok (v, rest) ∧
      ∀ key : Str, parseAddressKey (key ++ charEquals :: (busAddressEscape v ++ rest)) (some key)
        none = .ok (some (if charAt rest 0 = charComma then rest.drop 1 else rest, v)) := by
  refine ⟨busAddressEscape_clean v, fun rest hrest => ?_⟩
  have hstop : addressValue rest = .ok ([], rest) := by
    rcases hrest with rfl | ⟨t, rfl | rfl⟩
    · exact addressValue_nil
    · exact addressValue_end (Or.inr rfl) t
    · exact addressValue_end (Or.inl rfl) t
  have hvalue := addressValue_escape v rest hstop
  refine ⟨hvalue, fun key => ?_⟩
  have hdrop : (key ++ charEquals :: (busAddressEscape v ++ rest)).drop (key.length + 1) =
      busAddressEscape v ++ rest := by
    rw [List.drop_length_add_append, List.drop_succ_cons, List.drop_zero]
  unfold parseAddressKey addressKeyValue
  dsimp only
  rw [isPrefixOf_append_self, if_neg (by simp), charAt_append_length, if_neg (fun h => h rfl),
    if_neg (by simp), hdrop, hvalue]
  dsimp only [Except.map]
  rw [cString_of_clean h]

theorem escape_round_trip_percent :
    parseAddressKey ([107] ++ charEquals :: (busAddressEscape [53, 48, 37, 59] ++ [59])) (some [107])
      none = .ok (some ([59], [53, 48, 37, 59])) :=
  ((escape_round_trip [53, 48, 37, 59] (by decide)).2 [59] (Or.inr ⟨[], Or.inr rfl⟩)).2 [107]

end Basu
