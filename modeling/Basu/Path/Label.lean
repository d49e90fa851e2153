import Basu.Address.Parse
import Basu.Names.Grammar

/-! Labels of object paths (`bus-label.c`): any string is escaped to an element of a path, and comes
back when that is unescaped. -/

namespace Basu
open Lib

def isLabelPlain (first : Bool) (c : UInt8) : Bool := isLetter c || (!first && isDigit c)

def labelChar (first : Bool) (c : UInt8) : Str :=
  if isLabelPlain first c then [c] else charUnderscore :: hexPair c

def busLabelEscape : Str → Str
  | [] => [charUnderscore]
  | c :: s => labelChar true c ++ s.flatMap (labelChar false)

def labelCode : Str → Option UInt8
  | a :: b :: _ => (unhexchar a).bind fun x => (unhexchar b).map fun y => x <<< 4 ||| y
  | _ => none

/-- The loop of `bus_label_unescape_n`, with the number of characters that were read ahead. An
underscore without two digits behind it is taken as it is. -/
def labelUnescapeLoop : Nat → Str → Str
  | _, [] => []
  | n + 1, _ :: f => labelUnescapeLoop n f
  | 0, c :: f =>
    if c = charUnderscore then
      match labelCode f with
      | some x => x :: labelUnescapeLoop 2 f
      | none => charUnderscore :: labelUnescapeLoop 0 f
    else c :: labelUnescapeLoop 0 f

/-- `bus_label_unescape_n`, of the string itself; what it returns is a string of C. -/
def busLabelUnescapeN (f : Str) : Str :=
  if f = [charUnderscore] then [] else cString (labelUnescapeLoop 0 f)

theorem labelUnescapeLoop_plain {c : UInt8} (h : c ≠ charUnderscore) (f : Str) :
    labelUnescapeLoop 0 (c :: f) = c :: labelUnescapeLoop 0 f := by
  rw [labelUnescapeLoop, if_neg h]

theorem labelCode_hexPair (c : UInt8) (f : Str) : labelCode (hexPair c ++ f) = some c := by
  unfold hexPair
  rw [List.cons_append, List.cons_append, List.nil_append, labelCode,
    unhexchar_hexchar (shiftRight_four_lt c), unhexchar_hexchar (and_fifteen_lt c),
    Option.bind_some, Option.map_some, nibbles]

theorem labelUnescapeLoop_hexPair (c : UInt8) (f : Str) :
    labelUnescapeLoop 0 (charUnderscore :: (hexPair c ++ f)) = c :: labelUnescapeLoop 0 f := by
  rw [labelUnescapeLoop, if_pos rfl, labelCode_hexPair]
  rfl

theorem ne_underscore_of_plain {first : Bool} {c : UInt8} (h : isLabelPlain first c = true) :
    c ≠ charUnderscore ∧ isWordChar c = true := by
  unfold isLabelPlain isLetter isDigit at h
  unfold isWordChar isLetter isDigit charUnderscore
  grind

theorem isWordChar_hexchar {x : UInt8} (h : x < 16) : isWordChar (hexchar x) = true := by
  unfold isWordChar isLetter isDigit hexchar
  simp only [Bool.or_eq_true, Bool.and_eq_true, decide_eq_true_eq]
  grind

theorem labelChar_word (first : Bool) (c : UInt8) : ∀ x ∈ labelChar first c, isWordChar x = true := by
  intro x hx
  unfold labelChar at hx
  split_ifs at hx with hplain
  · rw [List.mem_singleton.mp hx]
    exact (ne_underscore_of_plain hplain).2
  · rcases List.mem_cons.mp hx with rfl | hx
    · rfl
    · rcases List.mem_pair.mp hx with rfl | rfl
      · exact isWordChar_hexchar (shiftRight_four_lt c)
      · exact isWordChar_hexchar (and_fifteen_lt c)

theorem labelChar_ne_nil (first : Bool) (c : UInt8) : labelChar first c ≠ [] := by
  unfold labelChar
  split_ifs <;> simp

theorem labelUnescapeLoop_labelChar (first : Bool) (c : UInt8) (f : Str) :
    labelUnescapeLoop 0 (labelChar first c ++ f) = c :: labelUnescapeLoop 0 f := by
  unfold labelChar
  split_ifs with hplain
  · exact labelUnescapeLoop_plain (ne_underscore_of_plain hplain).1 f
  · exact labelUnescapeLoop_hexPair c f

theorem labelUnescapeLoop_flatMap (s : Str) :
    labelUnescapeLoop 0 (s.flatMap (labelChar false)) = s := by
  induction s with
  | nil => rfl
  | cons c s ih => rw [List.flatMap_cons, labelUnescapeLoop_labelChar, ih]

theorem busLabelEscape_element (s : Str) : NameElement isWordChar true (busLabelEscape s) := by
  cases s with
  | nil => exact ⟨by simp [busLabelEscape], by decide +kernel, fun h => by simp at h⟩
  | cons c s =>
    refine ⟨?_, ?_, fun h => by simp at h⟩
    · intro h
      exact labelChar_ne_nil true c (List.append_eq_nil_iff.mp h).1
    · intro x hx
      rcases List.mem_append.mp hx with hx | hx
      · exact labelChar_word true c x hx
      · obtain ⟨d, -, hd⟩ := List.mem_flatMap.mp hx
        exact labelChar_word false d x hd

theorem busLabelEscape_ne_underscore (c : UInt8) (s : Str) :
    busLabelEscape (c :: s) ≠ [charUnderscore] := by
  intro h
  rw [busLabelEscape, labelChar] at h
  split_ifs at h with hplain
  · exact (ne_underscore_of_plain hplain).1 (List.cons.inj h).1
  · have hlen := congrArg List.length h
    simp [hexPair] at hlen

theorem busLabelUnescapeN_escape {s : Str} (h0 : (0 : UInt8) ∉ s) :
    busLabelUnescapeN (busLabelEscape s) = s := by
  cases s with
  | nil => rfl
  | cons c s =>
    unfold busLabelUnescapeN
    rw [if_neg (busLabelEscape_ne_underscore c s), busLabelEscape, labelUnescapeLoop_labelChar,
      labelUnescapeLoop_flatMap, cString_of_clean h0]

theorem busLabelEscape_inj {s t : Str} (hs : (0 : UInt8) ∉ s) (ht : (0 : UInt8) ∉ t)
    (h : busLabelEscape s = busLabelEscape t) : s = t := by
  rw [← busLabelUnescapeN_escape hs, h, busLabelUnescapeN_escape ht]

theorem NameElement.no_zero {digitFirst : Bool} {e : Str}
    (h : NameElement isWordChar digitFirst e) : (0 : UInt8) ∉ e := fun hmem =>
  absurd (h.chars _ hmem) (by decide)

end Basu
