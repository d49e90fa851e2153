import Basu.Json.Format
import Basu.Lib.Json
import Basu.Names.Utf8

/-! What `json_format` writes is a JSON text, and it is that of the tree that was put together. -/

namespace Basu
open Lib Lib.Json

mutual

inductive Built (inlineMax : Nat) : JsonVariant → Json → Prop
  | null : Built inlineMax jsonVariantNewNull .null
  | boolean (b : Bool) : Built inlineMax (jsonVariantNewBoolean b) (.bool b)
  | integer (i : Int) : Built inlineMax (jsonVariantNewInteger i) (.number i)
  | unsigned (u : Nat) : Built inlineMax (jsonVariantNewUnsigned u) (.number u)
  | noString : Built inlineMax (jsonVariantNewStringn none) .null
  | string {cs : List Char} (h0 : Char.ofNat 0 ∉ cs) :
      Built inlineMax (jsonVariantNewStringn (some (utf8 cs))) (.string cs)
  | array {v : JsonVariant} {vs : List JsonVariant} {ts : List Json}
      (h : BuiltElements inlineMax vs ts) (hnew : jsonVariantNewArray inlineMax vs = .ok v) :
      Built inlineMax v (.array ts)
  | object {v : JsonVariant} {vs : List JsonVariant} {ms : List (List Char × Json)}
      (h : BuiltMembers inlineMax vs ms) (hnew : jsonVariantNewObject inlineMax vs = .ok v) :
      Built inlineMax v (.object ms)

inductive BuiltElements (inlineMax : Nat) : List JsonVariant → List Json → Prop
  | nil : BuiltElements inlineMax [] []
  | cons {v : JsonVariant} {t : Json} {vs : List JsonVariant} {ts : List Json}
      (h : Built inlineMax v t) (hs : BuiltElements inlineMax vs ts) :
      BuiltElements inlineMax (v :: vs) (t :: ts)

inductive BuiltMembers (inlineMax : Nat) : List JsonVariant → List (List Char × Json) → Prop
  | nil : BuiltMembers inlineMax [] []
  | cons {k v : JsonVariant} {cs : List Char} {t : Json} {vs : List JsonVariant}
      {ms : List (List Char × Json)} (hk : Built inlineMax k (.string cs)) (h : Built inlineMax v t)
      (hs : BuiltMembers inlineMax vs ms) : BuiltMembers inlineMax (k :: v :: vs) ((cs, t) :: ms)

end

mutual

inductive StandsFor : JsonVariant → Json → Prop
  | magicNull : StandsFor (.magic .null) .null
  | magicTrue : StandsFor (.magic .true) (.bool true)
  | magicFalse : StandsFor (.magic .false) (.bool false)
  | zeroInteger : StandsFor (.magic .zeroInteger) (.number (0 : Int))
  | zeroUnsigned : StandsFor (.magic .zeroUnsigned) (.number (0 : Nat))
  | emptyString : StandsFor (.magic .emptyString) (.string [])
  | emptyArray : StandsFor (.magic .emptyArray) (.array [])
  | emptyObject : StandsFor (.magic .emptyObject) (.object [])
  | null : StandsFor .null .null
  | boolean (b : Bool) : StandsFor (.boolean b) (.bool b)
  | integer (i : Int) : StandsFor (.integer i) (.number i)
  | unsigned (u : Nat) : StandsFor (.unsigned u) (.number u)
  | string (cs : List Char) : StandsFor (.string (utf8 cs)) (.string cs)
  | array {depth : Nat} {es : List JsonVariant} {ts : List Json} (h : ElementsFor es ts) :
      StandsFor (.array depth es) (.array ts)
  | object {depth : Nat} {es : List JsonVariant} {ms : List (List Char × Json)}
      (h : MembersFor es ms) : StandsFor (.object depth es) (.object ms)
  | reference {type : JsonVariantType} {v : JsonVariant} {t : Json} (h : StandsFor v t)
      (htype : jsonVariantType v = type) (hkind : type = .string ∨ type = .array ∨ type = .object) :
      StandsFor (.reference type v) t

inductive ElementsFor : List JsonVariant → List Json → Prop
  | nil : ElementsFor [] []
  | cons {v : JsonVariant} {t : Json} {vs : List JsonVariant} {ts : List Json} (h : StandsFor v t)
      (hs : ElementsFor vs ts) : ElementsFor (v :: vs) (t :: ts)

inductive MembersFor : List JsonVariant → List (List Char × Json) → Prop
  | nil : MembersFor [] []
  | cons {k v : JsonVariant} {cs : List Char} {t : Json} {vs : List JsonVariant}
      {ms : List (List Char × Json)} (hk : StandsFor k (.string cs)) (h : StandsFor v t)
      (hs : MembersFor vs ms) : MembersFor (k :: v :: vs) ((cs, t) :: ms)

end

/-! ## The ways to keep a value -/

theorem utf8EncodeChar_ne_nil (c : Char) : String.utf8EncodeChar c ≠ [] := by
  rw [utf8EncodeChar_eq]
  exact shortest_ne_nil _

theorem utf8_eq_nil {cs : List Char} (h : utf8 cs = []) : cs = [] := by
  cases cs with
  | nil => rfl
  | cons c cs => exact absurd (List.append_eq_nil_iff.mp h).1 (utf8EncodeChar_ne_nil c)

theorem dereference_ne_reference : ∀ (v : JsonVariant) (type : JsonVariantType) (w : JsonVariant),
    jsonVariantDereference v ≠ .reference type w
  | .reference _ v, type, w => dereference_ne_reference v type w
  | .magic _, _, _ | .integer _, _, _ | .unsigned _, _, _ | .boolean _, _, _ | .null, _, _
  | .string _, _, _ | .array _ _, _, _ | .object _ _, _, _ => nofun

theorem StandsFor.dereference {v : JsonVariant} : ∀ {t : Json}, StandsFor v t →
    StandsFor (jsonVariantDereference v) t := by
  induction v using jsonVariantDereference.induct with
  | case1 _ v ih =>
    intro t h
    cases h with
    | reference h => exact ih h
  | case2 v hv =>
    intro t h
    unfold jsonVariantDereference
    split
    · exact absurd rfl (hv _ _)
    · exact h

theorem ElementsFor.length {es : List JsonVariant} : ∀ {ts : List Json}, ElementsFor es ts →
    es.length = ts.length := by
  induction es with
  | nil => exact fun h => by cases h; rfl
  | cons e es ih => exact fun h => by cases h with | cons _ hs => exact congrArg (· + 1) (ih hs)

theorem type_normalize (v : JsonVariant) :
    jsonVariantType (jsonVariantNormalize v) = jsonVariantType (jsonVariantDereference v) := by
  unfold jsonVariantNormalize
  dsimp only
  split <;> rename_i htype <;> rw [htype] <;> first | rfl | (split <;> first | rfl | exact htype)

theorem StandsFor.normalize {v : JsonVariant} {t : Json} (h : StandsFor v t) :
    StandsFor (jsonVariantNormalize v) t := by
  have hb := h.dereference
  have hne := dereference_ne_reference v
  unfold jsonVariantNormalize
  generalize jsonVariantDereference v = b at hb hne
  cases hb with
  | magicNull => exact .magicNull
  | magicTrue => exact .magicTrue
  | magicFalse => exact .magicFalse
  | zeroInteger => exact .zeroInteger
  | zeroUnsigned => exact .zeroUnsigned
  | emptyString => exact .emptyString
  | emptyArray => exact .emptyArray
  | emptyObject => exact .emptyObject
  | null => exact .magicNull
  | boolean b =>
    cases b with
    | true => exact .magicTrue
    | false => exact .magicFalse
  | integer i =>
    change StandsFor (if i = 0 then .magic .zeroInteger else .integer i) _
    by_cases h0 : i = 0
    · rw [if_pos h0, h0]
      exact .zeroInteger
    · rw [if_neg h0]
      exact .integer i
  | unsigned u =>
    change StandsFor (if u = 0 then .magic .zeroUnsigned else .unsigned u) _
    by_cases h0 : u = 0
    · rw [if_pos h0, h0]
      exact .zeroUnsigned
    · rw [if_neg h0]
      exact .unsigned u
  | string cs =>
    change StandsFor (if utf8 cs = [] then .magic .emptyString else .string (utf8 cs)) _
    by_cases h0 : utf8 cs = []
    · rw [if_pos h0, utf8_eq_nil h0]
      exact .emptyString
    · rw [if_neg h0]
      exact .string cs
  | @array depth es ts hes =>
    change StandsFor (if es.length = 0 then .magic .emptyArray else .array depth es) _
    by_cases h0 : es.length = 0
    · rw [if_pos h0, List.length_eq_zero_iff.mp (hes.length.symm.trans h0)]
      exact .emptyArray
    · rw [if_neg h0]
      exact .array hes
  | @object depth es ms hes =>
    change StandsFor (if es.length = 0 then .magic .emptyObject else .object depth es) _
    by_cases h0 : es.length = 0
    · rw [if_pos h0]
      cases hes with
      | nil => exact .emptyObject
      | cons => exact absurd h0 (Nat.succ_ne_zero _)
    · rw [if_neg h0]
      exact .object hes
  | @reference type v => exact absurd rfl (hne type v)

theorem StandsFor.conservativeNormalize {v : JsonVariant} {t : Json} (h : StandsFor v t) :
    StandsFor (jsonVariantConservativeNormalize v) t := by
  unfold jsonVariantConservativeNormalize
  split
  · exact h
  · exact h.normalize

theorem dereference_dereference : ∀ v : JsonVariant,
    jsonVariantDereference (jsonVariantDereference v) = jsonVariantDereference v
  | .reference _ v => dereference_dereference v
  | .magic _ | .integer _ | .unsigned _ | .boolean _ | .null | .string _ | .array _ _
  | .object _ _ => rfl

theorem type_conservativeNormalize (v : JsonVariant) :
    jsonVariantType (jsonVariantConservativeNormalize (jsonVariantDereference v)) =
      jsonVariantType (jsonVariantDereference v) := by
  unfold jsonVariantConservativeNormalize
  split
  · rename_i heq
    rw [heq]
  · rw [type_normalize, dereference_dereference]

theorem StandsFor.set {v : JsonVariant} {t : Json} (h : StandsFor v t) (inlineMax : Nat) :
    StandsFor (jsonVariantSet inlineMax v) t := by
  have hb := h.dereference
  have hne := dereference_ne_reference v
  have hkept := hb.conservativeNormalize
  have htype := type_conservativeNormalize v
  unfold jsonVariantSet
  generalize jsonVariantDereference v = b at hb hne hkept htype
  cases hb with
  | magicNull => exact .null
  | magicTrue => exact .boolean true
  | magicFalse => exact .boolean false
  | zeroInteger => exact .integer 0
  | zeroUnsigned => exact .unsigned 0
  | emptyString => exact .string []
  | emptyArray => exact .reference hkept htype (.inr (.inl rfl))
  | emptyObject => exact .reference hkept htype (.inr (.inr rfl))
  | null => exact .null
  | boolean b => exact .boolean b
  | integer i => exact .integer i
  | unsigned u => exact .unsigned u
  | string cs =>
    change StandsFor (if (utf8 cs).length ≤ inlineMax then .string (utf8 cs)
      else .reference .string (jsonVariantConservativeNormalize (.string (utf8 cs)))) _
    by_cases h : (utf8 cs).length ≤ inlineMax
    · rw [if_pos h]
      exact .string cs
    · rw [if_neg h]
      exact .reference hkept htype (.inl rfl)
  | array h => exact .reference hkept htype (.inr (.inl rfl))
  | object h => exact .reference hkept htype (.inr (.inr rfl))
  | @reference type v => exact absurd rfl (hne type v)

/-! ## What is put together -/

theorem elementsLoop_ok {inlineMax : Nat} {isObject : Bool} :
    ∀ {vs : List JsonVariant} {i depth depth' : Nat} {es : List JsonVariant},
      elementsLoop inlineMax isObject i depth vs = .ok (depth', es) →
        es = vs.map (jsonVariantSet inlineMax)
  | [], i, depth, depth', es, h => (Prod.mk.inj (Except.ok.inj h)).2.symm
  | c :: vs, i, depth, depth', es, h => by
    simp only [elementsLoop] at h
    split at h
    · exact absurd h nofun
    · split at h
      · exact absurd h nofun
      · split at h
        · exact absurd h nofun
        · rename_i hloop
          rw [← (Prod.mk.inj (Except.ok.inj h)).2, elementsLoop_ok hloop]
          rfl

theorem high_of_mem_utf8EncodeChar {c : Char} (hc : ¬c.toNat < 0x80) {b : UInt8}
    (hb : b ∈ String.utf8EncodeChar c) : 128 ≤ b.toNat := by
  have hvalid : c.toNat < 0x110000 := by
    obtain h | h := c.valid
    · exact lt_trans h (by decide)
    · exact h.2
  rw [utf8EncodeChar_eq, shortest, if_neg hc] at hb
  obtain ⟨hlen, hcap⟩ := encodedLen_spec hvalid hc
  rw [← high_bit_iff]
  obtain rfl | hb := List.mem_cons.mp hb
  · exact high_of_expected (lead_byte hlen hcap).1 hlen.1
  · exact high_of_mem_tailBytes hb

theorem utf8EncodeChar_ascii {c : Char} (hc : c.toNat < 0x80) :
    String.utf8EncodeChar c = [c.toNat.toUInt8] := by
  rw [utf8EncodeChar_eq, shortest, if_pos hc]

theorem zero_not_mem_utf8 {cs : List Char} (h : Char.ofNat 0 ∉ cs) : (0 : UInt8) ∉ utf8 cs := by
  intro hmem
  obtain ⟨c, hc, hb⟩ := List.mem_flatMap.mp hmem
  by_cases hascii : c.toNat < 0x80
  · rw [utf8EncodeChar_ascii hascii, List.mem_singleton] at hb
    have hzero := congrArg UInt8.toNat hb
    rw [Nat.toUInt8, UInt8.toNat_ofNat', UInt8.toNat_zero, Nat.mod_eq_of_lt (by omega)] at hzero
    rw [← Char.ofNat_toNat c, ← hzero] at hc
    exact h hc
  · exact absurd (high_of_mem_utf8EncodeChar hascii hb) (by decide)

mutual

theorem Built.standsFor {inlineMax : Nat} : ∀ {v : JsonVariant} {t : Json}, Built inlineMax v t →
    StandsFor v t
  | _, _, .null => .magicNull
  | _, _, .boolean true => .magicTrue
  | _, _, .boolean false => .magicFalse
  | _, _, .integer i => by
    by_cases h0 : i = 0
    · rw [jsonVariantNewInteger, if_pos h0, h0]
      exact .zeroInteger
    · rw [jsonVariantNewInteger, if_neg h0]
      exact .integer i
  | _, _, .unsigned u => by
    by_cases h0 : u = 0
    · rw [jsonVariantNewUnsigned, if_pos h0, h0]
      exact .zeroUnsigned
    · rw [jsonVariantNewUnsigned, if_neg h0]
      exact .unsigned u
  | _, _, .noString => .magicNull
  | _, _, @Built.string _ cs h0 => by
    by_cases hnil : utf8 cs = []
    · rw [jsonVariantNewStringn, if_pos hnil, utf8_eq_nil hnil]
      exact .emptyString
    · rw [jsonVariantNewStringn, if_neg hnil, List.takeWhile_eq_self_iff.mpr]
      · exact .string cs
      · exact fun b hb => by simpa using fun hb0 : b = 0 => zero_not_mem_utf8 h0 (hb0 ▸ hb)
  | v, _, .array h hnew => by
    have hes := h.elementsFor
    unfold jsonVariantNewArray at hnew
    split at hnew
    · rename_i hnil
      subst hnil
      obtain rfl := Except.ok.inj hnew
      cases hes
      exact .emptyArray
    · cases hloop : elementsLoop inlineMax false 0 0 _ with
      | error e => rw [hloop] at hnew; exact absurd hnew nofun
      | ok r =>
        rw [hloop] at hnew
        obtain rfl := Except.ok.inj hnew
        rw [← elementsLoop_ok hloop] at hes
        exact .array hes
  | v, _, .object h hnew => by
    have hes := h.membersFor
    unfold jsonVariantNewObject at hnew
    split at hnew
    · rename_i hnil
      subst hnil
      obtain rfl := Except.ok.inj hnew
      cases hes
      exact .emptyObject
    · split at hnew
      · exact absurd hnew nofun
      · cases hloop : elementsLoop inlineMax true 0 0 _ with
        | error e => rw [hloop] at hnew; exact absurd hnew nofun
        | ok r =>
          rw [hloop] at hnew
          obtain rfl := Except.ok.inj hnew
          rw [← elementsLoop_ok hloop] at hes
          exact .object hes

theorem BuiltElements.elementsFor {inlineMax : Nat} : ∀ {vs : List JsonVariant} {ts : List Json},
    BuiltElements inlineMax vs ts → ElementsFor (vs.map (jsonVariantSet inlineMax)) ts
  | _, _, .nil => .nil
  | _, _, .cons h hs => .cons (h.standsFor.set inlineMax) hs.elementsFor

theorem BuiltMembers.membersFor {inlineMax : Nat} :
    ∀ {vs : List JsonVariant} {ms : List (List Char × Json)},
      BuiltMembers inlineMax vs ms → MembersFor (vs.map (jsonVariantSet inlineMax)) ms
  | _, _, .nil => .nil
  | _, _, .cons hk h hs =>
    .cons (hk.standsFor.set inlineMax) (h.standsFor.set inlineMax) hs.membersFor

end

/-! ## Texts of values without elements -/

theorem utf8_ascii : ∀ {s : List Char}, (∀ c ∈ s, c.toNat < 0x80) →
    utf8 s = s.map fun c => c.toNat.toUInt8
  | [], _ => rfl
  | c :: s, h => by
    have htail := utf8_ascii fun d hd => h d (List.mem_cons_of_mem c hd)
    rw [utf8] at htail
    rw [utf8, List.flatMap_cons, utf8EncodeChar_ascii (h c List.mem_cons_self), htail]
    rfl

theorem toDigits_head {n : Nat} : 0 < n → (Nat.toDigits 10 n).head? ≠ some '0' := by
  induction n using Nat.strong_induction_on with
  | _ n ih =>
    intro hn
    by_cases hlt : n < 10
    · have hdigit : ∀ m < 10, 0 < m → [m.digitChar].head? ≠ some '0' := by decide
      rw [Nat.toDigits_of_lt_base hlt]
      exact hdigit n hlt hn
    · have hhead := ih (n / 10) (by omega) (by omega)
      rw [Nat.toDigits_of_base_le (by decide) (not_lt.mp hlt)]
      cases hds : Nat.toDigits 10 (n / 10) with
      | nil => exact absurd hds Nat.toDigits_ne_nil
      | cons c cs =>
        rw [hds] at hhead
        exact hhead

theorem intDigits_toDigits (n : Nat) : IntDigits (Nat.toDigits 10 n) := by
  refine ⟨⟨Nat.toDigits_ne_nil, fun c hc =>
    Nat.isDigit_of_mem_toDigits (by decide) (by decide) hc⟩, fun h0 => ?_⟩
  by_cases hn : n = 0
  · rw [hn]
    exact Nat.toDigits_zero 10
  · exact absurd h0 (toDigits_head (Nat.pos_of_ne_zero hn))

theorem isDigit_lt {c : Char} (h : c.isDigit) : c.toNat < 0x80 := by
  have hle : c.toNat ≤ 57 := by
    rw [Char.isDigit, Bool.and_eq_true, decide_eq_true_iff, decide_eq_true_iff] at h
    exact h.2
  omega

theorem decimal_eq (n : Nat) : decimal n = utf8 (Nat.toDigits 10 n) :=
  (utf8_ascii fun _ hc => isDigit_lt ((intDigits_toDigits n).1.2 _ hc)).symm

theorem signedDecimal_number (i : Int) : ∃ cs, signedDecimal i = utf8 cs ∧ Number i cs := by
  have hvalue : digitsValue (Nat.toDigits 10 i.natAbs) = i.natAbs := Nat.ofDigitChars_ten_toDigits
  have hdigits := intDigits_toDigits i.natAbs
  by_cases hneg : i < 0
  · have hnumber := @Number.mk true _ _ _ _ _ hdigits .absent .absent
    have habs := congrArg (Int.cast : ℤ → ℚ) (Int.ofNat_natAbs_of_nonpos hneg.le)
    rw [Int.cast_natCast, Int.cast_neg] at habs
    rw [hvalue, numberValue, habs, if_pos rfl, add_zero, mul_one, neg_one_mul, neg_neg] at hnumber
    refine ⟨_, ?_, hnumber⟩
    rw [signedDecimal, if_pos hneg, decimal_eq, utf8_append, List.append_nil, List.append_nil]
    rfl
  · have hnumber := @Number.mk false _ _ _ _ _ hdigits .absent .absent
    have habs := congrArg (Int.cast : ℤ → ℚ) (Int.natAbs_of_nonneg (not_lt.mp hneg))
    rw [Int.cast_natCast] at habs
    rw [hvalue, numberValue, habs, if_neg Bool.false_ne_true, add_zero, mul_one, one_mul] at hnumber
    refine ⟨_, ?_, hnumber⟩
    rw [signedDecimal, if_neg hneg, decimal_eq, List.append_nil, List.append_nil]
    rfl

theorem decimal_number (u : Nat) : ∃ cs, decimal u = utf8 cs ∧ Number u cs := by
  obtain ⟨cs, htext, hnumber⟩ := signedDecimal_number u
  rw [signedDecimal, if_neg (by omega), Int.natAbs_natCast] at htext
  rw [Int.cast_natCast] at hnumber
  exact ⟨cs, htext, hnumber⟩

def asciiText (n : Nat) : List Char := (escapeChar n.toUInt8).map fun b => Char.ofNat b.toNat

theorem utf8_asciiText : ∀ n < 0x80, utf8 (asciiText n) = escapeChar n.toUInt8 := by
  decide +kernel

theorem asciiText_cases : ∀ n < 0x80,
    (asciiText n = [Char.ofNat n] ∧ Char.ofNat n ≠ '"' ∧ Char.ofNat n ≠ '\\' ∧ 0x20 ≤ n) ∨
      (asciiText n = ['\\', (asciiText n).getD 1 ' '] ∧
        escaped ((asciiText n).getD 1 ' ') = some (Char.ofNat n)) ∨
      (asciiText n = ['\\', 'u', '0', '0', (asciiText n).getD 4 ' ', (asciiText n).getD 5 ' '] ∧
        hex4 '0' '0' ((asciiText n).getD 4 ' ') ((asciiText n).getD 5 ' ') = some n) := by
  decide +kernel

theorem chars_asciiText {n : Nat} (hn : n < 0x80) {cs s : List Char} (h : Chars cs s) :
    Chars (Char.ofNat n :: cs) (asciiText n ++ s) := by
  obtain ⟨htext, hquote, hback, hctl⟩ | ⟨htext, hescaped⟩ | ⟨htext, hhex⟩ := asciiText_cases n hn
  · rw [htext]
    refine .plain ⟨hquote, hback, ?_⟩ h
    rwa [toNat_ofNat (valid_of_ascii hn)]
  · rw [htext]
    exact .escape (.simple hescaped) h
  · rw [htext]
    exact .escape (.unicode hhex fun hs => by unfold isSurrogate at hs; omega) h

theorem escape_char (c : Char) : ∃ e, (String.utf8EncodeChar c).flatMap escapeChar = utf8 e ∧
    ∀ {cs s : List Char}, Chars cs s → Chars (c :: cs) (e ++ s) := by
  by_cases hc : c.toNat < 0x80
  · refine ⟨asciiText c.toNat, ?_, fun h => ?_⟩
    · rw [utf8EncodeChar_ascii hc, utf8_asciiText _ hc, List.flatMap_singleton]
    · have hchars := chars_asciiText hc h
      rwa [Char.ofNat_toNat] at hchars
  · have hplain : ∀ b ∈ String.utf8EncodeChar c, escapeChar b = [b] := by
      intro b hb
      have hhigh := high_of_mem_utf8EncodeChar hc hb
      have hne : ∀ k : UInt8, k.toNat < 128 → b ≠ k := by
        rintro k hk rfl
        omega
      have hnot : ¬ b < 32 := by
        rw [UInt8.lt_iff_toNat_lt]
        change ¬ b.toNat < 32
        omega
      simp only [escapeChar, hne, if_false, hnot, charQuotationMark, charReverseSolidus, charSlash,
        UInt8.reduceToNat, Nat.reduceLT]
    refine ⟨[c], ?_, fun h => .plain ⟨?_, ?_, by omega⟩ h⟩
    · rw [utf8, List.flatMap_singleton, List.flatMap_congr hplain]
      simp
    · rintro rfl
      exact hc (by decide)
    · rintro rfl
      exact hc (by decide)

theorem quoted_string : ∀ cs : List Char, ∃ s,
    (utf8 cs).flatMap escapeChar ++ [charQuotationMark] = utf8 s ∧
    Chars cs s
  | [] => ⟨['"'], by decide, .nil⟩
  | c :: cs => by
    obtain ⟨s, htext, hs⟩ := quoted_string cs
    obtain ⟨e, hescape, he⟩ := escape_char c
    refine ⟨e ++ s, ?_, he hs⟩
    rw [utf8_append, ← hescape, ← htext, utf8, List.flatMap_cons, List.flatMap_append,
      List.append_assoc]
    rfl

def Blank (pretty : Bool) (indent : Str) : Prop := pretty = true → ∃ w, Ws w ∧ indent = utf8 w

theorem Blank.deeper {pretty : Bool} {indent : Str} (h : Blank pretty indent) :
    Blank pretty (deeper pretty indent) := by
  rintro rfl
  obtain ⟨w, hw, rfl⟩ := h rfl
  refine ⟨w ++ ['\t'], hw.append (ws_singleton (by decide)), ?_⟩
  rw [utf8_append]
  rfl

theorem lead_ws {pretty : Bool} {indent : Str} (h : Blank pretty indent) :
    ∃ w, Ws w ∧ lead pretty indent = utf8 w := by
  cases pretty with
  | true => exact h.deeper rfl
  | false => exact ⟨[], nofun, rfl⟩

theorem separator_ws (pretty : Bool) : ∃ w, Ws w ∧ separator pretty = utf8 (',' :: w) := by
  cases pretty with
  | true => exact ⟨['\n'], ws_singleton (by decide), by decide⟩
  | false => exact ⟨[], nofun, by decide⟩

section
variable {α : Type} {item : α → List Char → Prop} {joined : List α → List Char → Prop}

structure Joins (item : α → List Char → Prop) (joined : List α → List Char → Prop) : Prop where
  one : ∀ {a s}, item a s → joined [a] s
  more : ∀ {a s as t}, item a s → joined as t → joined (a :: as) (s ++ ',' :: t)
  ws_append : ∀ {as t w}, Ws w → joined as t → joined as (w ++ t)
  append_ws : ∀ {as t w}, joined as t → Ws w → joined as (t ++ w)

theorem formatMembers_joined (hj : Joins item joined) (pretty : Bool) (member : Nat → Option Str) :
    ∀ {as : List α} (i : Nat), as ≠ [] →
      (∀ j (hlt : j < as.length), ∃ s, member (i + j) = some (utf8 s) ∧ item as[j] s) →
      ∃ t, formatMembers (separator pretty) member as.length i =
          some ((if 0 < i then separator pretty else []) ++ utf8 t) ∧ joined as t
  | [], _, hne, _ => absurd rfl hne
  | [a], i, _, h => by
    obtain ⟨s, hs, hitem⟩ := h 0 Nat.one_pos
    refine ⟨s, ?_, hj.one hitem⟩
    rw [Nat.add_zero] at hs
    rw [List.length_singleton, formatMembers, hs]
    simp only [formatMembers, List.append_nil]
  | a :: b :: as, i, _, h => by
    obtain ⟨s, hs, hitem⟩ := h 0 (Nat.succ_pos _)
    have hrest : ∀ j (hlt : j < (b :: as).length),
        ∃ s, member (i + 1 + j) = some (utf8 s) ∧ item (b :: as)[j] s := by
      intro j hlt
      have hnext := h (j + 1) (Nat.succ_lt_succ hlt)
      rwa [show i + (j + 1) = i + 1 + j by omega] at hnext
    obtain ⟨t, ht, hjoined⟩ :=
      formatMembers_joined hj pretty member (i + 1) (List.cons_ne_nil b as) hrest
    obtain ⟨w, hw, hsep⟩ := separator_ws pretty
    refine ⟨s ++ ',' :: (w ++ t), ?_, hj.more hitem (hj.ws_append hw hjoined)⟩
    rw [Nat.add_zero] at hs
    rw [List.length_cons, formatMembers, hs]
    simp only
    rw [ht, if_pos (Nat.succ_pos i), utf8_append, ← List.cons_append, utf8_append, ← hsep]

theorem utf8_cons {c : Char} (hc : c.toNat < 0x80) (s : List Char) :
    utf8 (c :: s) = c.toNat.toUInt8 :: utf8 s := by
  rw [utf8, List.flatMap_cons, utf8EncodeChar_ascii hc]
  rfl

theorem enclose_joined (hj : Joins item joined) {pretty : Bool} {indent : Str}
    (h : Blank pretty indent) {a b : Char} (ha : a.toNat < 0x80) (hb : b.toNat < 0x80)
    {as : List α} {t : List Char} (ht : joined as t) :
    ∃ t', enclose pretty indent a.toNat.toUInt8 b.toNat.toUInt8 (utf8 t) =
      utf8 (a :: (t' ++ [b])) ∧ joined as t' := by
  have hclose : utf8 [b] = [b.toNat.toUInt8] := utf8_cons hb []
  cases pretty with
  | true =>
    obtain ⟨w, hw, rfl⟩ := h rfl
    have hline : ∀ s, utf8 ('\n' :: s) = 10 :: utf8 s := utf8_cons (by decide)
    refine ⟨'\n' :: (t ++ '\n' :: w), ?_, ?_⟩
    · rw [utf8_cons ha, utf8_append, hline, utf8_append, hline, hclose]
      simp only [enclose, if_true, List.cons_append, List.append_assoc]
    · have hnewline : Ws ['\n'] := ws_singleton (by decide)
      exact hj.ws_append hnewline (hj.append_ws ht (hnewline.append hw))
  | false =>
    refine ⟨t, ?_, ht⟩
    rw [utf8_cons ha, utf8_append, hclose]
    rfl

end

def ElementText (v : Json) (s : List Char) : Prop :=
  ∃ w t, Ws w ∧ Value v t ∧ s = w ++ t

def MemberText (m : List Char × Json) (s : List Char) : Prop :=
  ∃ w sk w₁ w₂ t, Ws w ∧ Chars m.1 sk ∧ Ws w₁ ∧ Ws w₂ ∧ Value m.2 t ∧
    s = w ++ '"' :: (sk ++ (w₁ ++ ':' :: (w₂ ++ t)))

theorem joins_elements : Joins ElementText Elements where
  one := by
    rintro v s ⟨w, t, hw, ht, rfl⟩
    simpa only [List.append_nil] using Elements.one hw ht ws_nil
  more := by
    rintro v s vs u ⟨w, t, hw, ht, rfl⟩ hu
    simpa only [List.append_assoc, List.nil_append] using Elements.more hw ht ws_nil hu
  ws_append := fun hw h => h.ws_append hw
  append_ws := fun h hw => h.append_ws hw

theorem joins_members : Joins MemberText Members where
  one := by
    rintro ⟨k, v⟩ s ⟨w, sk, w₁, w₂, t, hw, hk, hw₁, hw₂, ht, rfl⟩
    simpa only [List.append_nil] using Members.one hw hk hw₁ hw₂ ht ws_nil
  more := by
    rintro ⟨k, v⟩ s ms u ⟨w, sk, w₁, w₂, t, hw, hk, hw₁, hw₂, ht, rfl⟩ hu
    simpa only [List.append_assoc, List.cons_append, List.nil_append] using
      Members.more hw hk hw₁ hw₂ ht ws_nil hu
  ws_append := fun hw h => h.ws_append hw
  append_ws := fun h hw => h.append_ws hw

section
variable {pretty : Bool} {indent : Str} {element : Nat → Option Str}

theorem formatArray_value (h : Blank pretty indent) {ts : List Json}
    (hel : ∀ j (hlt : j < ts.length), ∃ s, element j = some (utf8 s) ∧ Value ts[j] s) :
    ∃ cs, formatArray pretty indent ts.length element = some (utf8 cs) ∧ Value (.array ts) cs := by
  by_cases hnil : ts = []
  · rw [hnil]
    exact ⟨['[', ']'], (if_pos rfl).trans (by decide), .emptyArray ws_nil⟩
  · obtain ⟨w, hw, hlead⟩ := lead_ws h
    have hmember : ∀ j (hlt : j < ts.length), ∃ s,
        arrayMember pretty indent element (0 + j) = some (utf8 s) ∧ ElementText ts[j] s := by
      intro j hlt
      obtain ⟨s, hs, hvalue⟩ := hel j hlt
      refine ⟨w ++ s, ?_, w, s, hw, hvalue, rfl⟩
      rw [Nat.zero_add, arrayMember, hs, utf8_append, ← hlead]
      rfl
    obtain ⟨t, ht, hjoined⟩ := formatMembers_joined joins_elements pretty _ 0 hnil hmember
    obtain ⟨t', ht', hjoined'⟩ := enclose_joined joins_elements h (a := '[') (b := ']') (by decide)
      (by decide) hjoined
    refine ⟨_, ?_, .array hjoined'⟩
    rw [formatArray, if_neg fun h0 => hnil (List.length_eq_zero_iff.mp h0), ht, ← ht']
    rfl

theorem colon_ws (pretty : Bool) : ∃ w₁ w₂, Ws w₁ ∧ Ws w₂ ∧
    colon pretty = utf8 (w₁ ++ ':' :: w₂) := by
  cases pretty with
  | true => exact ⟨[' '], [' '], ws_singleton (by decide), ws_singleton (by decide), by decide⟩
  | false => exact ⟨[], [], ws_nil, ws_nil, by decide⟩

theorem formatObject_value (h : Blank pretty indent) {ms : List (List Char × Json)}
    (hel : ∀ j (hlt : j < ms.length),
      (∃ s, element (2 * j) = some (utf8 s) ∧ Value (.string ms[j].1) s) ∧
        ∃ s, element (2 * j + 1) = some (utf8 s) ∧ Value ms[j].2 s) :
    ∃ cs, formatObject pretty indent (2 * ms.length) element = some (utf8 cs) ∧
      Value (.object ms) cs := by
  by_cases hnil : ms = []
  · rw [hnil]
    exact ⟨['\x7b', '\x7d'], (if_pos rfl).trans (by decide), .emptyObject ws_nil⟩
  · obtain ⟨w, hw, hlead⟩ := lead_ws h
    obtain ⟨w₁, w₂, hw₁, hw₂, hcolon⟩ := colon_ws pretty
    have hmember : ∀ j (hlt : j < ms.length), ∃ s,
        objectMember pretty indent element (0 + j) = some (utf8 s) ∧ MemberText ms[j] s := by
      intro j hlt
      obtain ⟨⟨sk, hsk, hkey⟩, s, hs, hvalue⟩ := hel j hlt
      cases hkey with
      | @string _ sk hchars =>
        refine ⟨_, ?_, w, sk, w₁, w₂, s, hw, hchars, hw₁, hw₂, hvalue, rfl⟩
        rw [Nat.zero_add, objectMember, hsk, hs]
        simp only
        rw [hlead, hcolon, ← utf8_append, ← utf8_append, ← utf8_append]
        simp only [List.cons_append, List.append_assoc]
    obtain ⟨t, ht, hjoined⟩ := formatMembers_joined joins_members pretty _ 0 hnil hmember
    obtain ⟨t', ht', hjoined'⟩ := enclose_joined joins_members h (a := '\x7b') (b := '\x7d')
      (by decide) (by decide) hjoined
    refine ⟨_, ?_, .object hjoined'⟩
    have hlen : 2 * ms.length ≠ 0 := by
      have hpos := List.length_pos_of_ne_nil hnil
      omega
    rw [formatObject, if_neg hlen, show (2 * ms.length + 1) / 2 = ms.length by omega, ht, ← ht']
    rfl

end

theorem ElementsFor.get {es : List JsonVariant} : ∀ {ts : List Json}, ElementsFor es ts →
    ∀ j (hlt : j < ts.length), ∃ e, es[j]? = some e ∧ StandsFor e ts[j] := by
  induction es with
  | nil => intro ts h j hlt; cases h; exact absurd hlt (Nat.not_lt_zero _)
  | cons e es ih =>
    intro ts h j hlt
    cases h with
    | cons h hs =>
      cases j with
      | zero => exact ⟨e, rfl, h⟩
      | succ j => exact ih hs j (Nat.lt_of_succ_lt_succ hlt)

theorem MembersFor.get : ∀ {es : List JsonVariant} {ms : List (List Char × Json)},
    MembersFor es ms → es.length = 2 * ms.length ∧
      ∀ j (hlt : j < ms.length), (∃ k, es[2 * j]? = some k ∧ StandsFor k (.string ms[j].1)) ∧
        ∃ v, es[2 * j + 1]? = some v ∧ StandsFor v ms[j].2
  | _, _, .nil => ⟨rfl, fun _ hlt => absurd hlt (Nat.not_lt_zero _)⟩
  | _, _, .cons hk h hs => by
    obtain ⟨hlen, hget⟩ := MembersFor.get hs
    refine ⟨by simp only [List.length_cons, hlen]; omega, fun j hlt => ?_⟩
    cases j with
    | zero => exact ⟨⟨_, rfl, hk⟩, _, rfl, h⟩
    | succ j => exact hget j (Nat.lt_of_succ_lt_succ hlt)

theorem formatNode_reference {pretty : Bool} {indent : Str} {text : JsonVariant → Option Str}
    {type : JsonVariantType} {v : JsonVariant} (htype : jsonVariantType v = type)
    (hkind : type = .string ∨ type = .array ∨ type = .object) :
    formatNode pretty indent text (.reference type v) = formatNode pretty indent text v := by
  unfold formatNode
  rw [htype]
  obtain rfl | rfl | rfl := hkind <;> rfl

theorem quoted_value (cs : List Char) :
    ∃ s, some (quoted (utf8 cs)) = some (utf8 s) ∧ Value (.string cs) s := by
  obtain ⟨s, htext, hs⟩ := quoted_string cs
  refine ⟨_, ?_, .string hs⟩
  rw [quoted, htext, utf8_cons (by decide)]
  rfl

theorem signedDecimal_value (i : Int) :
    ∃ s, some (signedDecimal i) = some (utf8 s) ∧ Value (.number i) s := by
  obtain ⟨s, htext, hs⟩ := signedDecimal_number i
  exact ⟨s, congrArg some htext, .number hs⟩

theorem decimal_value (u : Nat) : ∃ s, some (decimal u) = some (utf8 s) ∧ Value (.number u) s := by
  obtain ⟨s, htext, hs⟩ := decimal_number u
  exact ⟨s, congrArg some htext, .number hs⟩

theorem word_null : str "null" = utf8 ['n', 'u', 'l', 'l'] := by decide
theorem word_true : str "true" = utf8 ['t', 'r', 'u', 'e'] := by decide
theorem word_false : str "false" = utf8 ['f', 'a', 'l', 's', 'e'] := by decide

theorem jsonFormat_value (pretty : Bool) (n : Nat) : ∀ {v : JsonVariant} {t : Json} {indent : Str},
    sizeOf v < n → StandsFor v t → Blank pretty indent →
      ∃ cs, jsonFormat pretty indent v = some (utf8 cs) ∧ Value t cs := by
  induction n with
  | zero => exact fun hn => absurd hn (Nat.not_lt_zero _)
  | succ n ih =>
    intro v t indent hn h hindent
    have hnext : ∀ {o : Option JsonVariant} {e : JsonVariant} {t : Json} {i : Nat},
        jsonVariantByIndex v i = o.map jsonVariantConservativeNormalize → o = some e →
        StandsFor e t → ∃ cs, (jsonVariantByIndex v i).bind
          (jsonFormat pretty (deeper pretty indent)) = some (utf8 cs) ∧ Value t cs := by
      intro o e t i hi ho he
      rw [ho, Option.map_some] at hi
      have hlt := sizeOf_byIndex_lt hi
      rw [hi]
      exact ih (by omega) he.conservativeNormalize hindent.deeper
    rw [jsonFormat_eq]
    cases h with
    | magicNull | null => exact ⟨_, congrArg some word_null, .null⟩
    | magicTrue => exact ⟨_, congrArg some word_true, .true⟩
    | magicFalse => exact ⟨_, congrArg some word_false, .false⟩
    | boolean b =>
      cases b with
      | true => exact ⟨_, congrArg some word_true, .true⟩
      | false => exact ⟨_, congrArg some word_false, .false⟩
    | zeroInteger => exact signedDecimal_value 0
    | integer i => exact signedDecimal_value i
    | zeroUnsigned => exact decimal_value 0
    | unsigned u => exact decimal_value u
    | emptyString => exact quoted_value []
    | string cs => exact quoted_value cs
    | emptyArray => exact @formatArray_value pretty indent _ hindent [] nofun
    | emptyObject => exact @formatObject_value pretty indent _ hindent [] nofun
    | @array depth es ts hes =>
      rw [formatNode]
      change ∃ cs, formatArray pretty indent es.length _ = _ ∧ _
      rw [hes.length]
      refine formatArray_value hindent fun j hlt => ?_
      obtain ⟨e, he, hfor⟩ := hes.get j hlt
      exact hnext rfl he hfor
    | @object depth es ms hes =>
      obtain ⟨hlen, hget⟩ := hes.get
      change ∃ cs, formatObject pretty indent es.length _ = _ ∧ _
      rw [hlen]
      refine formatObject_value hindent fun j hlt => ?_
      obtain ⟨⟨k, hk, hkey⟩, e, he, hfor⟩ := hget j hlt
      exact ⟨hnext rfl hk hkey, hnext rfl he hfor⟩
    | @reference type w _ hw htype hkind =>
      rw [formatNode_reference htype hkind, ← jsonFormat_eq]
      rw [JsonVariant.reference.sizeOf_spec] at hn
      exact ih (by omega) hw hindent

/-- The text of a tree that was put together is a JSON text, and the parser gives the tree back. -/
theorem jsonFormat_faithful {inlineMax : Nat} {v : JsonVariant} {t : Json} (h : Built inlineMax v t)
    {pretty : Bool} {indent : Str} (hindent : Blank pretty indent) :
    ∃ cs, jsonFormat pretty indent v = some (utf8 cs) ∧ Text t cs ∧
      parseUtf8 (utf8 cs) = some t := by
  obtain ⟨cs, htext, hvalue⟩ := jsonFormat_value pretty _ (Nat.lt_succ_self _) h.standsFor hindent
  have hjson : Text t cs := ⟨[], cs, [], ws_nil, hvalue, ws_nil, (List.append_nil cs).symm⟩
  exact ⟨cs, htext, hjson, parseUtf8_eq_some_iff.mpr ⟨cs, hjson, rfl⟩⟩

def sample : JsonVariant :=
  .array 1 [.reference .string (.string (utf8 (List.replicate 16 '/'))), .integer (-1)]

theorem sample_new :
    jsonVariantNewArray 15
      [jsonVariantNewStringn (some (utf8 (List.replicate 16 '/'))), jsonVariantNewInteger (-1)] =
      .ok sample := rfl

theorem jsonFormat_faithful_sample :
    ∃ cs, jsonFormat true [] sample = some (utf8 cs) ∧
      Text (.array [.string (List.replicate 16 '/'), .number (-1 : Int)]) cs ∧
      parseUtf8 (utf8 cs) = some (.array [.string (List.replicate 16 '/'), .number (-1 : Int)]) :=
  jsonFormat_faithful (.array (.cons (.string (by decide)) (.cons (.integer (-1)) .nil)) sample_new)
    fun _ => ⟨[], nofun, rfl⟩

end Basu
