import Mathlib.Algebra.Field.Rat
import Mathlib.Data.List.TakeWhile

/-! JSON: its values, the grammar of its texts, and a parser that accepts exactly these. -/

namespace Lib

inductive Json
  | null
  | bool (b : Bool)
  | number (q : ℚ)
  | string (s : List Char)
  | array (elements : List Json)
  | object (members : List (List Char × Json))

namespace Json

def isWs (c : Char) : Bool := c = ' ' || c = '\t' || c = '\n' || c = '\r'

def Ws (s : List Char) : Prop := ∀ c ∈ s, isWs c

instance (s : List Char) : Decidable (Ws s) := inferInstanceAs (Decidable (∀ c ∈ s, isWs c))

def Digits (s : List Char) : Prop := s ≠ [] ∧ ∀ c ∈ s, c.isDigit

def IntDigits (s : List Char) : Prop := Digits s ∧ (s.head? = some '0' → s = ['0'])

def digitsValue (s : List Char) : Nat := Nat.ofDigitChars 10 s 0

inductive Fraction : ℚ → List Char → Prop
  | absent : Fraction 0 []
  | present {ds : List Char} (h : Digits ds) :
      Fraction (digitsValue ds / 10 ^ ds.length) ('.' :: ds)

inductive ExponentSign : Bool → List Char → Prop
  | absent : ExponentSign false []
  | plus : ExponentSign false ['+']
  | minus : ExponentSign true ['-']

def power (neg : Bool) (n : Nat) : ℚ := if neg then 1 / 10 ^ n else 10 ^ n

inductive Exponent : ℚ → List Char → Prop
  | absent : Exponent 1 []
  | present {e : Char} {neg : Bool} {sign ds : List Char} (he : e = 'e' ∨ e = 'E')
      (hsign : ExponentSign neg sign) (h : Digits ds) :
      Exponent (power neg (digitsValue ds)) (e :: (sign ++ ds))

def numberValue (neg : Bool) (int : Nat) (fraction exponent : ℚ) : ℚ :=
  (if neg then -1 else 1) * (int + fraction) * exponent

inductive Number : ℚ → List Char → Prop
  | mk {neg : Bool} {ds f e : List Char} {qf qe : ℚ} (h : IntDigits ds) (hf : Fraction qf f)
      (he : Exponent qe e) :
      Number (numberValue neg (digitsValue ds) qf qe)
        ((if neg then ['-'] else []) ++ (ds ++ (f ++ e)))

def escaped (c : Char) : Option Char :=
  if c = '"' then some '"'
  else if c = '\\' then some '\\'
  else if c = '/' then some '/'
  else if c = 'b' then some (Char.ofNat 8)
  else if c = 'f' then some (Char.ofNat 12)
  else if c = 'n' then some '\n'
  else if c = 'r' then some '\r'
  else if c = 't' then some '\t'
  else none

def hexValue (c : Char) : Option Nat :=
  if c.isDigit then some (c.toNat - 48)
  else if 'a' ≤ c ∧ c ≤ 'f' then some (c.toNat - 87)
  else if 'A' ≤ c ∧ c ≤ 'F' then some (c.toNat - 55)
  else none

def hex4 (a b c d : Char) : Option Nat := do
  let a ← hexValue a
  let b ← hexValue b
  let c ← hexValue c
  let d ← hexValue d
  some (((a * 16 + b) * 16 + c) * 16 + d)

def isSurrogate (n : Nat) : Prop := 0xd800 ≤ n ∧ n ≤ 0xdfff

instance (n : Nat) : Decidable (isSurrogate n) := inferInstanceAs (Decidable (_ ∧ _))

def pairValue (h l : Nat) : Nat := 0x10000 + (h - 0xd800) * 0x400 + (l - 0xdc00)

def isPair (h l : Nat) : Prop := (0xd800 ≤ h ∧ h ≤ 0xdbff) ∧ 0xdc00 ≤ l ∧ l ≤ 0xdfff

instance (h l : Nat) : Decidable (isPair h l) := inferInstanceAs (Decidable (_ ∧ _))

inductive Escape : Char → List Char → Prop
  | simple {e c : Char} (hc : escaped e = some c) : Escape c [e]
  | unicode {a b c d : Char} {n : Nat} (hn : hex4 a b c d = some n) (hs : ¬isSurrogate n) :
      Escape (Char.ofNat n) ['u', a, b, c, d]
  | pair {a b c d a' b' c' d' : Char} {n n' : Nat} (hn : hex4 a b c d = some n)
      (hn' : hex4 a' b' c' d' = some n') (hp : isPair n n') :
      Escape (Char.ofNat (pairValue n n')) ['u', a, b, c, d, '\\', 'u', a', b', c', d']

inductive Chars : List Char → List Char → Prop
  | nil : Chars [] ['"']
  | plain {c : Char} {cs s : List Char} (hc : c ≠ '"' ∧ c ≠ '\\' ∧ 0x20 ≤ c.toNat)
      (h : Chars cs s) : Chars (c :: cs) (c :: s)
  | escape {c : Char} {cs e s : List Char} (he : Escape c e) (h : Chars cs s) :
      Chars (c :: cs) ('\\' :: (e ++ s))

mutual

inductive Value : Json → List Char → Prop
  | null : Value .null ['n', 'u', 'l', 'l']
  | true : Value (.bool true) ['t', 'r', 'u', 'e']
  | false : Value (.bool false) ['f', 'a', 'l', 's', 'e']
  | number {q : ℚ} {s : List Char} (h : Number q s) : Value (.number q) s
  | string {cs s : List Char} (h : Chars cs s) : Value (.string cs) ('"' :: s)
  | emptyArray {w : List Char} (hw : Ws w) : Value (.array []) ('[' :: (w ++ [']']))
  | array {es : List Json} {s : List Char} (h : Elements es s) :
      Value (.array es) ('[' :: (s ++ [']']))
  | emptyObject {w : List Char} (hw : Ws w) : Value (.object []) ('{' :: (w ++ ['}']))
  | object {ms : List (List Char × Json)} {s : List Char} (h : Members ms s) :
      Value (.object ms) ('{' :: (s ++ ['}']))

inductive Elements : List Json → List Char → Prop
  | one {v : Json} {w s w' : List Char} (hw : Ws w) (h : Value v s) (hw' : Ws w') :
      Elements [v] (w ++ (s ++ w'))
  | more {v : Json} {es : List Json} {w s w' t : List Char} (hw : Ws w) (h : Value v s)
      (hw' : Ws w') (ht : Elements es t) : Elements (v :: es) (w ++ (s ++ (w' ++ ',' :: t)))

inductive Members : List (List Char × Json) → List Char → Prop
  | one {k : List Char} {v : Json} {w sk w₁ w₂ s w' : List Char} (hw : Ws w) (hk : Chars k sk)
      (hw₁ : Ws w₁) (hw₂ : Ws w₂) (h : Value v s) (hw' : Ws w') :
      Members [(k, v)] (w ++ '"' :: (sk ++ (w₁ ++ ':' :: (w₂ ++ (s ++ w')))))
  | more {k : List Char} {v : Json} {ms : List (List Char × Json)}
      {w sk w₁ w₂ s w' t : List Char} (hw : Ws w) (hk : Chars k sk) (hw₁ : Ws w₁) (hw₂ : Ws w₂)
      (h : Value v s) (hw' : Ws w') (ht : Members ms t) :
      Members ((k, v) :: ms) (w ++ '"' :: (sk ++ (w₁ ++ ':' :: (w₂ ++ (s ++ (w' ++ ',' :: t))))))

end

def Text (v : Json) (s : List Char) : Prop :=
  ∃ w t w', Ws w ∧ Value v t ∧ Ws w' ∧ s = w ++ (t ++ w')

def skipWs (s : List Char) : List Char := s.dropWhile isWs

def parseDigits (s : List Char) : Option (List Char × List Char) :=
  let ds := s.takeWhile Char.isDigit
  if ds = [] then none else some (ds, s.dropWhile Char.isDigit)

def parseInt (s : List Char) : Option (Nat × List Char) := do
  let (ds, r) ← parseDigits s
  if ds.head? = some '0' ∧ ds ≠ ['0'] then none else some (digitsValue ds, r)

def parseFraction : List Char → Option (ℚ × List Char)
  | '.' :: s => (parseDigits s).map fun (ds, r) => (digitsValue ds / 10 ^ ds.length, r)
  | s => some (0, s)

def parseExponentSign : List Char → Bool × List Char
  | '+' :: s => (false, s)
  | '-' :: s => (true, s)
  | s => (false, s)

def parseExponent : List Char → Option (ℚ × List Char)
  | [] => some (1, [])
  | e :: s =>
    if e = 'e' ∨ e = 'E' then
      let (neg, s) := parseExponentSign s
      (parseDigits s).map fun (ds, r) => (power neg (digitsValue ds), r)
    else some (1, e :: s)

def parseMinus : List Char → Bool × List Char
  | '-' :: s => (true, s)
  | s => (false, s)

def parseNumber (s : List Char) : Option (ℚ × List Char) := do
  let (neg, s) := parseMinus s
  let (n, s) ← parseInt s
  let (qf, s) ← parseFraction s
  let (qe, s) ← parseExponent s
  some (numberValue neg n qf qe, s)

def parseLow : List Char → Option (Nat × List Char)
  | x :: y :: a :: b :: c :: d :: r =>
    if x = '\\' ∧ y = 'u' then (hex4 a b c d).map fun n => (n, r) else none
  | _ => none

def parseUnicode : List Char → Option (Char × List Char)
  | a :: b :: c :: d :: r =>
    match hex4 a b c d with
    | none => none
    | some n =>
      if isSurrogate n then
        match parseLow r with
        | none => none
        | some (n', r) => if isPair n n' then some (Char.ofNat (pairValue n n'), r) else none
      else some (Char.ofNat n, r)
  | _ => none

def parseEscape : List Char → Option (Char × List Char)
  | [] => none
  | e :: r => if e = 'u' then parseUnicode r else (escaped e).map fun c => (c, r)

def parseChars : Nat → List Char → Option (List Char × List Char)
  | 0, _ => none
  | _ + 1, [] => none
  | n + 1, c :: s =>
    if c = '"' then some ([], s)
    else if c = '\\' then
      match parseEscape s with
      | none => none
      | some (c, r) => (parseChars n r).map fun (cs, r) => (c :: cs, r)
    else if 0x20 ≤ c.toNat then (parseChars n s).map fun (cs, r) => (c :: cs, r)
    else none

def parseWord (word s : List Char) : Option (List Char) :=
  if word <+: s then some (s.drop word.length) else none

def parseKey (s : List Char) : Option (List Char × List Char) :=
  match skipWs s with
  | [] => none
  | c :: s =>
    if c = '"' then
      match parseChars s.length s with
      | none => none
      | some (k, r) => if (skipWs r).head? = some ':' then some (k, (skipWs r).tail) else none
    else none

mutual

def parseValue : Nat → List Char → Option (Json × List Char)
  | 0, _ => none
  | _ + 1, [] => none
  | n + 1, c :: s =>
    if c = 'n' then (parseWord ['u', 'l', 'l'] s).map fun r => (.null, r)
    else if c = 't' then (parseWord ['r', 'u', 'e'] s).map fun r => (.bool true, r)
    else if c = 'f' then (parseWord ['a', 'l', 's', 'e'] s).map fun r => (.bool false, r)
    else if c = '"' then (parseChars s.length s).map fun (cs, r) => (.string cs, r)
    else if c = '[' then
      if (skipWs s).head? = some ']' then some (.array [], (skipWs s).tail)
      else (parseElements n s).map fun (es, r) => (.array es, r)
    else if c = '{' then
      if (skipWs s).head? = some '}' then some (.object [], (skipWs s).tail)
      else (parseMembers n s).map fun (ms, r) => (.object ms, r)
    else (parseNumber (c :: s)).map fun (q, r) => (.number q, r)

def parseElements : Nat → List Char → Option (List Json × List Char)
  | 0, _ => none
  | n + 1, s =>
    match parseValue n (skipWs s) with
    | none => none
    | some (v, r) =>
      match skipWs r with
      | [] => none
      | c :: r =>
        if c = ']' then some ([v], r)
        else if c = ',' then (parseElements n r).map fun (es, r) => (v :: es, r)
        else none

def parseMembers : Nat → List Char → Option (List (List Char × Json) × List Char)
  | 0, _ => none
  | n + 1, s =>
    match parseKey s with
    | none => none
    | some (k, r) =>
      match parseValue n (skipWs r) with
      | none => none
      | some (v, r) =>
        match skipWs r with
        | [] => none
        | c :: r =>
          if c = '}' then some ([(k, v)], r)
          else if c = ',' then (parseMembers n r).map fun (ms, r) => ((k, v) :: ms, r)
          else none

end

def parse (s : List Char) : Option Json :=
  match parseValue (s.length + 1) (skipWs s) with
  | some (v, r) => if skipWs r = [] then some v else none
  | none => none

/-- The next character is none of those that `p` accepts. -/
def Stops (p : Char → Bool) (r : List Char) : Prop := ∀ c ∈ r.head?, p c = false

theorem stops_cons {p : Char → Bool} {c : Char} (h : p c = false) (r : List Char) :
    Stops p (c :: r) := by
  intro d hd
  rw [← Option.some.inj hd]
  exact h

theorem Stops.mono {p q : Char → Bool} (h : ∀ c, q c → p c) {r : List Char} (hr : Stops p r) :
    Stops q r := by
  intro c hc
  have hp := hr c hc
  by_contra hq
  rw [h c (by simpa using hq)] at hp
  exact absurd hp nofun

theorem takeWhile_append_stops {p : Char → Bool} {s r : List Char} (hs : ∀ c ∈ s, p c)
    (hr : Stops p r) : (s ++ r).takeWhile p = s ∧ (s ++ r).dropWhile p = r := by
  rw [List.takeWhile_append_of_pos hs, List.dropWhile_append_of_pos hs]
  cases r with
  | nil => exact ⟨List.append_nil s, rfl⟩
  | cons c r =>
    have hc : ¬p c = true := by simp [hr c rfl]
    rw [List.takeWhile_cons_of_neg hc, List.dropWhile_cons_of_neg hc]
    exact ⟨List.append_nil s, rfl⟩

theorem skipWs_append {w s : List Char} (hw : Ws w) (hs : Stops isWs s) : skipWs (w ++ s) = s :=
  (takeWhile_append_stops hw hs).2

theorem skipWs_spec (s : List Char) : ∃ w, Ws w ∧ s = w ++ skipWs s :=
  ⟨s.takeWhile isWs, fun _ => List.mem_takeWhile_imp, List.takeWhile_append_dropWhile.symm⟩

theorem parseDigits_append {ds r : List Char} (h : Digits ds) (hr : Stops Char.isDigit r) :
    parseDigits (ds ++ r) = some (ds, r) := by
  obtain ⟨htake, hdrop⟩ := takeWhile_append_stops h.2 hr
  simp only [parseDigits]
  rw [htake, hdrop, if_neg h.1]

theorem digits_of_parseDigits {s ds r : List Char} (h : parseDigits s = some (ds, r)) :
    s = ds ++ r ∧ Digits ds := by
  simp only [parseDigits] at h
  split at h
  · exact absurd h nofun
  · rename_i hne
    obtain ⟨rfl, rfl⟩ := Prod.mk.inj (Option.some.inj h)
    exact ⟨List.takeWhile_append_dropWhile.symm, hne, fun _ => List.mem_takeWhile_imp⟩

def isNumeral (c : Char) : Bool := c.isDigit || c = '.' || c = 'e' || c = 'E'

theorem fraction_stops {q : ℚ} {f r : List Char} (h : Fraction q f) (hr : Stops Char.isDigit r) :
    Stops Char.isDigit (f ++ r) := by
  cases h with
  | absent => exact hr
  | present => exact stops_cons rfl _

theorem exponent_stops {q : ℚ} {e r : List Char} (h : Exponent q e) (hr : Stops isNumeral r) :
    Stops (fun c => c.isDigit || c = '.') (e ++ r) := by
  cases h with
  | absent => exact hr.mono fun c hc => by simp [isNumeral] at *; tauto
  | present he => obtain rfl | rfl := he <;> exact stops_cons rfl _

theorem parseInt_append {ds r : List Char} (h : IntDigits ds) (hr : Stops Char.isDigit r) :
    parseInt (ds ++ r) = some (digitsValue ds, r) := by
  rw [parseInt, parseDigits_append h.1 hr]
  exact if_neg fun hz => hz.2 (h.2 hz.1)

theorem parseFraction_append {q : ℚ} {f r : List Char} (h : Fraction q f)
    (hr : Stops (fun c => c.isDigit || c = '.') r) : parseFraction (f ++ r) = some (q, r) := by
  cases h with
  | absent =>
    cases r with
    | nil => rfl
    | cons c r =>
      have hc : c ≠ '.' := by
        rintro rfl
        exact absurd (hr '.' rfl) (by decide)
      unfold parseFraction
      split
      · rename_i heq
        exact absurd (List.cons.inj heq).1 hc
      · rfl
  | present h =>
    rw [List.cons_append, parseFraction, parseDigits_append h (hr.mono fun c hc => by simp [hc])]
    rfl

theorem parseExponent_append {q : ℚ} {e r : List Char} (h : Exponent q e) (hr : Stops isNumeral r) :
    parseExponent (e ++ r) = some (q, r) := by
  cases h with
  | absent =>
    cases r with
    | nil => rfl
    | cons c r =>
      have hc := hr c rfl
      refine if_neg ?_
      rintro (rfl | rfl) <;> exact absurd hc (by decide)
  | @present e neg sign ds he hsign h =>
    have hdigits := parseDigits_append h
      (hr.mono fun c (hc : c.isDigit = true) => by simp [isNumeral, hc])
    have hparse : parseExponentSign ((sign ++ ds) ++ r) = (neg, ds ++ r) := by
      cases hsign with
      | plus => rfl
      | minus => rfl
      | absent =>
        obtain ⟨c, ds, rfl⟩ := List.exists_cons_of_ne_nil h.1
        have hc := h.2 c List.mem_cons_self
        unfold parseExponentSign
        split
        · rename_i heq
          rw [(List.cons.inj heq).1] at hc
          exact absurd hc (by decide)
        · rename_i heq
          rw [(List.cons.inj heq).1] at hc
          exact absurd hc (by decide)
        · rfl
    rw [List.cons_append, parseExponent, if_pos he, hparse]
    simp only [hdigits, Option.map_some]

theorem parseNumber_append {q : ℚ} {s r : List Char} (h : Number q s) (hr : Stops isNumeral r) :
    parseNumber (s ++ r) = some (q, r) := by
  cases h with
  | @mk neg ds f e qf qe h hf he =>
    have hexp := exponent_stops he hr
    have hint := parseInt_append h (fraction_stops hf (hexp.mono fun c hc => by simp [hc]))
    have hminus : parseMinus (((if neg then ['-'] else []) ++ (ds ++ (f ++ e))) ++ r) =
        (neg, ds ++ (f ++ (e ++ r))) := by
      simp only [List.append_assoc]
      cases neg with
      | true => rfl
      | false =>
        obtain ⟨c, ds, rfl⟩ := List.exists_cons_of_ne_nil h.1.1
        have hc := h.1.2 c List.mem_cons_self
        rw [if_neg Bool.false_ne_true, List.nil_append, List.cons_append]
        unfold parseMinus
        split
        · rename_i heq
          rw [(List.cons.inj heq).1] at hc
          exact absurd hc (by decide)
        · rfl
    simp only [parseNumber, hminus, hint, parseFraction_append hf hexp, parseExponent_append he hr,
      Option.bind_eq_bind, Option.bind_some]

theorem fraction_of_parseFraction {q : ℚ} {s r : List Char} (h : parseFraction s = some (q, r)) :
    ∃ p, s = p ++ r ∧ Fraction q p := by
  unfold parseFraction at h
  split at h
  · obtain ⟨⟨ds, r'⟩, hdigits, hmap⟩ := Option.map_eq_some_iff.mp h
    obtain ⟨rfl, rfl⟩ := Prod.mk.inj hmap
    obtain ⟨rfl, hds⟩ := digits_of_parseDigits hdigits
    exact ⟨_, rfl, .present hds⟩
  · obtain ⟨rfl, rfl⟩ := Prod.mk.inj (Option.some.inj h)
    exact ⟨[], rfl, .absent⟩

theorem parseExponentSign_spec (s : List Char) :
    ∃ sign, s = sign ++ (parseExponentSign s).2 ∧ ExponentSign (parseExponentSign s).1 sign := by
  unfold parseExponentSign
  split
  · exact ⟨['+'], rfl, .plus⟩
  · exact ⟨['-'], rfl, .minus⟩
  · exact ⟨[], rfl, .absent⟩

theorem exponent_of_parseExponent {q : ℚ} {s r : List Char} (h : parseExponent s = some (q, r)) :
    ∃ p, s = p ++ r ∧ Exponent q p := by
  cases s with
  | nil =>
    obtain ⟨rfl, rfl⟩ := Prod.mk.inj (Option.some.inj h)
    exact ⟨[], rfl, .absent⟩
  | cons e s =>
    rw [parseExponent] at h
    split at h
    · rename_i he
      obtain ⟨sign, hsign, hsigned⟩ := parseExponentSign_spec s
      generalize parseExponentSign s = t at h hsign hsigned
      obtain ⟨⟨ds, r'⟩, hdigits, hmap⟩ := Option.map_eq_some_iff.mp h
      obtain ⟨rfl, rfl⟩ := Prod.mk.inj hmap
      obtain ⟨hs, hds⟩ := digits_of_parseDigits hdigits
      refine ⟨_, ?_, .present he hsigned hds⟩
      rw [List.cons_append, List.append_assoc, ← hs, ← hsign]
    · obtain ⟨rfl, rfl⟩ := Prod.mk.inj (Option.some.inj h)
      exact ⟨[], rfl, .absent⟩

theorem parseMinus_spec (s : List Char) :
    s = (if (parseMinus s).1 then ['-'] else []) ++ (parseMinus s).2 := by
  unfold parseMinus
  split <;> rfl

theorem number_of_parseNumber {q : ℚ} {s r : List Char} (h : parseNumber s = some (q, r)) :
    ∃ p, s = p ++ r ∧ Number q p := by
  simp only [parseNumber, parseInt, Option.bind_eq_bind, Option.bind_eq_some_iff] at h
  obtain ⟨⟨n, r₁⟩, ⟨⟨ds, r₁⟩, hdigits, hint⟩, ⟨qf, r₂⟩, hf, ⟨qe, r₃⟩, he, hend⟩ := h
  split at hint
  · exact absurd hint nofun
  · rename_i hzero
    obtain ⟨rfl, rfl⟩ := Prod.mk.inj (Option.some.inj hint)
    obtain ⟨rfl, rfl⟩ := Prod.mk.inj (Option.some.inj hend)
    obtain ⟨hs, hds⟩ := digits_of_parseDigits hdigits
    have hInt : IntDigits ds := ⟨hds, fun h0 => not_not.mp fun hne => hzero ⟨h0, hne⟩⟩
    obtain ⟨f, rfl, hF⟩ := fraction_of_parseFraction hf
    obtain ⟨e, rfl, hE⟩ := exponent_of_parseExponent he
    refine ⟨_, ?_, @Number.mk (parseMinus s).1 _ _ _ _ _ hInt hF hE⟩
    rw [List.append_assoc, List.append_assoc, List.append_assoc, ← hs]
    exact parseMinus_spec s

theorem escaped_u : escaped 'u' = none := by decide

theorem isSurrogate_of_pair {n n' : Nat} (h : isPair n n') : isSurrogate n :=
  ⟨h.1.1, h.1.2.trans (by decide)⟩

theorem parseEscape_append {c : Char} {e : List Char} (h : Escape c e) (r : List Char) :
    parseEscape (e ++ r) = some (c, r) := by
  cases h with
  | @simple e c hc =>
    have he : e ≠ 'u' := by
      rintro rfl
      rw [escaped_u] at hc
      exact absurd hc nofun
    rw [List.cons_append, parseEscape, if_neg he, hc]
    rfl
  | unicode hn hs =>
    simp only [List.cons_append, parseEscape, parseUnicode, hn, if_neg hs, if_true, List.nil_append]
  | pair hn hn' hp =>
    simp only [List.cons_append, parseEscape, parseUnicode, parseLow, hn, hn',
      if_pos (isSurrogate_of_pair hp), if_pos hp, and_self, if_true, Option.map_some,
      List.nil_append]

theorem low_of_parseLow {n : Nat} {s r : List Char} (h : parseLow s = some (n, r)) :
    ∃ a b c d, s = '\\' :: 'u' :: a :: b :: c :: d :: r ∧ hex4 a b c d = some n := by
  unfold parseLow at h
  split at h
  · split at h
    · rename_i hxy
      obtain ⟨m, hm, hmap⟩ := Option.map_eq_some_iff.mp h
      obtain ⟨rfl, rfl⟩ := Prod.mk.inj hmap
      exact ⟨_, _, _, _, by rw [hxy.1, hxy.2], hm⟩
    · exact absurd h nofun
  · exact absurd h nofun

theorem escape_of_parseEscape {c : Char} {s r : List Char} (h : parseEscape s = some (c, r)) :
    ∃ p, s = p ++ r ∧ Escape c p := by
  cases s with
  | nil => exact absurd h nofun
  | cons e s =>
    rw [parseEscape] at h
    split at h
    · rename_i he
      subst he
      unfold parseUnicode at h
      split at h
      · split at h
        · exact absurd h nofun
        · rename_i hn
          split at h
          · split at h
            · exact absurd h nofun
            · rename_i hlow
              obtain ⟨a', b', c', d', rfl, hn'⟩ := low_of_parseLow hlow
              split at h
              · rename_i hp
                obtain ⟨rfl, rfl⟩ := Prod.mk.inj (Option.some.inj h)
                exact ⟨_, rfl, .pair hn hn' hp⟩
              · exact absurd h nofun
          · rename_i hs
            obtain ⟨rfl, rfl⟩ := Prod.mk.inj (Option.some.inj h)
            exact ⟨_, rfl, .unicode hn hs⟩
      · exact absurd h nofun
    · obtain ⟨c', hc, hmap⟩ := Option.map_eq_some_iff.mp h
      obtain ⟨rfl, rfl⟩ := Prod.mk.inj hmap
      exact ⟨_, rfl, .simple hc⟩

theorem parseChars_append {cs s : List Char} (h : Chars cs s) (r : List Char) :
    ∀ {n : Nat}, s.length ≤ n → parseChars n (s ++ r) = some (cs, r) := by
  induction h with
  | nil =>
    intro n hn
    obtain ⟨n, rfl⟩ := Nat.exists_eq_succ_of_ne_zero (Nat.ne_of_gt hn)
    rfl
  | @plain c cs s hc h ih =>
    intro n hn
    obtain ⟨n, rfl⟩ :=
      Nat.exists_eq_succ_of_ne_zero (Nat.ne_of_gt (Nat.lt_of_lt_of_le (Nat.succ_pos _) hn))
    rw [List.cons_append, parseChars, if_neg hc.1, if_neg hc.2.1, if_pos hc.2.2,
      ih (Nat.le_of_succ_le_succ hn)]
    rfl
  | @escape c cs e s he h ih =>
    intro n hn
    obtain ⟨n, rfl⟩ :=
      Nat.exists_eq_succ_of_ne_zero (Nat.ne_of_gt (Nat.lt_of_lt_of_le (Nat.succ_pos _) hn))
    rw [List.length_cons, List.length_append] at hn
    rw [List.cons_append, List.append_assoc, parseChars, if_neg (by decide), if_pos rfl,
      parseEscape_append he]
    simp only
    rw [ih (by omega)]
    rfl

theorem chars_of_parseChars : ∀ {n : Nat} {s cs r : List Char}, parseChars n s = some (cs, r) →
    ∃ p, s = p ++ r ∧ Chars cs p
  | 0, _, _, _, h => absurd h nofun
  | _ + 1, [], _, _, h => absurd h nofun
  | n + 1, c :: s, cs, r, h => by
    rw [parseChars] at h
    split at h
    · rename_i hc
      obtain ⟨rfl, rfl⟩ := Prod.mk.inj (Option.some.inj h)
      exact ⟨['"'], by rw [hc]; rfl, .nil⟩
    · rename_i hquote
      split at h
      · rename_i hc
        split at h
        · exact absurd h nofun
        · rename_i hescape
          obtain ⟨⟨cs', r'⟩, hchars, hmap⟩ := Option.map_eq_some_iff.mp h
          obtain ⟨rfl, rfl⟩ := Prod.mk.inj hmap
          obtain ⟨e, rfl, he⟩ := escape_of_parseEscape hescape
          obtain ⟨p, rfl, hp⟩ := chars_of_parseChars hchars
          exact ⟨_, by rw [hc, List.cons_append, List.append_assoc], .escape he hp⟩
      · rename_i hback
        split at h
        · rename_i hctl
          obtain ⟨⟨cs', r'⟩, hchars, hmap⟩ := Option.map_eq_some_iff.mp h
          obtain ⟨rfl, rfl⟩ := Prod.mk.inj hmap
          obtain ⟨p, rfl, hp⟩ := chars_of_parseChars hchars
          exact ⟨_, rfl, .plain ⟨hquote, hback, hctl⟩ hp⟩
        · exact absurd h nofun

def isLead (c : Char) : Bool :=
  c = 'n' || c = 't' || c = 'f' || c = '"' || c = '[' || c = '{' || c = '-' || c.isDigit

theorem isWs_cases {c : Char} (h : isWs c) : c = ' ' ∨ c = '\t' ∨ c = '\n' ∨ c = '\r' := by
  simpa [isWs, or_assoc] using h

theorem not_isWs_of_isLead {c : Char} (h : isLead c) : isWs c = false := by
  by_contra hw
  obtain rfl | rfl | rfl | rfl := isWs_cases (by simpa using hw) <;> exact absurd h (by decide)

theorem not_isNumeral_of_isWs {c : Char} (h : isWs c) : isNumeral c = false := by
  obtain rfl | rfl | rfl | rfl := isWs_cases h <;> decide

theorem stops_of_ws {w : List Char} (hw : Ws w) {c : Char} (hc : isNumeral c = false)
    (r : List Char) : Stops isNumeral (w ++ c :: r) := by
  cases w with
  | nil => exact stops_cons hc r
  | cons d w => exact stops_cons (not_isNumeral_of_isWs (hw d List.mem_cons_self)) _

theorem number_head {q : ℚ} {s : List Char} (h : Number q s) :
    ∃ c t, s = c :: t ∧ (c = '-' ∨ c.isDigit) := by
  cases h with
  | @mk neg ds f e qf qe h hf he =>
    cases neg with
    | true => exact ⟨'-', _, rfl, .inl rfl⟩
    | false =>
      obtain ⟨c, ds, rfl⟩ := List.exists_cons_of_ne_nil h.1.1
      exact ⟨c, _, rfl, .inr (h.1.2 c List.mem_cons_self)⟩

theorem value_head {v : Json} {s : List Char} (h : Value v s) : ∃ c t, s = c :: t ∧ isLead c := by
  cases h with
  | number h =>
    obtain ⟨c, t, rfl, hc⟩ := number_head h
    refine ⟨c, t, rfl, ?_⟩
    obtain rfl | hc := hc
    · rfl
    · simp [isLead, hc]
  | _ => exact ⟨_, _, rfl, rfl⟩

theorem value_stops {v : Json} {s : List Char} (h : Value v s) (r : List Char) :
    Stops isWs (s ++ r) := by
  obtain ⟨c, t, rfl, hc⟩ := value_head h
  exact stops_cons (not_isWs_of_isLead hc) _

theorem value_length {v : Json} {s : List Char} (h : Value v s) : 0 < s.length := by
  obtain ⟨c, t, rfl, -⟩ := value_head h
  exact Nat.succ_pos _

theorem parseValue_number {n : Nat} {q : ℚ} {s r : List Char} (h : Number q s)
    (hr : Stops isNumeral r) : parseValue (n + 1) (s ++ r) = some (.number q, r) := by
  have hparse := parseNumber_append h hr
  obtain ⟨c, t, rfl, hc⟩ := number_head h
  have hne : ∀ d : Char, d ≠ '-' → d.isDigit = false → c ≠ d := by
    rintro d hd hdigit rfl
    obtain rfl | hc := hc
    · exact hd rfl
    · rw [hdigit] at hc
      exact absurd hc nofun
  rw [List.cons_append] at hparse ⊢
  rw [parseValue, if_neg (hne 'n' (by decide) (by decide)), if_neg (hne 't' (by decide) (by decide)),
    if_neg (hne 'f' (by decide) (by decide)), if_neg (hne '"' (by decide) (by decide)),
    if_neg (hne '[' (by decide) (by decide)), if_neg (hne '{' (by decide) (by decide)), hparse]
  rfl

theorem parseKey_append {k w sk w₁ : List Char} (hw : Ws w) (hk : Chars k sk) (hw₁ : Ws w₁)
    (r : List Char) : parseKey (w ++ '"' :: (sk ++ (w₁ ++ ':' :: r))) = some (k, r) := by
  rw [parseKey, skipWs_append hw (stops_cons rfl _)]
  simp only [if_true]
  rw [parseChars_append hk _ (by rw [List.length_append]; exact Nat.le_add_right _ _)]
  simp only
  rw [skipWs_append hw₁ (stops_cons rfl _)]
  rfl

theorem elements_lead {es : List Json} {s : List Char} (h : Elements es s) (r : List Char) :
    (skipWs (s ++ r)).head? ≠ some ']' := by
  have hlead : ∀ {v : Json} {w t : List Char}, Ws w → Value v t → ∀ r,
      (skipWs (w ++ (t ++ r))).head? ≠ some ']' := by
    intro v w t hw ht r hhead
    rw [skipWs_append hw (value_stops ht r)] at hhead
    obtain ⟨c, t, rfl, hc⟩ := value_head ht
    rw [Option.some.inj hhead] at hc
    exact absurd hc (by decide)
  cases h with
  | one hw h hw' =>
    rw [List.append_assoc, List.append_assoc]
    exact hlead hw h _
  | more hw h hw' ht =>
    rw [List.append_assoc, List.append_assoc]
    exact hlead hw h _

theorem members_lead {ms : List (List Char × Json)} {s : List Char} (h : Members ms s)
    (r : List Char) : (skipWs (s ++ r)).head? ≠ some '}' := by
  have hlead : ∀ {w : List Char}, Ws w → ∀ r, (skipWs (w ++ '"' :: r)).head? ≠ some '}' := by
    intro w hw r
    rw [skipWs_append hw (stops_cons rfl _)]
    exact nofun
  cases h with
  | one hw => rw [List.append_assoc]; exact hlead hw _
  | more hw => rw [List.append_assoc]; exact hlead hw _

mutual

theorem parseValue_append : ∀ {v : Json} {s : List Char}, Value v s → ∀ {n : Nat} {r : List Char},
    s.length ≤ n → Stops isNumeral r → parseValue n (s ++ r) = some (v, r)
  | _, _, .null, n + 1, r, _, _ => rfl
  | _, _, .true, n + 1, r, _, _ => rfl
  | _, _, .false, n + 1, r, _, _ => rfl
  | _, _, .number h, n + 1, r, _, hr => parseValue_number h hr
  | _, _, .string h, n + 1, r, _, _ => by
    rw [List.cons_append, parseValue, if_neg (by decide), if_neg (by decide), if_neg (by decide),
      if_pos rfl, parseChars_append h _ (by rw [List.length_append]; exact Nat.le_add_right _ _)]
    rfl
  | _, _, .emptyArray hw, n + 1, r, _, _ => by
    rw [List.cons_append, List.append_assoc, parseValue, if_neg (by decide), if_neg (by decide),
      if_neg (by decide), if_neg (by decide), if_pos rfl, List.singleton_append,
      skipWs_append hw (stops_cons rfl _)]
    rfl
  | _, _, .array h, n + 1, r, hn, _ => by
    rw [List.length_cons, List.length_append, List.length_singleton] at hn
    rw [List.cons_append, List.append_assoc, parseValue, if_neg (by decide), if_neg (by decide),
      if_neg (by decide), if_neg (by decide), if_pos rfl, if_neg (elements_lead h _),
      List.singleton_append, parseElements_append h (by omega)]
    rfl
  | _, _, .emptyObject hw, n + 1, r, _, _ => by
    rw [List.cons_append, List.append_assoc, parseValue, if_neg (by decide), if_neg (by decide),
      if_neg (by decide), if_neg (by decide), if_neg (by decide), if_pos rfl,
      List.singleton_append, skipWs_append hw (stops_cons rfl _)]
    rfl
  | _, _, .object h, n + 1, r, hn, _ => by
    rw [List.length_cons, List.length_append, List.length_singleton] at hn
    rw [List.cons_append, List.append_assoc, parseValue, if_neg (by decide), if_neg (by decide),
      if_neg (by decide), if_neg (by decide), if_neg (by decide), if_pos rfl,
      if_neg (members_lead h _), List.singleton_append, parseMembers_append h (by omega)]
    rfl
  | _, _, h, 0, _, hn, _ => absurd hn (Nat.not_le_of_gt (value_length h))

theorem parseElements_append : ∀ {es : List Json} {s : List Char}, Elements es s →
    ∀ {n : Nat} {r : List Char}, s.length < n → parseElements n (s ++ ']' :: r) = some (es, r)
  | _, _, _, 0, _, hn => absurd hn (Nat.not_lt_zero _)
  | _, _, .one hw h hw', n + 1, r, hn => by
    simp only [List.length_append] at hn
    simp only [List.append_assoc]
    rw [parseElements, skipWs_append hw (value_stops h _),
      parseValue_append h (by omega) (stops_of_ws hw' (by decide) r)]
    simp only
    rw [skipWs_append hw' (stops_cons rfl _)]
    rfl
  | _, _, .more hw h hw' ht, n + 1, r, hn => by
    have hlen := value_length h
    simp only [List.length_append, List.length_cons] at hn
    simp only [List.append_assoc, List.cons_append]
    rw [parseElements, skipWs_append hw (value_stops h _),
      parseValue_append h (by omega) (stops_of_ws hw' (by decide) _)]
    simp only
    rw [skipWs_append hw' (stops_cons rfl _)]
    simp only [if_neg (show ',' ≠ ']' by decide), if_true]
    rw [parseElements_append ht (by omega)]
    rfl

theorem parseMembers_append : ∀ {ms : List (List Char × Json)} {s : List Char}, Members ms s →
    ∀ {n : Nat} {r : List Char}, s.length < n → parseMembers n (s ++ '}' :: r) = some (ms, r)
  | _, _, _, 0, _, hn => absurd hn (Nat.not_lt_zero _)
  | _, _, .one hw hk hw₁ hw₂ h hw', n + 1, r, hn => by
    simp only [List.length_append, List.length_cons] at hn
    simp only [List.append_assoc, List.cons_append]
    rw [parseMembers, parseKey_append hw hk hw₁]
    simp only
    rw [skipWs_append hw₂ (value_stops h _),
      parseValue_append h (by omega) (stops_of_ws hw' (by decide) r)]
    simp only
    rw [skipWs_append hw' (stops_cons rfl _)]
    rfl
  | _, _, .more hw hk hw₁ hw₂ h hw' ht, n + 1, r, hn => by
    have hlen := value_length h
    simp only [List.length_append, List.length_cons] at hn
    simp only [List.append_assoc, List.cons_append]
    rw [parseMembers, parseKey_append hw hk hw₁]
    simp only
    rw [skipWs_append hw₂ (value_stops h _),
      parseValue_append h (by omega) (stops_of_ws hw' (by decide) _)]
    simp only
    rw [skipWs_append hw' (stops_cons rfl _)]
    simp only [if_neg (show ',' ≠ '}' by decide), if_true]
    rw [parseMembers_append ht (by omega)]
    rfl

end

theorem word_of_parseWord {word s r : List Char} (h : parseWord word s = some r) :
    s = word ++ r := by
  unfold parseWord at h
  split at h
  · rename_i hprefix
    rw [← Option.some.inj h]
    exact (List.prefix_iff_eq_append.mp hprefix).symm
  · exact absurd h nofun

theorem skipWs_head {s : List Char} {c : Char} (h : (skipWs s).head? = some c) :
    ∃ w, Ws w ∧ s = w ++ c :: (skipWs s).tail := by
  obtain ⟨w, hw, hs⟩ := skipWs_spec s
  refine ⟨w, hw, ?_⟩
  cases hskip : skipWs s with
  | nil => rw [hskip] at h; exact absurd h nofun
  | cons d r =>
    rw [hskip] at h hs
    rw [← Option.some.inj h]
    exact hs

theorem key_of_parseKey {k s r : List Char} (h : parseKey s = some (k, r)) :
    ∃ w sk w₁, Ws w ∧ Chars k sk ∧ Ws w₁ ∧ s = w ++ '"' :: (sk ++ (w₁ ++ ':' :: r)) := by
  obtain ⟨w, hw, hs⟩ := skipWs_spec s
  unfold parseKey at h
  split at h
  · exact absurd h nofun
  · rename_i hskip
    split at h
    · rename_i hc
      split at h
      · exact absurd h nofun
      · rename_i hchars
        obtain ⟨sk, rfl, hsk⟩ := chars_of_parseChars hchars
        split at h
        · rename_i hcolon
          obtain ⟨rfl, rfl⟩ := Prod.mk.inj (Option.some.inj h)
          obtain ⟨w₁, hw₁, hr⟩ := skipWs_head hcolon
          exact ⟨w, sk, w₁, hw, hsk, hw₁, by rw [← hr, ← hc, ← hskip, ← hs]⟩
        · exact absurd h nofun
    · exact absurd h nofun

mutual

theorem value_of_parseValue : ∀ {n : Nat} {s r : List Char} {v : Json},
    parseValue n s = some (v, r) → ∃ p, s = p ++ r ∧ Value v p
  | 0, _, _, _, h => absurd h nofun
  | _ + 1, [], _, _, h => absurd h nofun
  | n + 1, c :: s, r, v, h => by
    rw [parseValue] at h
    split at h
    · rename_i hc
      obtain ⟨r', hword, hmap⟩ := Option.map_eq_some_iff.mp h
      obtain ⟨rfl, rfl⟩ := Prod.mk.inj hmap
      exact ⟨_, by rw [hc, word_of_parseWord hword]; rfl, .null⟩
    · split at h
      · rename_i hc
        obtain ⟨r', hword, hmap⟩ := Option.map_eq_some_iff.mp h
        obtain ⟨rfl, rfl⟩ := Prod.mk.inj hmap
        exact ⟨_, by rw [hc, word_of_parseWord hword]; rfl, .true⟩
      · split at h
        · rename_i hc
          obtain ⟨r', hword, hmap⟩ := Option.map_eq_some_iff.mp h
          obtain ⟨rfl, rfl⟩ := Prod.mk.inj hmap
          exact ⟨_, by rw [hc, word_of_parseWord hword]; rfl, .false⟩
        · split at h
          · rename_i hc
            obtain ⟨⟨cs, r'⟩, hchars, hmap⟩ := Option.map_eq_some_iff.mp h
            obtain ⟨rfl, rfl⟩ := Prod.mk.inj hmap
            obtain ⟨p, rfl, hp⟩ := chars_of_parseChars hchars
            exact ⟨_, by rw [hc]; rfl, .string hp⟩
          · split at h
            · rename_i hc
              split at h
              · rename_i hclose
                obtain ⟨rfl, rfl⟩ := Prod.mk.inj (Option.some.inj h)
                obtain ⟨w, hw, hs⟩ := skipWs_head hclose
                refine ⟨_, ?_, .emptyArray hw⟩
                rw [List.cons_append, List.append_assoc, List.singleton_append, ← hs, hc]
              · obtain ⟨⟨es, r'⟩, hes, hmap⟩ := Option.map_eq_some_iff.mp h
                obtain ⟨rfl, rfl⟩ := Prod.mk.inj hmap
                obtain ⟨p, rfl, hp⟩ := elements_of_parseElements hes
                refine ⟨_, ?_, .array hp⟩
                rw [List.cons_append, List.append_assoc, List.singleton_append, hc]
            · split at h
              · rename_i hc
                split at h
                · rename_i hclose
                  obtain ⟨rfl, rfl⟩ := Prod.mk.inj (Option.some.inj h)
                  obtain ⟨w, hw, hs⟩ := skipWs_head hclose
                  refine ⟨_, ?_, .emptyObject hw⟩
                  rw [List.cons_append, List.append_assoc, List.singleton_append, ← hs, hc]
                · obtain ⟨⟨ms, r'⟩, hms, hmap⟩ := Option.map_eq_some_iff.mp h
                  obtain ⟨rfl, rfl⟩ := Prod.mk.inj hmap
                  obtain ⟨p, rfl, hp⟩ := members_of_parseMembers hms
                  refine ⟨_, ?_, .object hp⟩
                  rw [List.cons_append, List.append_assoc, List.singleton_append, hc]
              · obtain ⟨⟨q, r'⟩, hnumber, hmap⟩ := Option.map_eq_some_iff.mp h
                obtain ⟨rfl, rfl⟩ := Prod.mk.inj hmap
                obtain ⟨p, hp, hq⟩ := number_of_parseNumber hnumber
                exact ⟨p, hp, .number hq⟩

theorem elements_of_parseElements : ∀ {n : Nat} {s r : List Char} {es : List Json},
    parseElements n s = some (es, r) → ∃ p, s = p ++ ']' :: r ∧ Elements es p
  | 0, _, _, _, h => absurd h nofun
  | n + 1, s, r, es, h => by
    obtain ⟨w, hw, hs⟩ := skipWs_spec s
    rw [parseElements] at h
    split at h
    · exact absurd h nofun
    · rename_i v r₁ hvalue
      obtain ⟨p, hp, hv⟩ := value_of_parseValue hvalue
      obtain ⟨w', hw', hr₁⟩ := skipWs_spec r₁
      split at h
      · exact absurd h nofun
      · rename_i c r₂ hskip
        rw [hskip] at hr₁
        split at h
        · rename_i hc
          obtain ⟨rfl, rfl⟩ := Prod.mk.inj (Option.some.inj h)
          refine ⟨_, ?_, .one hw hv hw'⟩
          rw [List.append_assoc, List.append_assoc, ← hc, ← hr₁, ← hp, ← hs]
        · split at h
          · rename_i hc
            obtain ⟨⟨es', r'⟩, hes, hmap⟩ := Option.map_eq_some_iff.mp h
            obtain ⟨rfl, rfl⟩ := Prod.mk.inj hmap
            obtain ⟨t, rfl, ht⟩ := elements_of_parseElements hes
            refine ⟨_, ?_, .more hw hv hw' ht⟩
            rw [List.append_assoc, List.append_assoc, List.append_assoc, List.cons_append, ← hc, ← hr₁,
              ← hp, ← hs]
          · exact absurd h nofun

theorem members_of_parseMembers : ∀ {n : Nat} {s r : List Char} {ms : List (List Char × Json)},
    parseMembers n s = some (ms, r) → ∃ p, s = p ++ '}' :: r ∧ Members ms p
  | 0, _, _, _, h => absurd h nofun
  | n + 1, s, r, ms, h => by
    rw [parseMembers] at h
    split at h
    · exact absurd h nofun
    · rename_i k r₀ hkey
      obtain ⟨w, sk, w₁, hw, hk, hw₁, rfl⟩ := key_of_parseKey hkey
      obtain ⟨w₂, hw₂, hr₀⟩ := skipWs_spec r₀
      split at h
      · exact absurd h nofun
      · rename_i v r₁ hvalue
        obtain ⟨p, hp, hv⟩ := value_of_parseValue hvalue
        obtain ⟨w', hw', hr₁⟩ := skipWs_spec r₁
        split at h
        · exact absurd h nofun
        · rename_i c r₂ hskip
          rw [hskip] at hr₁
          split at h
          · rename_i hc
            obtain ⟨rfl, rfl⟩ := Prod.mk.inj (Option.some.inj h)
            refine ⟨_, ?_, .one hw hk hw₁ hw₂ hv hw'⟩
            simp only [List.append_assoc, List.cons_append]
            rw [← hc, ← hr₁, ← hp, ← hr₀]
          · split at h
            · rename_i hc
              obtain ⟨⟨ms', r'⟩, hms, hmap⟩ := Option.map_eq_some_iff.mp h
              obtain ⟨rfl, rfl⟩ := Prod.mk.inj hmap
              obtain ⟨t, rfl, ht⟩ := members_of_parseMembers hms
              refine ⟨_, ?_, .more hw hk hw₁ hw₂ hv hw' ht⟩
              simp only [List.append_assoc, List.cons_append]
              rw [← hc, ← hr₁, ← hp, ← hr₀]
            · exact absurd h nofun

end

theorem ws_iff_skipWs {s : List Char} : Ws s ↔ skipWs s = [] :=
  List.dropWhile_eq_nil_iff.symm

theorem parse_eq_some_iff {s : List Char} {v : Json} : parse s = some v ↔ Text v s := by
  unfold parse
  constructor
  · intro h
    split at h
    · rename_i v' r hvalue
      split at h
      · rename_i hr
        obtain rfl := Option.some.inj h
        obtain ⟨w, hw, hs⟩ := skipWs_spec s
        obtain ⟨p, hp, hv⟩ := value_of_parseValue hvalue
        exact ⟨w, p, r, hw, hv, ws_iff_skipWs.mpr hr, by rw [← hp, ← hs]⟩
      · exact absurd h nofun
    · exact absurd h nofun
  · rintro ⟨w, t, w', hw, hv, hw', rfl⟩
    have hstops : Stops isNumeral w' := by
      cases w' with
      | nil => exact nofun
      | cons c w' => exact stops_cons (not_isNumeral_of_isWs (hw' c List.mem_cons_self)) w'
    rw [skipWs_append hw (value_stops hv w'), parseValue_append hv ?_ hstops]
    · exact if_pos (ws_iff_skipWs.mp hw')
    · simp only [List.length_append]
      omega

theorem ws_nil : Ws [] := nofun

theorem ws_singleton {c : Char} (h : isWs c) : Ws [c] := List.forall_mem_singleton.mpr h

theorem Ws.append {w w' : List Char} (h : Ws w) (h' : Ws w') : Ws (w ++ w') :=
  fun c hc => (List.mem_append.mp hc).elim (h c) (h' c)

theorem Elements.ws_append {es : List Json} {s w : List Char} (hw : Ws w) (h : Elements es s) :
    Elements es (w ++ s) := by
  cases h with
  | one hw₀ h hw' => exact List.append_assoc w _ _ ▸ .one (hw.append hw₀) h hw'
  | more hw₀ h hw' ht => exact List.append_assoc w _ _ ▸ .more (hw.append hw₀) h hw' ht

theorem Members.ws_append {ms : List (List Char × Json)} {s w : List Char} (hw : Ws w)
    (h : Members ms s) : Members ms (w ++ s) := by
  cases h with
  | one hw₀ hk hw₁ hw₂ h hw' =>
    exact List.append_assoc w _ _ ▸ .one (hw.append hw₀) hk hw₁ hw₂ h hw'
  | more hw₀ hk hw₁ hw₂ h hw' ht =>
    exact List.append_assoc w _ _ ▸ .more (hw.append hw₀) hk hw₁ hw₂ h hw' ht

theorem Elements.append_ws : ∀ {es : List Json} {s w : List Char}, Elements es s → Ws w →
    Elements es (s ++ w)
  | _, _, w, .one hw₀ h hw', hw => by
    simpa only [List.append_assoc] using Elements.one hw₀ h (hw'.append hw)
  | _, _, w, .more hw₀ h hw' ht, hw => by
    simpa only [List.append_assoc, List.cons_append] using
      Elements.more hw₀ h hw' (Elements.append_ws ht hw)

theorem Members.append_ws : ∀ {ms : List (List Char × Json)} {s w : List Char}, Members ms s →
    Ws w → Members ms (s ++ w)
  | _, _, w, .one hw₀ hk hw₁ hw₂ h hw', hw => by
    simpa only [List.append_assoc, List.cons_append] using
      Members.one hw₀ hk hw₁ hw₂ h (hw'.append hw)
  | _, _, w, .more hw₀ hk hw₁ hw₂ h hw' ht, hw => by
    simpa only [List.append_assoc, List.cons_append] using
      Members.more hw₀ hk hw₁ hw₂ h hw' (Members.append_ws ht hw)

def utf8 (cs : List Char) : List UInt8 := cs.flatMap String.utf8EncodeChar

def parseUtf8 (bytes : List UInt8) : Option Json :=
  bytes.toByteArray.utf8Decode?.bind fun cs => parse cs.toList

theorem utf8_append (s t : List Char) : utf8 (s ++ t) = utf8 s ++ utf8 t := List.flatMap_append

theorem parseUtf8_utf8 (cs : List Char) : parseUtf8 (utf8 cs) = parse cs := by
  have h : (utf8 cs).toByteArray.utf8Decode? = some cs.toArray := List.utf8Decode?_utf8Encode
  rw [parseUtf8, h]
  rfl

theorem eq_utf8_of_decode {bytes : List UInt8} {cs : Array Char}
    (h : bytes.toByteArray.utf8Decode? = some cs) : bytes = utf8 cs.toList := by
  have henc := ByteArray.utf8Encode_get_utf8Decode? (b := bytes.toByteArray) (h := by rw [h]; rfl)
  simp only [h, Option.get_some] at henc
  have hdata := congrArg (fun b : ByteArray => b.data.toList) henc
  simpa [List.utf8Encode, utf8] using hdata.symm

theorem parseUtf8_eq_some_iff {bytes : List UInt8} {v : Json} :
    parseUtf8 bytes = some v ↔ ∃ cs, Text v cs ∧ bytes = utf8 cs := by
  constructor
  · intro h
    obtain ⟨cs, hcs, hparse⟩ := Option.bind_eq_some_iff.mp h
    exact ⟨cs.toList, parse_eq_some_iff.mp hparse, eq_utf8_of_decode hcs⟩
  · rintro ⟨cs, htext, rfl⟩
    rw [parseUtf8_utf8]
    exact parse_eq_some_iff.mpr htext

end Json

end Lib
