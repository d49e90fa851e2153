import Basu.Introspect.Parse
import Basu.Lib.Text
import Basu.Signature

/-! `xml_tokenize` as it moves through a text: the position and the state that it keeps between two
calls, and the passes of its loop. -/

namespace Basu.Introspect
open Lib

/-! ## The library functions, on a text and a position in it -/

def strspn (s : Str) (c : Nat) (accept : UInt8 → Bool) : Nat := ((s.drop c).takeWhile accept).length

def strcspn (s : Str) (c : Nat) (reject : UInt8 → Bool) : Nat := strspn s c fun x => !reject x

def strchrnul (s : Str) (c : Nat) (ch : UInt8) : Nat := c + strcspn s c fun x => x == ch

def strpbrk (s : Str) (c : Nat) (accept : UInt8 → Bool) : Option Nat :=
  if c + strcspn s c accept < s.length then some (c + strcspn s c accept) else none

def strchr (s : Str) (c : Nat) (ch : UInt8) : Option Nat := strpbrk s c fun x => x == ch

def strstr (s : Str) (c : Nat) (pattern : Str) : Option Nat :=
  (firstPlace pattern (s.drop c)).map (c + ·)

def startswith (s : Str) (c : Nat) (pattern : Str) : Bool := pattern.isPrefixOf (s.drop c)

def strndup (s : Str) (b e : Nat) : Str := (s.drop b).take (e - b)

/-! ## The loop of `xml_tokenize` -/

inductive XmlAnswer
  | xmlEnd
  | token (t : XmlToken) (p : Nat) (state : XmlState)
  | error (r : Errno)
  | failedAssertion
  deriving DecidableEq

inductive XmlPass
  | next (state : XmlState) (c : Nat)
  | answer (a : XmlAnswer)

def namedPass (mk : Str → XmlToken) (s : Str) (b : Nat) : XmlPass :=
  match strpbrk s b endsTagName with
  | none => .answer (.error .einval)
  | some e => .answer (.token (mk (strndup s b e)) e .tag)

def skipPass (e : Option Nat) (n : Nat) : XmlPass :=
  match e with
  | none => .answer (.error .einval)
  | some e => .next .text (e + n)

def textPass (s : Str) (c : Nat) : XmlPass :=
  let e := strchrnul s c charLess
  if c < e then .answer (.token (.text (strndup s c e)) e .text)
  else if charAt s e ≠ charLess then .answer .failedAssertion
  else
    let b := c + 1
    if startswith s b (str "!--") then skipPass (strstr s (b + 3) (str "-->")) 3
    else if charAt s b = charQuestion then skipPass (strstr s (b + 1) (str "?>")) 2
    else if charAt s b = charBang then skipPass (strchr s (b + 1) charGreater) 1
    else if charAt s b = charSlash then namedPass .tagClose s (b + 1)
    else namedPass .tagOpen s b

def tagPass (s : Str) (c : Nat) : XmlPass :=
  let b := c + strspn s c isXmlSpace
  if charAt s b = 0 then .answer (.error .einval)
  else
    let e := b + strcspn s b endsAttributeName
    if b < e then .answer (.token (.attributeName (strndup s b e)) e .attribute)
    else if startswith s b (str "/>") then .answer (.token .tagCloseEmpty (b + 2) .text)
    else if charAt s b ≠ charGreater then .answer (.error .einval)
    else .next .text (b + 1)

def attributePass (s : Str) (c : Nat) : XmlPass :=
  if charAt s c = charEquals then
    let c := c + 1
    if charAt s c = charQuote ∨ charAt s c = charDoubleQuote then
      match strchr s (c + 1) (charAt s c) with
      | none => .answer (.error .einval)
      | some e => .answer (.token (.attributeValue (strndup s (c + 1) e)) (e + 1) .tag)
    else
      let b := (strpbrk s c endsBareValue).getD c
      .answer (.token (.attributeValue (strndup s c b)) b .tag)
  else .next .tag c

def xmlPass (s : Str) (state : XmlState) (c : Nat) : XmlPass :=
  if charAt s c = 0 then .answer .xmlEnd
  else
    match state with
    | .null => .next .null c
    | .text => textPass s c
    | .tag => tagPass s c
    | .attribute => attributePass s c

def xmlLoop (s : Str) : Nat → XmlState → Nat → Option XmlAnswer
  | 0, _, _ => none
  | fuel + 1, state, c =>
    match xmlPass s state c with
    | .next state c => xmlLoop s fuel state c
    | .answer a => some a

def xmlTokenizeAt (fuel : Nat) (s : Str) (state : XmlState) (c : Nat) : Option XmlAnswer :=
  xmlLoop s fuel (if state = .null then .text else state) c

def tokenLoop {σ : Type*} (consume : σ → XmlToken → Except Errno σ) (s : Str) :
    Nat → σ → XmlState → Nat → Option (Except Errno σ)
  | 0, _, _, _ => none
  | fuel + 1, x, state, c =>
    match xmlTokenizeAt fuel s state c with
    | none | some .failedAssertion => none
    | some .xmlEnd => some (.ok x)
    | some (.error r) => some (.error r)
    | some (.token t p state) =>
      match consume x t with
      | .error r => some (.error r)
      | .ok x => tokenLoop consume s fuel x state p

/-! ## What a pass makes of the text behind its position -/

def XmlToken.name : XmlToken → Option Str
  | .text n | .tagOpen n | .tagClose n | .attributeName n | .attributeValue n => some n
  | .tagCloseEmpty => none

/-- The token ends at `p`, behind the position of the call and in the text, and its name is a part of
the text between them. -/
structure Progress (s : Str) (c : Nat) (t : XmlToken) (p : Nat) : Prop where
  lt : c < p
  le : p ≤ s.length
  name : ∀ n, t.name = some n → ∃ i j, c ≤ i ∧ i ≤ j ∧ j ≤ p ∧ n = strndup s i j

def XmlAnswer.Sound (s : Str) (c : Nat) : XmlAnswer → Prop
  | .token t p _ => Progress s c t p
  | .failedAssertion => False
  | .xmlEnd | .error _ => True

def XmlAnswer.Agrees (s : Str) : XmlAnswer → XmlRead → Prop
  | .xmlEnd, r => r = .xmlEnd
  | .token t p state, r => r = .token t (s.drop p) state
  | .error e, r => r = .error e
  | .failedAssertion, _ => False

def XmlPass.Right (s : Str) (state : XmlState) (c : Nat) : XmlPass → Prop
  | .next state' c' => state' ≠ .null ∧ c' ≤ s.length ∧
      (c < c' ∨ c' = c ∧ state = .attribute ∧ state' = .tag) ∧
      xmlTokenize (s.drop c') state' = xmlTokenize (s.drop c) state
  | .answer a => a.Sound s c ∧ a.Agrees s (xmlTokenize (s.drop c) state)

section
variable {s : Str} {c : Nat}

theorem split_takeWhile (q : UInt8 → Bool) (x : Str) :
    x.take (x.takeWhile q).length = x.takeWhile q ∧
      x.drop (x.takeWhile q).length = x.dropWhile q := by
  have h := List.takeWhile_append_dropWhile (p := q) (l := x)
  generalize x.takeWhile q = a at *
  generalize x.dropWhile q = b at *
  subst h
  exact ⟨List.take_left, List.drop_left⟩

theorem drop_strspn (q : UInt8 → Bool) : s.drop (c + strspn s c q) = (s.drop c).dropWhile q := by
  rw [← List.drop_drop]
  exact (split_takeWhile q _).2

theorem strndup_strspn (q : UInt8 → Bool) :
    strndup s c (c + strspn s c q) = (s.drop c).takeWhile q := by
  rw [strndup, Nat.add_sub_cancel_left]
  exact (split_takeWhile q _).1

theorem strspn_le (hc : c ≤ s.length) (q : UInt8 → Bool) : c + strspn s c q ≤ s.length := by
  have hle := (List.takeWhile_prefix q (l := s.drop c)).length_le
  rw [List.length_drop] at hle
  unfold strspn
  omega

theorem firstPlace_eq (pattern : Str) : ∀ x, behind pattern x =
    (firstPlace pattern x).map fun k => x.drop (k + pattern.length)
  | [] => rfl
  | c :: x => by
    rw [behind, firstPlace, firstPlace_eq pattern x]
    split
    · rw [Option.map_some, Nat.zero_add]
    · rw [Option.map_map]
      exact congrArg (Option.map · _) (funext fun k => by
        rw [Function.comp_apply, Nat.add_right_comm, List.drop_succ_cons])

theorem drop_eq_cons (hc : c < s.length) : s.drop c = charAt s c :: s.drop (c + 1) := by
  rw [List.drop_eq_getElem_cons hc, charAt, List.getD_eq_getElem?_getD, List.getElem?_eq_getElem hc,
    Option.getD_some]

theorem strpbrk_of_nil {q : UInt8 → Bool} (h : ((s.drop c).dropWhile fun x => !q x) = []) :
    strpbrk s c q = none := by
  rw [← drop_strspn, List.drop_eq_nil_iff] at h
  exact if_neg (not_lt.mpr h)

theorem strpbrk_of_cons {q : UInt8 → Bool} {d : UInt8} {r : Str}
    (h : ((s.drop c).dropWhile fun x => !q x) = d :: r) :
    strpbrk s c q = some (c + strcspn s c q) ∧ c + strcspn s c q < s.length ∧
      s.drop (c + strcspn s c q) = d :: r := by
  have hdrop : s.drop (c + strcspn s c q) = d :: r := (drop_strspn _).trans h
  have hlt : c + strcspn s c q < s.length := by
    by_contra hge
    rw [List.drop_eq_nil_iff.mpr (not_lt.mp hge)] at hdrop
    exact absurd hdrop nofun
  exact ⟨if_pos hlt, hlt, hdrop⟩

def XmlPass.Answers (s : Str) (c : Nat) (pass : XmlPass) (r : XmlRead) : Prop :=
  ∃ a, pass = .answer a ∧ a.Sound s c ∧ a.Agrees s r

theorem namedPass_answers (mk : Str → XmlToken) (hmk : ∀ n, (mk n).name = some n) {b : Nat}
    (hb : c < b) : (namedPass mk s b).Answers s c (tagNamed mk (s.drop b)) := by
  unfold namedPass tagNamed
  cases h : (s.drop b).dropWhile fun x => !endsTagName x with
  | nil =>
    rw [strpbrk_of_nil h]
    exact ⟨_, rfl, trivial, rfl⟩
  | cons d r =>
    obtain ⟨he, hlt, hdrop⟩ := strpbrk_of_cons h
    rw [he]
    refine ⟨_, rfl, ⟨by omega, hlt.le, fun n hn => ?_⟩, ?_⟩
    · rw [hmk] at hn
      exact ⟨b, _, hb.le, Nat.le_add_right _ _, le_refl _, (Option.some.inj hn).symm⟩
    · change _ = XmlRead.token _ _ _
      rw [hdrop, strcspn, strndup_strspn]

theorem skipPass_right {state : XmlState} {b : Nat} {pattern : Str} (hb : c < b)
    (hpattern : pattern ≠ [])
    (hread : xmlTokenize (s.drop c) state = match behind pattern (s.drop b) with
      | none => .error .einval
      | some r => tokenizeText r) :
    (skipPass (strstr s b pattern) pattern.length).Right s state c := by
  rw [firstPlace_eq] at hread
  unfold skipPass strstr
  cases h : firstPlace pattern (s.drop b) with
  | none =>
    rw [h] at hread
    exact ⟨trivial, hread⟩
  | some k =>
    rw [h] at hread
    have hle := firstPlace_le h
    have hpos := List.length_pos_of_ne_nil hpattern
    rw [List.length_drop] at hle
    have hend : b + k + pattern.length ≤ s.length := by omega
    refine ⟨nofun, hend, Or.inl (show c < b + k + pattern.length by omega), ?_⟩
    rw [hread]
    change tokenizeText (s.drop (b + k + pattern.length)) =
      tokenizeText ((s.drop b).drop (k + pattern.length))
    rw [List.drop_drop, Nat.add_assoc]

theorem firstPlace_singleton (ch : UInt8) : ∀ x : Str, firstPlace [ch] x =
    if (x.takeWhile fun y => !(y == ch)).length < x.length then
      some (x.takeWhile fun y => !(y == ch)).length else none
  | [] => rfl
  | d :: x => by
    by_cases h : d = ch
    · subst h
      simp [firstPlace]
    · have hne : ¬ch = d := fun heq => h heq.symm
      rw [firstPlace, firstPlace_singleton ch x]
      simp only [List.isPrefixOf_cons_cons, List.isPrefixOf_nil_left, Bool.and_true, beq_iff_eq,
        hne, if_false, h, List.takeWhile_cons, Bool.not_eq_true', beq_eq_false_iff_ne, ne_eq,
        not_false_eq_true, if_true, List.length_cons, Nat.add_lt_add_iff_right]
      split <;> rfl

theorem strchr_eq {b : Nat} (hb : b ≤ s.length) (ch : UInt8) : strchr s b ch = strstr s b [ch] := by
  unfold strchr strpbrk strstr strcspn strspn
  rw [firstPlace_singleton, List.length_drop]
  by_cases h : b + ((s.drop b).takeWhile fun y => !(y == ch)).length < s.length
  · rw [if_pos h, if_pos (by omega)]
    rfl
  · rw [if_neg h, if_neg (by omega)]
    rfl

theorem not_beq_eq (ch : UInt8) : (fun x : UInt8 => decide (x ≠ ch)) = fun x => !(x == ch) := by
  funext x
  by_cases h : x = ch <;> simp [h]

theorem textPass_right (hc : c < s.length) : (textPass s c).Right s .text c := by
  have hdrop := drop_eq_cons hc
  by_cases hangle : charAt s c = charLess
  · have hstay : strchrnul s c charLess = c := by
      unfold strchrnul strcspn strspn
      rw [hdrop, hangle]
      rfl
    have hread : xmlTokenize (s.drop c) .text = match behindMarkup (s.drop (c + 1)) with
        | some none => .error .einval
        | some (some r) => tokenizeText r
        | none => tokenizeAngle (s.drop (c + 1)) := by
      rw [hdrop, hangle]
      change tokenizeText _ = _
      rw [tokenizeText, if_neg (not_not.mpr rfl)]
      split <;> simp only [*]
    have hfound : ∀ x : Option Str, behindMarkup (s.drop (c + 1)) = some x →
        xmlTokenize (s.drop c) .text = match x with
          | none => .error .einval
          | some r => tokenizeText r := by
      intro x hx
      rw [hread, hx]
      cases x <;> rfl
    have hmarkup : behindMarkup (s.drop (c + 1)) =
        if startswith s (c + 1) (str "!--") then some (behind (str "-->") (s.drop (c + 1 + 3)))
        else if charAt s (c + 1) = charQuestion then
          some (behind (str "?>") (s.drop (c + 1 + 1)))
        else if charAt s (c + 1) = charBang then some (behind (str ">") (s.drop (c + 1 + 1)))
        else none := by
      rw [behindMarkup, ← charAt_drop, List.drop_drop, List.drop_drop]
      rfl
    unfold textPass
    simp only [hstay, lt_irrefl, if_false, hangle, ne_eq, not_true]
    by_cases hcomment : startswith s (c + 1) (str "!--") = true
    · rw [if_pos hcomment] at hmarkup ⊢
      exact skipPass_right (by omega) (by decide) (hfound _ hmarkup)
    rw [if_neg hcomment] at hmarkup ⊢
    by_cases hquestion : charAt s (c + 1) = charQuestion
    · rw [if_pos hquestion] at hmarkup ⊢
      exact skipPass_right (by omega) (by decide) (hfound _ hmarkup)
    rw [if_neg hquestion] at hmarkup ⊢
    by_cases hbang : charAt s (c + 1) = charBang
    · rw [if_pos hbang] at hmarkup ⊢
      have hlt : c + 1 < s.length := by
        by_contra hge
        rw [charAt_of_le (not_lt.mp hge)] at hbang
        exact absurd hbang (by decide)
      rw [strchr_eq hlt]
      exact skipPass_right (by omega) (by decide) (hfound _ hmarkup)
    rw [if_neg hbang] at hmarkup ⊢
    have htag : xmlTokenize (s.drop c) .text = tokenizeAngle (s.drop (c + 1)) := by
      rw [hread, hmarkup]
    by_cases hslash : charAt s (c + 1) = charSlash
    · rw [if_pos hslash]
      obtain ⟨a, ha, hsound, hagrees⟩ := namedPass_answers (s := s) .tagClose (fun _ => rfl)
        (show c < c + 1 + 1 by omega)
      rw [ha]
      refine ⟨hsound, ?_⟩
      rw [htag, tokenizeAngle, ← charAt_drop, if_pos hslash, List.drop_drop]
      exact hagrees
    · rw [if_neg hslash]
      obtain ⟨a, ha, hsound, hagrees⟩ := namedPass_answers (s := s) .tagOpen (fun _ => rfl)
        (show c < c + 1 by omega)
      rw [ha]
      refine ⟨hsound, ?_⟩
      rw [htag, tokenizeAngle, ← charAt_drop, if_neg hslash]
      exact hagrees
  · have hfirst : 0 < strcspn s c fun x => x == charLess := by
      unfold strcspn strspn
      rw [hdrop, List.takeWhile_cons_of_pos (by simpa using hangle)]
      exact Nat.succ_pos _
    have hlt : c < strchrnul s c charLess := Nat.lt_add_of_pos_right hfirst
    unfold textPass
    simp only [if_pos hlt]
    refine ⟨⟨hlt, strspn_le hc.le _, fun n hn => ?_⟩, ?_⟩
    · exact ⟨c, _, le_refl c, hlt.le, le_refl _, (Option.some.inj hn).symm⟩
    · change xmlTokenize _ _ = .token _ _ _
      rw [strchrnul, strcspn, strndup_strspn, drop_strspn, ← not_beq_eq, hdrop]
      change tokenizeText _ = _
      rw [tokenizeText, if_pos hangle]

theorem tagPass_right (h0 : (0 : UInt8) ∉ s) (hc : c < s.length) : (tagPass s c).Right s .tag c := by
  have hb : c + strspn s c isXmlSpace ≤ s.length := strspn_le hc.le _
  have hread : xmlTokenize (s.drop c) .tag =
      tokenizeTagAt (s.drop (c + strspn s c isXmlSpace)) := by
    change tokenizeTag _ = _
    have hne : s.drop c ≠ [] := by rw [drop_eq_cons hc]; exact List.cons_ne_nil _ _
    rw [tokenizeTag, if_neg hne, drop_strspn]
  have hle : c ≤ c + strspn s c isXmlSpace := Nat.le_add_right _ _
  unfold tagPass
  generalize c + strspn s c isXmlSpace = b at *
  simp only
  unfold tokenizeTagAt at hread
  simp only at hread
  by_cases hend : charAt s b = 0
  · rw [if_pos hend]
    refine ⟨trivial, ?_⟩
    rw [hread, if_pos (List.drop_eq_nil_iff.mpr ((charAt_eq_zero_iff h0 hb).mp hend).ge)]
    exact rfl
  have hlt : b < s.length := lt_of_le_of_ne hb fun h => hend ((charAt_eq_zero_iff h0 hb).mpr h)
  have hne : s.drop b ≠ [] := by rw [drop_eq_cons hlt]; exact List.cons_ne_nil _ _
  rw [if_neg hend]
  rw [if_neg hne] at hread
  by_cases hname : 0 < strcspn s b endsAttributeName
  · rw [if_pos (Nat.lt_add_of_pos_right hname)]
    refine ⟨⟨by omega, strspn_le hb _, fun n hn => ?_⟩, ?_⟩
    · exact ⟨b, _, hle, Nat.le_add_right _ _, le_refl _, (Option.some.inj hn).symm⟩
    · rw [hread, if_pos (List.ne_nil_of_length_pos hname)]
      change _ = XmlRead.token _ _ _
      rw [strcspn, strndup_strspn, drop_strspn]
  have hnil : ((s.drop b).takeWhile fun x => !endsAttributeName x) = [] :=
    List.length_eq_zero_iff.mp (Nat.eq_zero_of_not_pos hname)
  rw [if_neg (by omega)]
  rw [if_neg (not_not.mpr hnil)] at hread
  by_cases hempty : startswith s b (str "/>") = true
  · have hlen := (List.isPrefixOf_iff_prefix.mp hempty).length_le
    rw [List.length_drop] at hlen
    have htwo : (str "/>").length = 2 := by decide
    rw [if_pos hempty]
    refine ⟨⟨by omega, by omega, fun n hn => by cases hn⟩, ?_⟩
    rw [hread, if_pos (show (str "/>").isPrefixOf (s.drop b) = true from hempty), List.drop_drop]
    exact rfl
  rw [if_neg hempty]
  rw [if_neg (show ¬(str "/>").isPrefixOf (s.drop b) = true from hempty), ← charAt_drop,
    List.drop_drop] at hread
  by_cases hclose : charAt s b = charGreater
  · rw [if_neg (not_not.mpr hclose)]
    rw [if_neg (not_not.mpr hclose)] at hread
    exact ⟨(fun hs => by cases hs), hlt, Or.inl (by omega), hread.symm⟩
  · rw [if_pos hclose]
    rw [if_pos hclose] at hread
    exact ⟨trivial, hread⟩

theorem attributePass_right (hc : c < s.length) : (attributePass s c).Right s .attribute c := by
  have hread : xmlTokenize (s.drop c) .attribute =
      if charAt s c ≠ charEquals then tokenizeTag (s.drop c)
      else if charAt s (c + 1) = charQuote ∨ charAt s (c + 1) = charDoubleQuote then
        tokenizeQuoted (charAt s (c + 1)) (s.drop (c + 1 + 1))
      else tokenizeBare (s.drop (c + 1)) := by
    change tokenizeAttribute _ = _
    have hone : charAt (s.drop c) 1 = charAt s (c + 1) := by
      rw [charAt_drop, List.drop_drop, ← charAt_drop]
    rw [tokenizeAttribute, ← charAt_drop, hone, List.drop_drop, List.drop_drop]
  unfold attributePass
  by_cases hequals : charAt s c = charEquals
  swap
  · rw [if_neg hequals]
    rw [if_pos hequals] at hread
    exact ⟨(fun hs => by cases hs), hc.le, Or.inr ⟨rfl, rfl, rfl⟩, hread.symm⟩
  rw [if_pos hequals]
  rw [if_neg (not_not.mpr hequals)] at hread
  simp only
  by_cases hquote : charAt s (c + 1) = charQuote ∨ charAt s (c + 1) = charDoubleQuote
  · rw [if_pos hquote]
    rw [if_pos hquote] at hread
    generalize charAt s (c + 1) = quote at *
    have hbne : (fun x : UInt8 => x != quote) = fun x => !(x == quote) := rfl
    unfold tokenizeQuoted at hread
    rw [hbne] at hread
    cases h : (s.drop (c + 1 + 1)).dropWhile fun x => !(x == quote) with
    | nil =>
      rw [h] at hread
      rw [strchr, strpbrk_of_nil h]
      exact ⟨trivial, hread⟩
    | cons d r =>
      obtain ⟨he, hlt, hdrop⟩ := strpbrk_of_cons h
      rw [h] at hread
      rw [strchr, he]
      refine ⟨⟨by omega, hlt, fun n hn => ?_⟩, ?_⟩
      · exact ⟨c + 1 + 1, _, by omega, Nat.le_add_right _ _, Nat.le_succ _,
          (Option.some.inj hn).symm⟩
      · have hrest : s.drop (c + 1 + 1 + strcspn s (c + 1 + 1) (fun x => x == quote) + 1) = r := by
          rw [← List.drop_drop, hdrop, List.drop_one, List.tail_cons]
        rw [hread]
        change _ = XmlRead.token _ _ _
        rw [hrest, strcspn, strndup_strspn]
  · rw [if_neg hquote]
    rw [if_neg hquote] at hread
    unfold tokenizeBare at hread
    cases h : (s.drop (c + 1)).dropWhile fun x => !endsBareValue x with
    | nil =>
      rw [if_pos h] at hread
      rw [strpbrk_of_nil h]
      refine ⟨⟨Nat.lt_succ_self c, hc, fun n hn => ?_⟩, ?_⟩
      · exact ⟨c + 1, c + 1, Nat.le_succ c, le_refl _, le_refl _, (Option.some.inj hn).symm⟩
      · rw [hread]
        change _ = XmlRead.token (.attributeValue (strndup s (c + 1) (c + 1))) _ _
        rw [strndup, Nat.sub_self, List.take_zero]
        rfl
    | cons d r =>
      obtain ⟨he, hlt, hdrop⟩ := strpbrk_of_cons h
      rw [if_neg (by rw [h]; exact List.cons_ne_nil _ _), h] at hread
      rw [he]
      refine ⟨⟨show c < c + 1 + _ by omega, hlt.le, fun n hn => ?_⟩, ?_⟩
      · exact ⟨c + 1, _, Nat.le_succ c, Nat.le_add_right _ _, le_refl _, (Option.some.inj hn).symm⟩
      · rw [hread]
        change _ = XmlRead.token (.attributeValue (strndup s (c + 1) (c + 1 + strcspn s (c + 1) _)))
          (s.drop (c + 1 + strcspn s (c + 1) _)) _
        rw [hdrop, strcspn, strndup_strspn]

theorem xmlPass_right (h0 : (0 : UInt8) ∉ s) (hc : c ≤ s.length) {state : XmlState}
    (hstate : state ≠ .null) : (xmlPass s state c).Right s state c := by
  unfold xmlPass
  by_cases hend : charAt s c = 0
  · rw [if_pos hend]
    refine ⟨trivial, ?_⟩
    rw [List.drop_eq_nil_of_le ((charAt_eq_zero_iff h0 hc).mp hend).ge]
    match state with
    | .null => exact absurd rfl hstate
    | .text =>
      change tokenizeText [] = _
      rw [tokenizeText]
    | .tag => exact rfl
    | .attribute => exact rfl
  · have hlt : c < s.length := lt_of_le_of_ne hc fun h => hend ((charAt_eq_zero_iff h0 hc).mpr h)
    rw [if_neg hend]
    match state with
    | .null => exact absurd rfl hstate
    | .text => exact textPass_right hlt
    | .tag => exact tagPass_right h0 hlt
    | .attribute => exact attributePass_right hlt

theorem Progress.earlier {c' : Nat} {t : XmlToken} {p : Nat} (h : Progress s c' t p) (hc : c ≤ c') :
    Progress s c t p where
  lt := hc.trans_lt h.lt
  le := h.le
  name n hn := by
    obtain ⟨i, j, hi, hij, hj, hname⟩ := h.name n hn
    exact ⟨i, j, hc.trans hi, hij, hj, hname⟩

theorem XmlAnswer.Sound.earlier {c' : Nat} {a : XmlAnswer} (h : a.Sound s c') (hc : c ≤ c') :
    a.Sound s c := by
  cases a with
  | token t p state => exact Progress.earlier h hc
  | failedAssertion => exact h
  | xmlEnd | error => trivial

/-! ## Calls and loops over tokens -/

def passesLeft (s : Str) (state : XmlState) (c : Nat) : Nat :=
  2 * (s.length - c) + (if state = .attribute then 1 else 0) + 1

theorem xmlLoop_answers (h0 : (0 : UInt8) ∉ s) {n : Nat} : ∀ {state : XmlState} {c : Nat},
    c ≤ s.length → state ≠ .null → passesLeft s state c ≤ n →
      ∃ a, (∀ fuel, n ≤ fuel → xmlLoop s fuel state c = some a) ∧ a.Sound s c ∧
        a.Agrees s (xmlTokenize (s.drop c) state) := by
  induction n with
  | zero => exact fun _ _ hn => absurd hn (Nat.not_succ_le_zero _)
  | succ n ih =>
    intro state c hc hstate hn
    have hright := xmlPass_right h0 hc hstate
    have hturn : ∀ {a}, (∀ fuel, n ≤ fuel →
        (match xmlPass s state c with
          | .next state c => xmlLoop s fuel state c
          | .answer a => some a) = some a) →
        ∀ fuel, n + 1 ≤ fuel → xmlLoop s fuel state c = some a := by
      intro a h fuel hfuel
      obtain ⟨fuel, rfl⟩ : ∃ f, fuel = f + 1 := ⟨fuel - 1, by omega⟩
      exact h fuel (Nat.le_of_succ_le_succ hfuel)
    cases h : xmlPass s state c with
    | answer a =>
      rw [h] at hright hturn
      exact ⟨a, hturn fun _ _ => rfl, hright⟩
    | next state' c' =>
      rw [h] at hright hturn
      obtain ⟨hstate', hc', hmove, hread⟩ := hright
      have hle : c ≤ c' := by omega
      have hless : passesLeft s state' c' ≤ n := by
        unfold passesLeft at hn ⊢
        obtain hlt | ⟨rfl, rfl, rfl⟩ := hmove
        · split_ifs at hn ⊢ <;> omega
        · simp only [if_true, reduceCtorEq, if_false] at hn ⊢
          omega
      obtain ⟨a, ha, hsound, hagrees⟩ := ih hc' hstate' hless
      rw [hread] at hagrees
      exact ⟨a, hturn ha, hsound.earlier hle, hagrees⟩

theorem xmlTokenizeAt_answers (h0 : (0 : UInt8) ∉ s) (state : XmlState) (hc : c ≤ s.length) :
    ∃ a, (∀ fuel, 2 * (s.length - c) + 2 ≤ fuel → xmlTokenizeAt fuel s state c = some a) ∧
      a.Sound s c ∧ a.Agrees s (xmlTokenize (s.drop c) state) := by
  have hstart : (if state = .null then XmlState.text else state) ≠ .null := by
    split
    · nofun
    · assumption
  have hread : xmlTokenize (s.drop c) (if state = .null then XmlState.text else state) =
      xmlTokenize (s.drop c) state := by
    cases state <;> rfl
  have hpasses : passesLeft s (if state = .null then XmlState.text else state) c ≤
      2 * (s.length - c) + 2 := by
    unfold passesLeft
    split_ifs <;> omega
  rw [← hread]
  exact xmlLoop_answers h0 hc hstart hpasses

def consumed {σ : Type*} (consume : σ → XmlToken → Except Errno σ) (x : σ)
    (l : List XmlToken × Option Errno) : Except Errno σ :=
  match l.1.foldlM consume x with
  | .error r => .error r
  | .ok x =>
    match l.2 with
    | some r => .error r
    | none => .ok x

theorem tokenLoop_ends {σ : Type*} (consume : σ → XmlToken → Except Errno σ) (h0 : (0 : UInt8) ∉ s)
    {n : Nat} : ∀ (x : σ) {state : XmlState} {c : Nat}, c ≤ s.length → 2 * (s.length - c) + 3 ≤ n →
      ∀ fuel, n ≤ fuel → tokenLoop consume s fuel x state c =
        some (consumed consume x (xmlTokens (s.drop c) state)) := by
  induction n with
  | zero => exact fun _ _ _ _ hn => absurd hn (Nat.not_succ_le_zero _)
  | succ n ih =>
    intro x state c hc hn fuel hfuel
    obtain ⟨fuel, rfl⟩ : ∃ f, fuel = f + 1 := ⟨fuel - 1, by omega⟩
    obtain ⟨a, ha, hsound, hagrees⟩ := xmlTokenizeAt_answers h0 state hc
    rw [tokenLoop, ha fuel (by omega)]
    cases a with
    | xmlEnd =>
      rw [xmlTokens_end hagrees]
      rfl
    | error r =>
      rw [xmlTokens_error hagrees]
      rfl
    | failedAssertion => exact absurd hsound not_false
    | token t p state' =>
      obtain ⟨hlt, hp, -⟩ : Progress s c t p := hsound
      rw [xmlTokens_token hagrees]
      simp only [consumed, List.foldlM_cons]
      cases hx : consume x t with
      | error r => rfl
      | ok x' => exact ih x' hp (by omega) fuel (by omega)

end

/-- Each call comes to an answer without a failed assertion and moves forward in the text, and each
loop over the tokens ends. -/
theorem xmlTokenize_advances (s : Str) (h0 : (0 : UInt8) ∉ s) :
    (∀ state c, c ≤ s.length → ∃ a,
      (∀ fuel, 2 * (s.length - c) + 2 ≤ fuel → xmlTokenizeAt fuel s state c = some a) ∧
        a.Sound s c) ∧
    (∀ (σ : Type) (consume : σ → XmlToken → Except Errno σ) (x : σ) state c, c ≤ s.length →
      ∃ r, ∀ fuel, 2 * (s.length - c) + 3 ≤ fuel → tokenLoop consume s fuel x state c = some r) ∧
    ∀ ops pathPrefix, ∃ r,
      (∀ fuel, 2 * s.length + 3 ≤ fuel →
        tokenLoop (Parser.step ops pathPrefix) s fuel {} .null 0 = some r) ∧
      parseXmlIntrospect ops pathPrefix s =
        match r with
        | .error r => .error r
        | .ok p => if p.control = {} then .ok p.calls else .error .ebadmsg := by
  refine ⟨fun state c hc => ?_, fun σ consume x state c hc => ?_, fun ops pathPrefix => ?_⟩
  · obtain ⟨a, ha, hsound, -⟩ := xmlTokenizeAt_answers h0 state hc
    exact ⟨a, ha, hsound⟩
  · exact ⟨_, tokenLoop_ends consume h0 x hc (le_refl _)⟩
  · refine ⟨_, tokenLoop_ends (Parser.step ops pathPrefix) h0 ({} : Parser) (n := 2 * s.length + 3)
      (Nat.zero_le _) (by omega), ?_⟩
    rw [List.drop_zero]
    unfold parseXmlIntrospect consumed
    obtain ⟨ts, e⟩ := xmlTokens s .null
    simp only
    cases ts.foldlM (Parser.step ops pathPrefix) {} with
    | error r => rfl
    | ok p => cases e <;> rfl

theorem xmlTokenize_advances_node :
    (∃ a, xmlTokenizeAt 18 (str "<node/>") .null 0 = some a ∧ a.Sound (str "<node/>") 0) ∧
      ∃ r, tokenLoop (Parser.step (⟨none, none, none, none, none⟩) []) (str "<node/>") 18 {} .null 0 =
        some r := by
  obtain ⟨hcall, -, hparse⟩ := xmlTokenize_advances (str "<node/>") (by decide)
  obtain ⟨a, ha, hsound⟩ := hcall .null 0 (Nat.zero_le _)
  obtain ⟨r, hr, -⟩ := hparse ⟨none, none, none, none, none⟩ []
  exact ⟨⟨a, ha 18 (by decide), hsound⟩, r, hr 18 (by decide)⟩

end Basu.Introspect
