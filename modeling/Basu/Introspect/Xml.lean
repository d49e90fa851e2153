import Basu.Names
import Mathlib.Data.List.TakeWhile

/-! `xml_tokenize`: the tokens of a text in the subset of XML that introspection data is read in. -/

namespace Basu.Introspect
open Lib

def charLess : UInt8 := 60
def charGreater : UInt8 := 62
def charBang : UInt8 := 33
def charQuestion : UInt8 := 63
def charQuote : UInt8 := 39
def charDoubleQuote : UInt8 := 34

def isXmlSpace (c : UInt8) : Bool := c == 32 || c == 9 || c == 10 || c == 13

def endsTagName (c : UInt8) : Bool := isXmlSpace c || c == charSlash || c == charGreater

def endsAttributeName (c : UInt8) : Bool := endsTagName c || c == charEquals

def endsBareValue (c : UInt8) : Bool := isXmlSpace c || c == charGreater

inductive XmlState
  | null | text | tag | attribute
  deriving DecidableEq

inductive XmlToken
  | text (name : Str) | tagOpen (name : Str) | tagClose (name : Str) | tagCloseEmpty
  | attributeName (name : Str) | attributeValue (name : Str)
  deriving DecidableEq

inductive XmlRead
  | xmlEnd
  | token (t : XmlToken) (p : Str) (state : XmlState)
  | error (r : Errno)
  deriving DecidableEq

/-- The text behind the first place where `pattern` stands. -/
def behind (pattern : Str) : Str → Option Str
  | [] => none
  | c :: s =>
    if pattern.isPrefixOf (c :: s) then some ((c :: s).drop pattern.length) else behind pattern s

/-- The text behind a comment, a processing instruction or a DTD, if one starts at `b`. -/
def behindMarkup (b : Str) : Option (Option Str) :=
  if (str "!--").isPrefixOf b then some (behind (str "-->") (b.drop 3))
  else if charAt b 0 = charQuestion then some (behind (str "?>") (b.drop 1))
  else if charAt b 0 = charBang then some (behind (str ">") (b.drop 1))
  else none

def tagNamed (mk : Str → XmlToken) (b : Str) : XmlRead :=
  match b.dropWhile fun c => !endsTagName c with
  | [] => .error .einval
  | e => .token (mk (b.takeWhile fun c => !endsTagName c)) e .tag

def tokenizeAngle (b : Str) : XmlRead :=
  if charAt b 0 = charSlash then tagNamed .tagClose (b.drop 1) else tagNamed .tagOpen b

theorem behind_length {pattern : Str} : ∀ {s r : Str}, behind pattern s = some r →
    r.length ≤ s.length
  | [], _, h => nomatch h
  | c :: s, r, h => by
    rw [behind] at h
    split at h
    · rw [← Option.some.inj h, List.length_drop]
      omega
    · exact (behind_length h).trans (Nat.le_succ _)

theorem behindMarkup_length {b r : Str} (h : behindMarkup b = some (some r)) :
    r.length ≤ b.length := by
  have hdrop : ∀ {pattern : Str} {n : Nat}, some (behind pattern (b.drop n)) = some (some r) →
      r.length ≤ b.length := fun h =>
    (behind_length (Option.some.inj h)).trans (by rw [List.length_drop]; omega)
  unfold behindMarkup at h
  split at h
  · exact hdrop h
  split at h
  · exact hdrop h
  split at h
  · exact hdrop h
  · exact absurd h nofun

def tokenizeText : Str → XmlRead
  | [] => .xmlEnd
  | x :: b =>
    if x ≠ charLess then
      .token (.text ((x :: b).takeWhile fun c => c ≠ charLess))
        ((x :: b).dropWhile fun c => c ≠ charLess) .text
    else
      match _h : behindMarkup b with
      | some none => .error .einval
      | some (some c) => tokenizeText c
      | none => tokenizeAngle b
termination_by c => c.length
decreasing_by exact Nat.lt_succ_of_le (behindMarkup_length _h)

def tokenizeTagAt (b : Str) : XmlRead :=
  let name := b.takeWhile fun c => !endsAttributeName c
  if b = [] then .error .einval
  else if name ≠ [] then
    .token (.attributeName name) (b.dropWhile fun c => !endsAttributeName c) .attribute
  else if (str "/>").isPrefixOf b then .token .tagCloseEmpty (b.drop 2) .text
  else if charAt b 0 ≠ charGreater then .error .einval
  else tokenizeText (b.drop 1)

def tokenizeTag (c : Str) : XmlRead :=
  if c = [] then .xmlEnd else tokenizeTagAt (c.dropWhile isXmlSpace)

def tokenizeQuoted (quote : UInt8) (c : Str) : XmlRead :=
  match c.dropWhile fun x => x != quote with
  | [] => .error .einval
  | _ :: e => .token (.attributeValue (c.takeWhile fun x => x != quote)) e .tag

def tokenizeBare (c : Str) : XmlRead :=
  if c.dropWhile (fun x => !endsBareValue x) = [] then .token (.attributeValue []) c .tag
  else .token (.attributeValue (c.takeWhile fun x => !endsBareValue x))
    (c.dropWhile fun x => !endsBareValue x) .tag

def tokenizeAttribute (p : Str) : XmlRead :=
  if charAt p 0 ≠ charEquals then tokenizeTag p
  else if charAt p 1 = charQuote ∨ charAt p 1 = charDoubleQuote then
    tokenizeQuoted (charAt p 1) (p.drop 2)
  else tokenizeBare (p.drop 1)

def xmlTokenize (p : Str) : XmlState → XmlRead
  | .null | .text => tokenizeText p
  | .tag => tokenizeTag p
  | .attribute => tokenizeAttribute p

theorem stops_dropWhile {q : UInt8 → Bool} {s : Str} {x : UInt8}
    (h : (s.dropWhile q).head? = some x) : q x = false := by
  have hnot := List.head?_dropWhile_not q s
  rw [h] at hnot
  exact hnot

theorem span_append {q : UInt8 → Bool} {a r : Str} (ha : ∀ x ∈ a, q x = true)
    (hr : ∀ x, r.head? = some x → q x = false) :
    (a ++ r).takeWhile q = a ∧ (a ++ r).dropWhile q = r := by
  rw [List.takeWhile_append_of_pos ha, List.dropWhile_append_of_pos ha]
  cases r with
  | nil => exact ⟨List.append_nil a, rfl⟩
  | cons x r =>
    have hx : ¬q x = true := by simp [hr x rfl]
    rw [List.takeWhile_cons_of_neg hx, List.dropWhile_cons_of_neg hx, List.append_nil]
    exact ⟨rfl, rfl⟩

theorem span_takeWhile {q : UInt8 → Bool} (s : Str) {r : Str}
    (hr : ∀ x, r.head? = some x → q x = false) :
    (s.takeWhile q ++ r).takeWhile q = s.takeWhile q ∧ (s.takeWhile q ++ r).dropWhile q = r :=
  span_append (fun _ hx => List.mem_takeWhile_imp hx) hr

theorem charAt_zero (s : Str) : charAt s 0 = s.head?.getD 0 := by
  cases s <;> rfl

theorem charAt_append_of_head {a r r' : Str} (h : a ≠ [] ∨ r'.head? = r.head?) :
    charAt (a ++ r') 0 = charAt (a ++ r) 0 := by
  cases a with
  | nil =>
    rw [List.nil_append, List.nil_append, charAt_zero, charAt_zero, h.resolve_left fun h => h rfl]
  | cons c a => rfl

theorem behind_append {pattern : Str} (hp : pattern ≠ []) : ∀ {s r : Str},
    behind pattern s = some r →
      ∃ u, s = u ++ pattern ++ r ∧ ∀ r', behind pattern (u ++ pattern ++ r') = some r'
  | [], _, h => nomatch h
  | c :: s, r, h => by
    rw [behind] at h
    split at h
    · next hpre =>
      obtain ⟨t, ht⟩ := List.isPrefixOf_iff_prefix.mp hpre
      rw [← ht, List.drop_left] at h
      obtain rfl := Option.some.inj h
      refine ⟨[], ht.symm, fun r' => ?_⟩
      obtain ⟨d, pattern, rfl⟩ := List.exists_cons_of_ne_nil hp
      rw [List.nil_append, List.cons_append, behind, if_pos (by simp), ← List.cons_append,
        List.drop_left]
    · next hpre =>
      obtain ⟨u, rfl, hu⟩ := behind_append hp h
      refine ⟨c :: u, rfl, fun r' => ?_⟩
      rw [List.cons_append, List.cons_append, behind, if_neg, hu]
      intro hpre'
      have hlen : pattern.length ≤ (c :: (u ++ pattern)).length := by
        simp only [List.length_cons, List.length_append]
        omega
      have hpre' := List.isPrefixOf_iff_prefix.mp hpre'
      rw [← List.cons_append] at hpre'
      have hin := List.prefix_of_prefix_length_le hpre' (List.prefix_append _ r') hlen
      exact hpre (List.isPrefixOf_iff_prefix.mpr (hin.trans (List.prefix_append _ r)))

theorem behindMarkup_eq_none {b : Str} :
    behindMarkup b = none ↔ charAt b 0 ≠ charQuestion ∧ charAt b 0 ≠ charBang := by
  have hbang : (str "!--").isPrefixOf b = true → charAt b 0 = charBang := by
    intro h
    obtain ⟨t, rfl⟩ := List.isPrefixOf_iff_prefix.mp h
    rfl
  unfold behindMarkup
  split
  · next h => simp [hbang h]
  · split_ifs with hq hb
    · simp [hq]
    · simp [hb]
    · simp [hq, hb]

theorem behindMarkup_append {b r : Str} (h : behindMarkup b = some (some r)) :
    ∃ u, b = u ++ r ∧ ∀ r', behindMarkup (u ++ r') = some (some r') := by
  unfold behindMarkup at h
  split at h
  · next hpre =>
    obtain ⟨t, rfl⟩ := List.isPrefixOf_iff_prefix.mp hpre
    obtain ⟨u, ht, hu⟩ := behind_append (by decide) (Option.some.inj h)
    have ht : t = u ++ str "-->" ++ r := ht
    refine ⟨str "!--" ++ (u ++ str "-->"), by simp only [ht, List.append_assoc], fun r' => ?_⟩
    have hpre : (str "!--").isPrefixOf (str "!--" ++ (u ++ str "-->" ++ r')) = true :=
      List.isPrefixOf_iff_prefix.mpr (List.prefix_append _ _)
    rw [List.append_assoc, behindMarkup, if_pos hpre]
    exact congrArg some (hu r')
  next hpre =>
  cases b with
  | nil => simp [charAt, charQuestion, charBang] at h
  | cons c b =>
  split at h
  · next hc =>
    have hc : c = charQuestion := hc
    obtain ⟨u, hb, hu⟩ := behind_append (by decide) (Option.some.inj h)
    have hb : b = u ++ str "?>" ++ r := hb
    refine ⟨c :: (u ++ str "?>"), by rw [hb, List.cons_append], fun r' => ?_⟩
    subst hc
    exact congrArg some (hu r')
  · next hc =>
    split at h
    · next hc =>
      have hc : c = charBang := hc
      obtain ⟨u, hb, hu⟩ := behind_append (by decide) (Option.some.inj h)
      have hb : b = u ++ str ">" ++ r := hb
      subst hc hb
      refine ⟨charBang :: (u ++ str ">"), rfl, fun r' => ?_⟩
      have hnot : ¬(str "!--").isPrefixOf (charBang :: (u ++ str ">") ++ r') = true := by
        intro hin
        apply hpre
        rcases u with _ | ⟨d, _ | ⟨e, u⟩⟩
        · exact absurd hin (by simp [str])
        · exact absurd hin (by simp [str])
        · simpa [str] using hin
      rw [behindMarkup, if_neg hnot]
      exact congrArg some (hu r')
    · cases h

def Fits (t : XmlToken) (r r' : Str) : Prop :=
  r'.head? = r.head? ∨ t = .tagCloseEmpty ∨
    (∃ n, t = .tagClose n ∨ n ≠ [] ∧ t = .tagOpen n) ∧ ∃ c, r'.head? = some c ∧ endsTagName c = true

def Lands (r : Str) (s : XmlState) : XmlToken → Prop
  | .tagOpen _ | .tagClose _ => s = .tag ∧ ∃ c, r.head? = some c ∧ endsTagName c = true
  | .text _ | .tagCloseEmpty => s = .text
  | .attributeName _ => s = .attribute
  | .attributeValue _ => s = .tag

def ReadsLocally (f : Str → XmlRead) (p r : Str) (t : XmlToken) (s : XmlState) : Prop :=
  Lands r s t ∧ ∃ u, u ≠ [] ∧ p = u ++ r ∧ ∀ r', Fits t r r' → f (u ++ r') = .token t r' s

theorem tagNamed_local {mk : Str → XmlToken} {b r : Str} {t : XmlToken} {s : XmlState}
    (h : tagNamed mk b = .token t r s) :
    ∃ n, t = mk n ∧ s = .tag ∧ b = n ++ r ∧ (∃ c, r.head? = some c ∧ endsTagName c = true) ∧
      ∀ r' c, r'.head? = some c → endsTagName c = true →
        tagNamed mk (n ++ r') = .token (mk n) r' .tag := by
  unfold tagNamed at h
  split at h
  · exact absurd h nofun
  · next he =>
    injection h with ht hr hs
    obtain ⟨d, e, hde⟩ := List.exists_cons_of_ne_nil he
    have hhead : r.head? = some d := hr ▸ congrArg List.head? hde
    have hd := stops_dropWhile (hr ▸ hhead)
    simp only [Bool.not_eq_false'] at hd
    refine ⟨_, ht.symm, hs.symm, ?_, ⟨d, hhead, hd⟩, fun r' c hc hends => ?_⟩
    · rw [← hr, List.takeWhile_append_dropWhile]
    · obtain ⟨htake, hdrop⟩ := span_takeWhile (q := fun c => !endsTagName c) b (r := r')
        fun x hx => by
          obtain rfl := Option.some.inj (hc.symm.trans hx)
          simp only [hends, Bool.not_true]
      unfold tagNamed
      rw [htake, hdrop]
      cases r' with
      | nil => exact absurd hc nofun
      | cons x r' => rfl

theorem tokenizeAngle_local {b r : Str} {t : XmlToken} {s : XmlState} (hm : behindMarkup b = none)
    (h : tokenizeAngle b = .token t r s) :
    Lands r s t ∧ ∃ u, b = u ++ r ∧
      ∀ r', Fits t r r' → behindMarkup (u ++ r') = none ∧ tokenizeAngle (u ++ r') = .token t r' s := by
  unfold tokenizeAngle at h
  split at h
  · next hslash =>
    cases b with
    | nil => exact absurd hslash (by decide)
    | cons x b =>
    obtain ⟨n, rfl, rfl, hb, ⟨c, hc, hends⟩, hread⟩ := tagNamed_local h
    obtain rfl : b = n ++ r := hb
    refine ⟨⟨rfl, c, hc, hends⟩, x :: n, rfl, fun r' hfits => ?_⟩
    have hhead : ∃ d, r'.head? = some d ∧ endsTagName d = true := by
      rcases hfits with hfits | hfits | ⟨_, hfits⟩
      · exact ⟨c, hfits.trans hc, hends⟩
      · exact absurd hfits nofun
      · exact hfits
    obtain ⟨d, hd, hdends⟩ := hhead
    have hx : x = charSlash := hslash
    subst hx
    have hnone : behindMarkup (charSlash :: n ++ r') = none :=
      behindMarkup_eq_none.mpr ⟨nofun, nofun⟩
    exact ⟨hnone, hread r' d hd hdends⟩
  · next hslash =>
    obtain ⟨n, rfl, rfl, rfl, ⟨c, hc, hends⟩, hread⟩ := tagNamed_local h
    refine ⟨⟨rfl, c, hc, hends⟩, n, rfl, fun r' hfits => ?_⟩
    have hchar : charAt (n ++ r') 0 = charAt (n ++ r) 0 := by
      apply charAt_append_of_head
      rcases hfits with hfits | hfits | ⟨⟨m, h | ⟨hm, h⟩⟩, _⟩
      · exact Or.inr hfits
      · exact absurd hfits nofun
      · exact absurd h nofun
      · exact Or.inl (by injection h with h; rw [h]; exact hm)
    have hhead : ∃ d, r'.head? = some d ∧ endsTagName d = true := by
      rcases hfits with hfits | hfits | ⟨_, hfits⟩
      · exact ⟨c, hfits.trans hc, hends⟩
      · exact absurd hfits nofun
      · exact hfits
    obtain ⟨d, hd, hdends⟩ := hhead
    constructor
    · rw [behindMarkup_eq_none, hchar]
      exact behindMarkup_eq_none.mp hm
    · rw [tokenizeAngle, hchar, if_neg hslash]
      exact hread r' d hd hdends

theorem tokenizeText_local {p r : Str} {t : XmlToken} {s : XmlState}
    (h : tokenizeText p = .token t r s) : ReadsLocally tokenizeText p r t s := by
  match p with
  | [] =>
    rw [tokenizeText] at h
    exact absurd h nofun
  | x :: b =>
    rw [tokenizeText] at h
    split at h
    · next hx =>
      injection h with ht hr hs
      subst ht hr hs
      refine ⟨rfl, _, ?_, List.takeWhile_append_dropWhile.symm, fun r' hfits => ?_⟩
      · rw [List.takeWhile_cons_of_pos (by simpa using hx)]
        exact List.cons_ne_nil _ _
      · have hhead := hfits.resolve_right (by simp)
        obtain ⟨htake, hdrop⟩ := span_takeWhile (q := fun c => decide (c ≠ charLess)) (x :: b)
          (r := r') fun y hy => stops_dropWhile (hhead.symm.trans hy)
        rw [List.takeWhile_cons_of_pos (by simpa using hx), List.cons_append] at htake hdrop ⊢
        rw [tokenizeText, if_pos hx, htake, hdrop]
    · next hx =>
      have hx : x = charLess := not_not.mp hx
      split at h
      · exact absurd h nofun
      · next c hc =>
        obtain ⟨u, rfl, hu⟩ := behindMarkup_append hc
        have hlt : c.length < (x :: (u ++ c)).length :=
          Nat.lt_succ_of_le (behindMarkup_length hc)
        obtain ⟨hlands, v, hv, rfl, hread⟩ := tokenizeText_local h
        refine ⟨hlands, x :: (u ++ v), List.cons_ne_nil _ _, by simp, fun r' hfits => ?_⟩
        have hskip := hu (v ++ r')
        rw [List.cons_append, List.append_assoc, tokenizeText, if_neg (not_not.mpr hx)]
        split
        · next hm => exact absurd (hm.symm.trans hskip) nofun
        · next c' hm =>
          obtain rfl := Option.some.inj (Option.some.inj (hm.symm.trans hskip))
          exact hread r' hfits
        · next hm => exact absurd (hm.symm.trans hskip) nofun
      · next hm =>
        obtain ⟨hlands, u, rfl, hread⟩ := tokenizeAngle_local hm h
        refine ⟨hlands, x :: u, List.cons_ne_nil _ _, rfl, fun r' hfits => ?_⟩
        obtain ⟨hnone, hangle⟩ := hread r' hfits
        rw [List.cons_append, tokenizeText, if_neg (not_not.mpr hx)]
        split
        · next hm => exact absurd (hm.symm.trans hnone) nofun
        · next hm => exact absurd (hm.symm.trans hnone) nofun
        · exact hangle
termination_by p.length

theorem tokenizeTagAt_local {b r : Str} {t : XmlToken} {s : XmlState}
    (h : tokenizeTagAt b = .token t r s) : ReadsLocally tokenizeTagAt b r t s := by
  unfold tokenizeTagAt at h
  simp only at h
  split at h
  · exact absurd h nofun
  split at h
  · next hname =>
    injection h with ht hr hs
    subst ht hr hs
    refine ⟨rfl, _, hname, List.takeWhile_append_dropWhile.symm, fun r' hfits => ?_⟩
    have hhead := hfits.resolve_right (by simp)
    obtain ⟨htake, hdrop⟩ := span_takeWhile (q := fun c => !endsAttributeName c) b (r := r')
      fun y hy => stops_dropWhile (hhead.symm.trans hy)
    unfold tokenizeTagAt
    simp only
    rw [if_neg (by simp only [List.append_eq_nil_iff, hname, false_and, not_false_eq_true]), htake,
      if_pos hname, hdrop]
  split at h
  · next hempty =>
    injection h with ht hr hs
    subst ht hr hs
    obtain ⟨x, rfl⟩ := List.isPrefixOf_iff_prefix.mp hempty
    exact ⟨rfl, str "/>", by decide, rfl, fun r' _ => rfl⟩
  split at h
  · exact absurd h nofun
  next hne _ _ hclose =>
  cases b with
  | nil => exact absurd rfl hne
  | cons x b =>
  have hx : x = charGreater := not_not.mp hclose
  subst hx
  obtain ⟨hlands, u, -, hb, hread⟩ := tokenizeText_local h
  obtain rfl : b = u ++ r := hb
  refine ⟨hlands, charGreater :: u, List.cons_ne_nil _ _, rfl, fun r' hfits => ?_⟩
  exact hread r' hfits

theorem tokenizeTag_local {c r : Str} {t : XmlToken} {s : XmlState}
    (h : tokenizeTag c = .token t r s) : ReadsLocally tokenizeTag c r t s := by
  unfold tokenizeTag at h
  split at h
  · exact absurd h nofun
  obtain ⟨hlands, v, hv, hb, hread⟩ := tokenizeTagAt_local h
  refine ⟨hlands, c.takeWhile isXmlSpace ++ v, by simp [hv], ?_, fun r' hfits => ?_⟩
  · rw [List.append_assoc, ← hb, List.takeWhile_append_dropWhile]
  · obtain ⟨d, v, rfl⟩ := List.exists_cons_of_ne_nil hv
    have hd : isXmlSpace d = false := stops_dropWhile (s := c) (by rw [hb]; rfl)
    obtain ⟨-, hdrop⟩ := span_takeWhile (q := isXmlSpace) c (r := d :: (v ++ r'))
      fun y hy => by rw [← Option.some.inj hy]; exact hd
    rw [List.append_assoc, List.cons_append, tokenizeTag, if_neg (by simp), hdrop]
    exact hread r' hfits

theorem tokenizeQuoted_local {quote : UInt8} {c r : Str} {t : XmlToken} {s : XmlState}
    (h : tokenizeQuoted quote c = .token t r s) :
    (∃ v, t = .attributeValue v) ∧ s = .tag ∧
      ∃ u, c = u ++ r ∧ ∀ r', tokenizeQuoted quote (u ++ r') = .token t r' s := by
  unfold tokenizeQuoted at h
  split at h
  · exact absurd h nofun
  next d e he =>
  injection h with ht hr hs
  subst ht hr hs
  have hd : d = quote := by simpa using stops_dropWhile (x := d) (congrArg List.head? he)
  subst hd
  refine ⟨⟨_, rfl⟩, rfl, c.takeWhile (fun x => x != d) ++ [d], ?_, fun r' => ?_⟩
  · rw [List.append_assoc, List.singleton_append, ← he, List.takeWhile_append_dropWhile]
  · obtain ⟨htake, hdrop⟩ := span_takeWhile (q := fun x => x != d) c (r := d :: r') fun y hy => by
      simp [← Option.some.inj hy]
    rw [List.append_assoc, List.singleton_append]
    unfold tokenizeQuoted
    rw [hdrop, htake]

theorem tokenizeBare_local {c r : Str} {t : XmlToken} {s : XmlState}
    (h : tokenizeBare c = .token t r s) (hr : charGreater ∈ r) :
    (∃ v, t = .attributeValue v) ∧ s = .tag ∧ ∃ u, c = u ++ r ∧
      ∀ r', r'.head? = r.head? → tokenizeBare (u ++ r') = .token t r' s := by
  unfold tokenizeBare at h
  split at h
  · next hnil =>
    injection h with ht hrest hs
    subst hrest
    exact absurd (List.dropWhile_eq_nil_iff.mp hnil charGreater hr) (by decide)
  next hne =>
  injection h with ht hrest hs
  subst ht hrest hs
  refine ⟨⟨_, rfl⟩, rfl, _, List.takeWhile_append_dropWhile.symm, fun r' hhead => ?_⟩
  obtain ⟨htake, hdrop⟩ := span_takeWhile (q := fun x => !endsBareValue x) c (r := r')
    fun y hy => stops_dropWhile (hhead.symm.trans hy)
  rw [tokenizeBare, hdrop, htake, if_neg]
  rintro rfl
  exact hne (List.head?_eq_none_iff.mp hhead.symm)

theorem tokenizeAttribute_local {p r : Str} {t : XmlToken} {s : XmlState}
    (h : tokenizeAttribute p = .token t r s) (hr : (∃ v, t = .attributeValue v) → charGreater ∈ r) :
    ReadsLocally tokenizeAttribute p r t s := by
  unfold tokenizeAttribute at h
  split at h
  · next hne =>
    obtain ⟨hlands, u, hu, rfl, hread⟩ := tokenizeTag_local h
    refine ⟨hlands, u, hu, rfl, fun r' hfits => ?_⟩
    rw [tokenizeAttribute, charAt_append_of_head (Or.inl hu), if_pos hne]
    exact hread r' hfits
  next heq =>
  cases p with
  | nil => exact absurd heq (by decide)
  | cons x c =>
  obtain rfl : x = charEquals := not_not.mp heq
  split at h
  · next hquote =>
    cases c with
    | nil => exact absurd hquote (by decide)
    | cons quote c =>
    obtain ⟨⟨v, rfl⟩, rfl, u, hc, hread⟩ := tokenizeQuoted_local h
    obtain rfl : c = u ++ r := hc
    refine ⟨rfl, charEquals :: quote :: u, List.cons_ne_nil _ _, rfl, fun r' _ => ?_⟩
    unfold tokenizeAttribute
    rw [if_neg (show ¬charAt (charEquals :: quote :: u ++ r') 0 ≠ charEquals from not_not.mpr rfl)]
    exact (if_pos hquote).trans (hread r')
  · next hquote =>
    have hin : charGreater ∈ r := by
      apply hr
      unfold tokenizeBare at h
      split at h
      · injection h with ht
        exact ⟨_, ht.symm⟩
      · injection h with ht
        exact ⟨_, ht.symm⟩
    obtain ⟨⟨v, rfl⟩, rfl, u, hc, hread⟩ := tokenizeBare_local h hin
    obtain rfl : c = u ++ r := hc
    refine ⟨rfl, charEquals :: u, List.cons_ne_nil _ _, rfl, fun r' hfits => ?_⟩
    have hhead := hfits.resolve_right (by simp)
    have hchar : charAt (charEquals :: u ++ r') 1 = charAt (charEquals :: (u ++ r)) 1 :=
      charAt_append_of_head (Or.inr hhead)
    unfold tokenizeAttribute
    rw [if_neg (show ¬charAt (charEquals :: u ++ r') 0 ≠ charEquals from not_not.mpr rfl), hchar]
    exact (if_neg hquote).trans (hread r' hhead)

theorem xmlTokenize_local {p r : Str} {s s' : XmlState} {t : XmlToken}
    (h : xmlTokenize p s = .token t r s') (hr : (∃ v, t = .attributeValue v) → charGreater ∈ r) :
    ReadsLocally (xmlTokenize · s) p r t s' := by
  match s, h with
  | .null, h => exact tokenizeText_local h
  | .text, h => exact tokenizeText_local h
  | .tag, h => exact tokenizeTag_local h
  | .attribute, h => exact tokenizeAttribute_local h hr

theorem xmlTokenize_suffix {p r : Str} {s s' : XmlState} {t : XmlToken}
    (h : xmlTokenize p s = .token t r s') : Lands r s' t ∧ ∃ u, u ≠ [] ∧ p = u ++ r := by
  have hlocal : ∀ {f : Str → XmlRead}, ReadsLocally f p r t s' →
      Lands r s' t ∧ ∃ u, u ≠ [] ∧ p = u ++ r := by
    rintro f ⟨hlands, u, hu, hp, -⟩
    exact ⟨hlands, u, hu, hp⟩
  match s, h with
  | .null, h => exact hlocal (tokenizeText_local h)
  | .text, h => exact hlocal (tokenizeText_local h)
  | .tag, h => exact hlocal (tokenizeTag_local h)
  | .attribute, h =>
    by_cases hr : charGreater ∈ r
    · exact hlocal (tokenizeAttribute_local h fun _ => hr)
    change tokenizeAttribute p = _ at h
    unfold tokenizeAttribute at h
    split at h
    · exact hlocal (tokenizeTag_local h)
    next heq =>
    cases p with
    | nil => exact absurd heq (by decide)
    | cons x c =>
    split at h
    · next hquote =>
      cases c with
      | nil =>
        exact absurd hquote
          (show ¬((0 : UInt8) = charQuote ∨ (0 : UInt8) = charDoubleQuote) by decide)
      | cons quote c =>
      obtain ⟨⟨v, rfl⟩, rfl, u, hc, -⟩ := tokenizeQuoted_local h
      obtain rfl : c = u ++ r := hc
      exact ⟨rfl, x :: quote :: u, List.cons_ne_nil _ _, rfl⟩
    · unfold tokenizeBare at h
      split at h
      · injection h with ht hr hs
        subst ht hr hs
        exact ⟨rfl, [x], List.cons_ne_nil _ _, rfl⟩
      · injection h with ht hr hs
        subst ht hr hs
        refine ⟨rfl, x :: c.takeWhile (fun x => !endsBareValue x), List.cons_ne_nil _ _, ?_⟩
        rw [List.cons_append]
        exact congrArg (x :: ·) List.takeWhile_append_dropWhile.symm

theorem xmlTokenize_length {p r : Str} {s s' : XmlState} {t : XmlToken}
    (h : xmlTokenize p s = .token t r s') : r.length < p.length := by
  obtain ⟨-, u, hu, rfl⟩ := xmlTokenize_suffix h
  have hpos := List.length_pos_of_ne_nil hu
  rw [List.length_append]
  omega

/-- The tokens up to the end of the text or to an error. They are the same whoever asks for them. -/
def xmlTokens (p : Str) (s : XmlState) : List XmlToken × Option Errno :=
  match _h : xmlTokenize p s with
  | .xmlEnd => ([], none)
  | .error r => ([], some r)
  | .token t p s =>
    let l := xmlTokens p s
    (t :: l.1, l.2)
termination_by p.length
decreasing_by exact xmlTokenize_length _h

theorem xmlTokens_token {p r : Str} {s s' : XmlState} {t : XmlToken}
    (h : xmlTokenize p s = .token t r s') :
    xmlTokens p s = (t :: (xmlTokens r s').1, (xmlTokens r s').2) := by
  rw [xmlTokens]
  split
  · next he => exact absurd (he.symm.trans h) nofun
  · next he => exact absurd (he.symm.trans h) nofun
  · next he =>
    injection he.symm.trans h with ht hr hs
    subst ht hr hs
    rfl

theorem xmlTokens_end {p : Str} {s : XmlState} (h : xmlTokenize p s = .xmlEnd) :
    xmlTokens p s = ([], none) := by
  rw [xmlTokens]
  split
  · rfl
  · next he => exact absurd (he.symm.trans h) nofun
  · next he => exact absurd (he.symm.trans h) nofun

theorem xmlTokens_error {p : Str} {s : XmlState} {r : Errno} (h : xmlTokenize p s = .error r) :
    xmlTokens p s = ([], some r) := by
  rw [xmlTokens]
  split
  · next he => exact absurd (he.symm.trans h) nofun
  · next he =>
    injection he.symm.trans h with hr
    rw [hr]
  · next he => exact absurd (he.symm.trans h) nofun

theorem xmlTokens_cases {p : Str} {s : XmlState} {ts : List XmlToken}
    (h : xmlTokens p s = (ts, none)) :
    xmlTokenize p s = .xmlEnd ∧ ts = [] ∨
      ∃ t r s' l, ts = t :: l ∧ xmlTokenize p s = .token t r s' ∧ xmlTokens r s' = (l, none) := by
  cases he : xmlTokenize p s with
  | xmlEnd =>
    rw [xmlTokens_end he] at h
    exact Or.inl ⟨rfl, (Prod.mk.inj h).1.symm⟩
  | error r =>
    rw [xmlTokens] at h
    split at h
    · next h' => exact absurd (h'.symm.trans he) nofun
    · exact absurd (Prod.mk.inj h).2 nofun
    · next h' => exact absurd (h'.symm.trans he) nofun
  | token t r s' =>
    rw [xmlTokens_token he] at h
    obtain ⟨hts, hnone⟩ := Prod.mk.inj h
    exact Or.inr ⟨t, r, s', _, hts.symm, rfl, Prod.ext rfl hnone⟩

def readTokens : Nat → Str → XmlState → Option (List XmlToken × Str × XmlState)
  | 0, p, s => some ([], p, s)
  | n + 1, p, s =>
    match xmlTokenize p s with
    | .token t r s' => (readTokens n r s').map fun x => (t :: x.1, x.2)
    | _ => none

theorem readTokens_append {n : Nat} : ∀ {p r : Str} {s s' : XmlState} {ts : List XmlToken},
    readTokens n p s = some (ts, r, s') → charGreater ∈ r →
      ∃ u, p = u ++ r ∧ (u = [] → ts = []) ∧ ∀ r', (∀ t ∈ ts.getLast?, Fits t r r') →
        xmlTokens (u ++ r') s = (ts ++ (xmlTokens r' s').1, (xmlTokens r' s').2) := by
  induction n with
  | zero =>
    intro p r s s' ts h _
    obtain ⟨rfl, rfl, rfl⟩ : [] = ts ∧ p = r ∧ s = s' := by simpa [readTokens] using h
    exact ⟨[], rfl, fun _ => rfl, fun r' _ => rfl⟩
  | succ n ih =>
    intro p r s s' ts h hr
    rw [readTokens] at h
    split at h
    · next t p₁ s₁ he =>
      obtain ⟨⟨ts, r₁, s₂⟩, hrest, hts⟩ := Option.map_eq_some_iff.mp h
      obtain ⟨rfl, rfl, rfl⟩ : t :: ts = _ ∧ r₁ = r ∧ s₂ = s' := by simpa using hts
      obtain ⟨v, rfl, hv, hread⟩ := ih hrest hr
      obtain ⟨-, u, hu, rfl, hlocal⟩ :=
        xmlTokenize_local he fun _ => List.mem_append_right v hr
      refine ⟨u ++ v, (List.append_assoc u v r₁).symm, fun h => ?_, fun r' hfits => ?_⟩
      · exact absurd (List.append_eq_nil_iff.mp h).1 hu
      · have htoken : xmlTokenize (u ++ (v ++ r')) s = .token t (v ++ r') s₁ := by
          apply hlocal
          cases v with
          | nil =>
            rw [hv rfl] at hfits
            exact hfits t rfl
          | cons c v => exact Or.inl rfl
        have hlast : ∀ x ∈ ts.getLast?, Fits x r₁ r' := fun x hx =>
          hfits x (by rw [List.getLast?_cons, Option.mem_def.mp hx]; rfl)
        rw [List.append_assoc, xmlTokens_token htoken, hread r' hlast]
        rfl
    · exact absurd h nofun

def XmlToken.OfAttribute : XmlToken → Prop
  | .attributeName _ | .attributeValue _ => True
  | _ => False

theorem tokenizeTag_unclosed {p r : Str} {s' : XmlState} {t : XmlToken} (hp : charGreater ∉ p)
    (h : tokenizeTag p = .token t r s') : t.OfAttribute ∧ s' = .attribute := by
  unfold tokenizeTag tokenizeTagAt at h
  simp only at h
  have hb : charGreater ∉ p.dropWhile isXmlSpace := fun hin => hp (List.dropWhile_subset _ hin)
  split at h
  · exact absurd h nofun
  split at h
  · exact absurd h nofun
  split at h
  · injection h with ht _ hs
    subst ht hs
    exact ⟨trivial, rfl⟩
  split at h
  · next hempty =>
    obtain ⟨x, hx⟩ := List.isPrefixOf_iff_prefix.mp hempty
    rw [← hx] at hb
    exact absurd (List.mem_append_left _ (by decide)) hb
  split at h
  · exact absurd h nofun
  next hne _ _ hclose =>
  obtain ⟨y, b, hyb⟩ := List.exists_cons_of_ne_nil hne
  rw [hyb] at hb hclose
  exact absurd (not_not.mp hclose : y = charGreater).symm (List.ne_of_not_mem_cons hb)

theorem xmlTokenize_unclosed {p r : Str} {s s' : XmlState} {t : XmlToken} (hp : charGreater ∉ p)
    (hs : s = .tag ∨ s = .attribute) (h : xmlTokenize p s = .token t r s') :
    t.OfAttribute ∧ (s' = .tag ∨ s' = .attribute) := by
  rcases hs with rfl | rfl
  · obtain ⟨ht, hs⟩ := tokenizeTag_unclosed hp h
    exact ⟨ht, Or.inr hs⟩
  · change tokenizeAttribute p = _ at h
    unfold tokenizeAttribute at h
    split at h
    · obtain ⟨ht, hs⟩ := tokenizeTag_unclosed hp h
      exact ⟨ht, Or.inr hs⟩
    split at h
    · obtain ⟨⟨v, rfl⟩, hs, -⟩ := tokenizeQuoted_local h
      exact ⟨trivial, Or.inl hs⟩
    · unfold tokenizeBare at h
      split at h
      · injection h with ht _ hs
        subst ht hs
        exact ⟨trivial, Or.inl rfl⟩
      · injection h with ht _ hs
        subst ht hs
        exact ⟨trivial, Or.inl rfl⟩

theorem xmlTokens_unclosed {ts : List XmlToken} : ∀ {p : Str} {s : XmlState},
    charGreater ∉ p → s = .tag ∨ s = .attribute → xmlTokens p s = (ts, none) →
      ∀ t ∈ ts, t.OfAttribute := by
  induction ts with
  | nil => exact fun _ _ _ _ ht => absurd ht List.not_mem_nil
  | cons t ts ih =>
    intro p s hp hs h
    obtain ⟨-, hnil⟩ | ⟨t', r, s', l, hts, he, hl⟩ := xmlTokens_cases h
    · exact absurd hnil (List.cons_ne_nil _ _)
    obtain ⟨rfl, rfl⟩ := List.cons.inj hts
    obtain ⟨ht, hs'⟩ := xmlTokenize_unclosed hp hs he
    obtain ⟨-, u, -, rfl⟩ := xmlTokenize_suffix he
    have hr : charGreater ∉ r := fun hin => hp (List.mem_append_right u hin)
    intro x hx
    rcases List.mem_cons.mp hx with rfl | hx
    · exact ht
    · exact ih hr hs' hl x hx

end Basu.Introspect
