import Basu.Lib.Separated
import Basu.Names
import Basu.Signature

/-! The validators of `bus-internal.c` accept the names of their grammars and nothing else, and
`object_path_startswith` compares the elements of paths. -/

namespace Basu
open Lib

def isWordChar (c : UInt8) : Bool := isLetter c || isDigit c || c = charUnderscore

def isBusNameChar (c : UInt8) : Bool := isWordChar c || c = charDash

/-- An element of a name: not empty, of some characters, and with a digit in front only where that
is allowed. -/
structure NameElement (chars : UInt8 → Bool) (digitFirst : Bool) (e : Str) : Prop where
  ne_nil : e ≠ []
  chars : ∀ c ∈ e, chars c = true
  first : digitFirst = false → ∀ c ∈ e.head?, isDigit c = false

def DottedName (chars : UInt8 → Bool) (digitFirst : Bool) (s : Str) : Prop :=
  2 ≤ (s.splitOn charDot).length ∧ ∀ e ∈ s.splitOn charDot, NameElement chars digitFirst e

def MemberName (s : Str) : Prop := 1 ≤ s.length ∧ s.length ≤ 255 ∧ ∀ c ∈ s, isWordChar c = true

def InterfaceName (s : Str) : Prop := DottedName isWordChar false s ∧ s.length ≤ 255

def BusName (s : Str) : Prop :=
  (DottedName isBusNameChar false s ∨ ∃ q, s = charColon :: q ∧ DottedName isBusNameChar true q) ∧
    s.length ≤ 255

def joinPath (es : List Str) : Str := es.flatMap fun e => charSlash :: e

def ObjectPath (s : Str) : Prop :=
  s = [charSlash] ∨ ∃ es, es ≠ [] ∧ (∀ e ∈ es, NameElement isWordChar true e) ∧ s = joinPath es

theorem objectPathLoop_eq (slash : Bool) (q : Str) :
    objectPathLoop slash q = readsElements charSlash isWordChar isWordChar slash q := by
  induction q generalizing slash with
  | nil => rfl
  | cons c q ih =>
    rw [objectPathLoop, readsElements, ite_self, ih true, ih false]
    by_cases hc : c = charSlash
    · rw [if_pos hc, if_pos hc]
      cases slash <;> rfl
    · rw [if_neg hc, if_neg hc]
      change (if isWordChar c = true then _ else _) = _
      cases isWordChar c <;> rfl

def nameChar (dash : Bool) (c : UInt8) : Bool := isWordChar c || (dash && c = charDash)

def nameFirst (digitFirst dash : Bool) (c : UInt8) : Bool :=
  isLetter c || (digitFirst && isDigit c) || c = charUnderscore || (dash && c = charDash)

theorem dottedNameLoop_eq (digitFirst dash dot foundDot : Bool) (q : Str) :
    dottedNameLoop digitFirst dash dot foundDot q =
      (readsElements charDot (nameFirst digitFirst dash) (nameChar dash) dot q &&
        (foundDot || decide (charDot ∈ q))) := by
  induction q generalizing dot foundDot with
  | nil => simp [dottedNameLoop, readsElements]
  | cons c q ih =>
    rw [dottedNameLoop, readsElements, ih true true, ih false foundDot]
    by_cases hc : c = charDot
    · subst hc
      cases dot <;> simp
    · have hmem : decide (charDot ∈ c :: q) = decide (charDot ∈ q) := by
        simp [Ne.symm hc]
      rw [if_neg hc, if_neg hc, hmem]
      have htest : (isLetter c || ((!dot || digitFirst) && isDigit c) || c = charUnderscore ||
          (dash && c = charDash)) =
          if dot then nameFirst digitFirst dash c else nameChar dash c := by
        cases dot <;> rfl
      rw [htest]
      cases (if dot then nameFirst digitFirst dash c else nameChar dash c) <;> rfl

theorem nameElement_iff {first next : UInt8 → Bool} {digitFirst : Bool}
    (hfirst : ∀ c, first c = (next c && (digitFirst || !isDigit c))) (e : Str) :
    IsElement first next e ↔ NameElement next digitFirst e := by
  cases e with
  | nil => exact ⟨fun h => h.elim, fun h => absurd rfl h.ne_nil⟩
  | cons c e =>
    constructor
    · rintro ⟨hc, he⟩
      rw [hfirst, Bool.and_eq_true] at hc
      refine ⟨List.cons_ne_nil c e, ?_, fun hd x hx => ?_⟩
      · exact fun x hx => (List.mem_cons.mp hx).elim (fun h => h ▸ hc.1) (he x)
      · obtain rfl := Option.some.inj hx
        simpa [hd] using hc.2
    · intro h
      refine ⟨?_, fun x hx => h.chars x (List.mem_cons_of_mem c hx)⟩
      rw [hfirst, h.chars c List.mem_cons_self, Bool.true_and]
      cases digitFirst with
      | true => rfl
      | false =>
        rw [h.first rfl c rfl]
        rfl

theorem isDigit_only {c : UInt8} (h : isDigit c = true) :
    isLetter c = false ∧ c ≠ charUnderscore ∧ c ≠ charDash := by
  unfold isDigit isLetter charUnderscore charDash at *
  grind

theorem nameFirst_eq (digitFirst dash : Bool) (c : UInt8) :
    nameFirst digitFirst dash c = (nameChar dash c && (digitFirst || !isDigit c)) := by
  unfold nameFirst nameChar isWordChar
  by_cases hd : isDigit c = true
  · obtain ⟨hletter, hunderscore, hdash⟩ := isDigit_only hd
    simp [hd, hletter, hunderscore, hdash]
  · simp [hd]

theorem dottedNameLoop_iff (digitFirst dash : Bool) (q : Str) :
    dottedNameLoop digitFirst dash true false q = true ↔
      DottedName (nameChar dash) digitFirst q := by
  rw [dottedNameLoop_eq, Bool.and_eq_true, readsElements_true_iff, Bool.false_or, decide_eq_true_eq,
    ← two_le_length_splitOn, and_comm]
  exact and_congr_right fun _ => forall₂_congr fun e _ =>
    nameElement_iff (nameFirst_eq digitFirst dash) e

theorem DottedName.ne_nil {chars : UInt8 → Bool} {digitFirst : Bool} {s : Str}
    (h : DottedName chars digitFirst s) : s ≠ [] := by
  rintro rfl
  exact absurd h.1 (by decide)

theorem memberNameIsValid_iff (s : Str) : memberNameIsValid s = true ↔ MemberName s := by
  unfold memberNameIsValid MemberName
  simp only [Bool.and_eq_true, Bool.not_eq_true', List.isEmpty_eq_false_iff, List.all_eq_true,
    decide_eq_true_eq, ← List.length_pos_iff]
  constructor
  · rintro ⟨⟨hpos, hall⟩, hlen⟩
    exact ⟨hpos, hlen, hall⟩
  · rintro ⟨hpos, hlen, hall⟩
    exact ⟨⟨hpos, hall⟩, hlen⟩

theorem isEmpty_of_dotted {chars : UInt8 → Bool} {digitFirst : Bool} {s : Str}
    (h : DottedName chars digitFirst s) : (!s.isEmpty) = true := by
  rw [Bool.not_eq_true', List.isEmpty_eq_false_iff]
  exact h.ne_nil

theorem nameChar_false : nameChar false = isWordChar := by
  funext c
  simp [nameChar]

theorem nameChar_true : nameChar true = isBusNameChar := by
  funext c
  simp [nameChar, isBusNameChar]

theorem interfaceNameIsValid_iff (s : Str) :
    interfaceNameIsValid s = true ↔ InterfaceName s := by
  unfold interfaceNameIsValid InterfaceName
  rw [Bool.and_eq_true, Bool.and_eq_true, dottedNameLoop_iff, nameChar_false, decide_eq_true_eq]
  constructor
  · rintro ⟨⟨-, hname⟩, hlen⟩
    exact ⟨hname, hlen⟩
  · rintro ⟨hname, hlen⟩
    exact ⟨⟨isEmpty_of_dotted hname, hname⟩, hlen⟩

theorem DottedName.head_ne_colon {s : Str} (h : DottedName isBusNameChar false s) :
    charAt s 0 ≠ charColon := by
  intro hc
  obtain ⟨e, es, hs⟩ := List.exists_cons_of_ne_nil (List.splitOn_ne_nil charDot s)
  have he := h.2 e (hs ▸ List.mem_cons_self)
  obtain ⟨c, e, rfl⟩ := List.exists_cons_of_ne_nil he.ne_nil
  have hjoin := (List.intercalate_splitOn charDot : [charDot].intercalate (s.splitOn charDot) = s)
  rw [hs] at hjoin
  have hhead : charAt s 0 = c := by
    rw [← hjoin]
    cases es <;> rfl
  have hchar := he.chars c List.mem_cons_self
  rw [← hhead, hc] at hchar
  exact absurd hchar (by decide)

theorem serviceNameIsValid_iff (s : Str) : serviceNameIsValid s = true ↔ BusName s := by
  have hlen : decide (s.length ≤ 255) = true ↔ s.length ≤ 255 := decide_eq_true_iff
  unfold serviceNameIsValid BusName
  dsimp only
  rw [Bool.and_eq_true, Bool.and_eq_true, hlen]
  apply and_congr_left'
  by_cases hc : charAt s 0 = charColon
  · have hs : s = charColon :: s.drop 1 := eq_cons_of_charAt (by decide) hc
    simp only [hc, decide_true, if_true]
    rw [dottedNameLoop_iff, nameChar_true]
    constructor
    · rintro ⟨-, hname⟩
      exact Or.inr ⟨_, hs, hname⟩
    · rintro (hname | ⟨q, rfl, hname⟩)
      · exact absurd hc hname.head_ne_colon
      · exact ⟨rfl, hname⟩
  · simp only [hc, decide_false, Bool.false_eq_true, if_false]
    rw [dottedNameLoop_iff, nameChar_true]
    constructor
    · rintro ⟨-, hname⟩
      exact Or.inl hname
    · rintro (hname | ⟨q, rfl, -⟩)
      · exact ⟨isEmpty_of_dotted hname, hname⟩
      · exact absurd rfl hc

theorem joinPath_append (es fs : List Str) : joinPath (es ++ fs) = joinPath es ++ joinPath fs :=
  List.flatMap_append

theorem joinPath_eq {es : List Str} (h : es ≠ []) :
    joinPath es = charSlash :: [charSlash].intercalate es := by
  induction es with
  | nil => exact absurd rfl h
  | cons e es ih =>
    cases es with
    | nil => simp [joinPath, List.intercalate]
    | cons f fs =>
      have hjoin : joinPath (e :: f :: fs) = charSlash :: e ++ joinPath (f :: fs) := rfl
      rw [hjoin, ih (List.cons_ne_nil f fs), List.intercalate_cons_cons]
      simp

theorem NameElement.no_slash {digitFirst : Bool} {e : Str}
    (h : NameElement isWordChar digitFirst e) : charSlash ∉ e := fun hmem =>
  absurd (h.chars _ hmem) (by decide)

theorem splitOn_joinPath {es : List Str} (hne : es ≠ [])
    (h : ∀ e ∈ es, NameElement isWordChar true e) :
    (joinPath es).drop 1 = [charSlash].intercalate es ∧
      ((joinPath es).drop 1).splitOn charSlash = es := by
  have hdrop : (joinPath es).drop 1 = [charSlash].intercalate es := by
    rw [joinPath_eq hne]
    rfl
  refine ⟨hdrop, ?_⟩
  rw [hdrop]
  exact List.splitOn_intercalate charSlash (fun e he => (h e he).no_slash) hne

theorem wordElement_iff (e : Str) :
    IsElement isWordChar isWordChar e ↔ NameElement isWordChar true e :=
  nameElement_iff (fun c => by simp) e

theorem objectPathIsValid_iff {s : Str} (h0 : (0 : UInt8) ∉ s) :
    objectPathIsValid s = true ↔ ObjectPath s := by
  have hloop : ∀ q, objectPathLoop true q = true ↔
      ∀ e ∈ q.splitOn charSlash, NameElement isWordChar true e := by
    intro q
    rw [objectPathLoop_eq, readsElements_true_iff]
    exact forall₂_congr fun e _ => wordElement_iff e
  constructor
  · intro h
    unfold objectPathIsValid at h
    split_ifs at h with hslash hroot
    all_goals
      obtain ⟨q, rfl⟩ : ∃ q, s = charSlash :: q :=
        ⟨_, eq_cons_of_charAt (by decide) (Decidable.not_not.mp hslash)⟩
    · -- nothing behind the slash
      have hlen : (charSlash :: q).length ≤ 1 := by
        by_contra hlong
        exact absurd ((charAt_eq_zero_iff h0 (by omega)).mp hroot) (by omega)
      obtain rfl : q = [] := List.length_eq_zero_iff.mp (by simpa using hlen)
      exact Or.inl rfl
    · refine Or.inr ⟨q.splitOn charSlash, List.splitOn_ne_nil _ _, (hloop q).mp h, ?_⟩
      rw [joinPath_eq (List.splitOn_ne_nil _ _), List.intercalate_splitOn]
  · rintro (rfl | ⟨es, hne, hes, rfl⟩)
    · rfl
    · obtain ⟨hdrop, hsplit⟩ := splitOn_joinPath hne hes
      have hhead : charAt (joinPath es) 0 = charSlash := by
        rw [joinPath_eq hne]
        rfl
      unfold objectPathIsValid
      rw [if_neg (fun h => h hhead)]
      split_ifs
      · rfl
      · rw [hloop, hsplit]
        exact hes

def objectPathRemainder (a b : Str) : Option Str :=
  if !objectPathIsValid a || !objectPathIsValid b then none
  else if b = [charSlash] then some (a.drop 1)
  else if !b.isPrefixOf a then none
  else
    let p := a.drop b.length
    if charAt p 0 = 0 then some p
    else if charAt p 0 = charSlash then some (p.drop 1)
    else none

def pathElements (p : Str) : List Str :=
  if p = [charSlash] then [] else (p.drop 1).splitOn charSlash

theorem pathElements_root : pathElements [charSlash] = [] := rfl

theorem joinPath_ne_root {es : List Str} (h : ∀ e ∈ es, NameElement isWordChar true e) :
    joinPath es ≠ [charSlash] := by
  intro hroot
  cases es with
  | nil => exact absurd hroot (by simp [joinPath])
  | cons e es =>
    have htail : e ++ joinPath es = [] := (List.cons.inj hroot).2
    exact (h e List.mem_cons_self).ne_nil (List.append_eq_nil_iff.mp htail).1

theorem objectPath_cases {p : Str} (h0 : (0 : UInt8) ∉ p) (h : objectPathIsValid p = true) :
    p = [charSlash] ∨ p ≠ [charSlash] ∧ pathElements p ≠ [] ∧
      (∀ e ∈ pathElements p, NameElement isWordChar true e) ∧ p = joinPath (pathElements p) := by
  rcases (objectPathIsValid_iff h0).mp h with rfl | ⟨es, hne, hes, rfl⟩
  · exact Or.inl rfl
  · have hroot := joinPath_ne_root hes
    have helements : pathElements (joinPath es) = es := by
      rw [pathElements, if_neg hroot, (splitOn_joinPath hne hes).2]
    rw [helements]
    exact Or.inr ⟨hroot, hne, hes, rfl⟩

theorem joinPath_drop_one (es : List Str) : (joinPath es).drop 1 = [charSlash].intercalate es := by
  by_cases h : es = []
  · rw [h]
    rfl
  · rw [joinPath_eq h]
    rfl

theorem charAt_joinPath {es : List Str} (h : es ≠ []) : charAt (joinPath es) 0 = charSlash := by
  rw [joinPath_eq h]
  rfl

theorem joinPath_split {es fs : List Str} (hes : ∀ e ∈ es, charSlash ∉ e)
    (hfs : ∀ e ∈ fs, charSlash ∉ e) (hne : es ≠ []) {q : Str}
    (h : joinPath es ++ charSlash :: q = joinPath fs) : fs = es ++ q.splitOn charSlash := by
  have hfs' : fs ≠ [] := by
    rintro rfl
    exact absurd h (by simp [joinPath])
  have hsplit := congrArg (fun s : Str => (s.drop 1).splitOn charSlash) h
  rw [joinPath_eq hne, joinPath_eq hfs', List.cons_append, List.drop_succ_cons, List.drop_succ_cons,
    List.drop_zero, List.drop_zero, List.splitOn_append_cons_self,
    List.splitOn_intercalate charSlash hes hne, List.splitOn_intercalate charSlash hfs hfs'] at hsplit
  exact hsplit.symm

theorem objectPathRemainder_root {a : Str} (ha : objectPathIsValid a = true) :
    objectPathRemainder a [charSlash] = some (a.drop 1) := by
  unfold objectPathRemainder
  rw [ha]
  rfl

theorem objectPathRemainder_below {a b p : Str} (ha : objectPathIsValid a = true)
    (hb : objectPathIsValid b = true) (hroot : b ≠ [charSlash]) (h : a = b ++ p) :
    objectPathRemainder a b = if charAt p 0 = 0 then some p
      else if charAt p 0 = charSlash then some (p.drop 1) else none := by
  have hpre : b.isPrefixOf a = true := List.isPrefixOf_iff_prefix.mpr ⟨p, h.symm⟩
  unfold objectPathRemainder
  rw [ha, hb, if_neg (by simp), if_neg hroot, hpre, if_neg (by simp), h, List.drop_left]

theorem objectPathRemainder_none {a b : Str} (hroot : b ≠ [charSlash]) (h : ¬b <+: a) :
    objectPathRemainder a b = none := by
  have hpre : b.isPrefixOf a = false := by
    rw [← Bool.not_eq_true, List.isPrefixOf_iff_prefix]
    exact h
  unfold objectPathRemainder
  rw [if_neg hroot, hpre]
  simp

theorem objectPathRemainder_iff {a b : Str} (ha0 : (0 : UInt8) ∉ a) (hb0 : (0 : UInt8) ∉ b)
    (ha : objectPathIsValid a = true) (hb : objectPathIsValid b = true) (r : Str) :
    objectPathRemainder a b = some r ↔
      ∃ es, pathElements a = pathElements b ++ es ∧ r = [charSlash].intercalate es := by
  rcases objectPath_cases hb0 hb with rfl | ⟨hroot, hne, hbs, hbjoin⟩
  · -- everything is below the root
    rw [objectPathRemainder_root ha, pathElements_root, Option.some_inj]
    rcases objectPath_cases ha0 ha with rfl | ⟨-, -, -, hajoin⟩
    · rw [pathElements_root]
      constructor
      · rintro rfl
        exact ⟨[], rfl, rfl⟩
      · rintro ⟨es, hes, rfl⟩
        rw [← List.nil_append es, ← hes]
        rfl
    · have hdrop := joinPath_drop_one (pathElements a)
      rw [← hajoin] at hdrop
      rw [hdrop]
      constructor
      · rintro rfl
        exact ⟨_, rfl, rfl⟩
      · rintro ⟨es, hes, rfl⟩
        rw [hes, List.nil_append]
  have hbslash : ∀ e ∈ pathElements b, charSlash ∉ e := fun e he => (hbs e he).no_slash
  rcases objectPath_cases ha0 ha with rfl | ⟨-, hane, has, hajoin⟩
  · -- the root is below nothing else
    have hno : ¬b <+: [charSlash] := by
      intro hpre
      rw [hbjoin, joinPath_eq hne] at hpre
      have hlen := hpre.length_le
      have hnil : [charSlash].intercalate (pathElements b) = [] := by
        rw [← List.length_eq_zero_iff]
        simpa using hlen
      rw [joinPath_eq hne, hnil] at hbjoin
      exact hroot hbjoin
    rw [objectPathRemainder_none hroot hno, pathElements_root]
    constructor
    · exact fun h => absurd h (by simp)
    · rintro ⟨es, hes, -⟩
      exact absurd (List.append_eq_nil_iff.mp hes.symm).1 hne
  have haslash : ∀ e ∈ pathElements a, charSlash ∉ e := fun e he => (has e he).no_slash
  constructor
  · intro h
    by_cases hpre : b <+: a
    · obtain ⟨p, hp⟩ := hpre
      rw [objectPathRemainder_below ha hb hroot hp.symm] at h
      split_ifs at h with hend hslash
      · obtain rfl : p = r := Option.some.inj h
        have hnil : p = [] := by
          cases p with
          | nil => rfl
          | cons c p =>
            obtain rfl : c = 0 := hend
            exact absurd (hp ▸ by simp) ha0
        rw [hnil, List.append_nil] at hp
        exact ⟨[], by rw [hp, List.append_nil], hnil⟩
      · obtain rfl : p.drop 1 = r := Option.some.inj h
        have hcons := eq_cons_of_charAt (by decide) hslash
        have hjoin : joinPath (pathElements b) ++ charSlash :: p.drop 1 =
            joinPath (pathElements a) := by
          rw [← hbjoin, ← hajoin, ← hcons, hp]
        refine ⟨_, joinPath_split hbslash haslash hne hjoin, ?_⟩
        rw [List.intercalate_splitOn]
    · rw [objectPathRemainder_none hroot hpre] at h
      exact absurd h (by simp)
  · rintro ⟨es, hes, rfl⟩
    have hsplit : a = b ++ joinPath es := by
      rw [hajoin, hes, joinPath_append, ← hbjoin]
    rw [objectPathRemainder_below ha hb hroot hsplit, joinPath_drop_one]
    by_cases hnil : es = []
    · subst hnil
      rfl
    · rw [charAt_joinPath hnil, if_neg (by decide), if_pos rfl]

/-- Each validator accepts the strings of its grammar, and valid paths are compared element by
element. -/
theorem names_exact :
    (∀ s : Str, (0 : UInt8) ∉ s → (objectPathIsValid s = true ↔ ObjectPath s) ∧
      (interfaceNameIsValid s = true ↔ InterfaceName s) ∧
      (serviceNameIsValid s = true ↔ BusName s) ∧ (memberNameIsValid s = true ↔ MemberName s)) ∧
    ∀ a b : Str, (0 : UInt8) ∉ a → (0 : UInt8) ∉ b → objectPathIsValid a = true →
      objectPathIsValid b = true → ∀ r, objectPathRemainder a b = some r ↔
        ∃ es, pathElements a = pathElements b ++ es ∧ r = [charSlash].intercalate es :=
  ⟨fun s h0 => ⟨objectPathIsValid_iff h0, interfaceNameIsValid_iff s, serviceNameIsValid_iff s,
    memberNameIsValid_iff s⟩,
    fun _ _ ha0 hb0 ha hb => objectPathRemainder_iff ha0 hb0 ha hb⟩

theorem names_exact_below : InterfaceName [97, 46, 98] ∧
    objectPathRemainder [47, 97, 47, 98] [47, 97] = some [98] :=
  ⟨(names_exact.1 [97, 46, 98] (by decide)).2.1.mp (by decide),
    (names_exact.2 [47, 97, 47, 98] [47, 97] (by decide) (by decide) (by decide) (by decide)
      [98]).mpr ⟨[[98]], by decide, by decide⟩⟩

end Basu
