import Basu.Address.Parse
import Mathlib.Data.List.Infix

/-! The keys of an entry of an address as they are written, and what the loop over them comes to: it
takes each key that it knows, and one that it does not know at the end of the entry takes what
follows with it, up to the next comma. -/

namespace Basu
open Lib

inductive Unescapes : Str → Str → Prop
  | nil : Unescapes [] []
  | plain {c : UInt8} {s v : Str} (hc : c ≠ charPercent) (h : Unescapes s v) :
      Unescapes (c :: s) (c :: v)
  | escaped {x y a b : UInt8} {s v : Str} (hx : unhexchar x = some a) (hy : unhexchar y = some b)
      (h : Unescapes s v) : Unescapes (charPercent :: x :: y :: s) ((a <<< 4 ||| b) :: v)

def IsParam (p : Str) : Prop := ∀ c ∈ p, c ≠ charComma ∧ c ≠ charSemicolon ∧ c ≠ 0

def EndsParam (rest : Str) : Prop :=
  rest = [] ∨ ∃ t, rest = charComma :: t ∨ rest = charSemicolon :: t

theorem IsParam.tail {c : UInt8} {p : Str} (h : IsParam (c :: p)) : IsParam p :=
  fun x hx => h x (List.mem_cons_of_mem c hx)

theorem IsParam.head_other {c : UInt8} {p : Str} (h : IsParam (c :: p)) :
    ¬(c = charSemicolon ∨ c = charComma) := by
  obtain ⟨hcomma, hsemicolon, -⟩ := h c List.mem_cons_self
  exact fun hc => hc.elim hsemicolon hcomma

theorem EndsParam.addressValue {rest : Str} (h : EndsParam rest) :
    addressValue rest = .ok ([], rest) := by
  rcases h with rfl | ⟨t, rfl | rfl⟩
  · exact addressValue_nil
  · exact addressValue_end (Or.inr rfl) t
  · exact addressValue_end (Or.inl rfl) t

theorem addressValue_cut {rest : Str} (h : EndsParam rest) :
    addressValue (charPercent :: rest) = .error .einval := by
  rw [addressValue.eq_def]
  rcases h with rfl | ⟨t, rfl | rfl⟩
  · rfl
  · cases t <;> rfl
  · cases t <;> rfl

theorem addressValue_cut_one {rest : Str} (h : EndsParam rest) (x : UInt8) :
    addressValue (charPercent :: x :: rest) = .error .einval := by
  rw [addressValue.eq_def]
  rcases h with rfl | ⟨t, rfl | rfl⟩
  · rfl
  · have hcomma : unhexchar charComma = none := rfl
    dsimp only
    rw [hcomma]
    cases unhexchar x <;> rfl
  · have hsemicolon : unhexchar charSemicolon = none := rfl
    dsimp only
    rw [hsemicolon]
    cases unhexchar x <;> rfl

theorem addressValue_append {raw rest : Str} (hraw : IsParam raw) (hrest : EndsParam rest) :
    addressValue (raw ++ rest) = (addressValue raw).map fun r => (r.1, rest) := by
  induction raw using addressValue.induct with
  | case1 =>
    rw [List.nil_append, hrest.addressValue, addressValue_nil]
    rfl
  | case2 c a hc => exact absurd hc hraw.head_other
  | case3 x y a c d hy hx _ ih =>
    have ih := ih hraw.tail.tail.tail
    simp only [List.cons_append, addressValue_percent, hx, hy, ih]
    cases addressValue a <;> rfl
  | case4 x y a hdigits _ =>
    simp only [List.cons_append, addressValue_percent]
    cases hx : unhexchar x with
    | none => rfl
    | some c =>
      cases hy : unhexchar y with
      | none => rfl
      | some d => exact absurd hy (hdigits c d hx)
  | case5 a hshort _ =>
    match a with
    | [] =>
      rw [List.singleton_append, addressValue_cut hrest, addressValue_cut (Or.inl rfl)]
      rfl
    | [x] =>
      rw [List.cons_append, List.singleton_append, addressValue_cut_one hrest,
        addressValue_cut_one (Or.inl rfl)]
      rfl
    | x :: y :: a => exact absurd rfl (hshort x y a)
  | case6 c a hc hp ih =>
    rw [List.cons_append, addressValue_other hc hp, addressValue_other hc hp, ih hraw.tail]
    cases addressValue a <;> rfl

theorem addressValue_of_unescapes {raw v : Str} (hraw : IsParam raw) (h : Unescapes raw v) :
    addressValue raw = .ok (v, []) := by
  induction h with
  | nil => exact addressValue_nil
  | plain hc _ ih =>
    rw [addressValue_other hraw.head_other hc, ih hraw.tail]
    rfl
  | escaped hx hy _ ih =>
    rw [addressValue_percent, hx, hy, ih hraw.tail.tail.tail]
    rfl

theorem unescapes_of_addressValue {raw : Str} {r : Str × Str} (hraw : IsParam raw)
    (h : addressValue raw = .ok r) : Unescapes raw r.1 := by
  induction raw using addressValue.induct generalizing r with
  | case1 =>
    rw [addressValue_nil] at h
    rw [← Except.ok.inj h]
    exact Unescapes.nil
  | case2 c a hc => exact absurd hc hraw.head_other
  | case3 x y a c d hy hx _ ih =>
    rw [addressValue_percent, hx, hy] at h
    cases ha : addressValue a with
    | error e => simp [ha, Except.map] at h
    | ok s =>
      simp only [ha, Except.map, Except.ok.injEq] at h
      rw [← h]
      exact Unescapes.escaped hx hy (ih hraw.tail.tail.tail ha)
  | case4 x y a hdigits _ =>
    rw [addressValue_percent] at h
    cases hx : unhexchar x with
    | none => simp [hx] at h
    | some c =>
      cases hy : unhexchar y with
      | none => simp [hx, hy] at h
      | some d => exact absurd hy (hdigits c d hx)
  | case5 a hshort _ =>
    match a with
    | [] => simp [addressValue_cut (Or.inl rfl)] at h
    | [x] => simp [addressValue_cut_one (Or.inl rfl)] at h
    | x :: y :: a => exact absurd rfl (hshort x y a)
  | case6 c a hc hp ih =>
    rw [addressValue_other hc hp] at h
    cases ha : addressValue a with
    | error e => simp [ha, Except.map] at h
    | ok s =>
      simp only [ha, Except.map, Except.ok.injEq] at h
      rw [← h]
      exact Unescapes.plain hp (ih hraw.tail ha)

def rawValue (key p : Str) : Option Str :=
  if (key ++ [charEquals]).isPrefixOf p then some (p.drop (key.length + 1)) else none

def isKnown (keys : List Str) (p : Str) : Bool := keys.any fun key => (rawValue key p).isSome

def takeParam (p : Str) (found : AddressKeys) : List Str → Except Errno AddressKeys
  | [] => .ok found
  | key :: keys =>
    match rawValue key p with
    | none => takeParam p found keys
    | some raw =>
      if (found key).isSome then .error .einval
      else (addressValue raw).map fun r => Function.update found key (some (cString r.1))

def takeParams (keys : List Str) : List Str → AddressKeys → Except Errno AddressKeys
  | [], found => .ok found
  | p :: ps, found =>
    match takeParam p found keys with
    | .error r => .error r
    | .ok found => takeParams keys ps found

def dangles (keys : List Str) : List Str → Bool
  | [] => false
  | [p] => !p.isEmpty && !isKnown keys p
  | _ :: p :: ps => dangles keys (p :: ps)

def behindParam (rest : Str) : Str := if charAt rest 0 = charComma then rest.drop 1 else rest

theorem isPrefixOf_append {w p rest : Str} (hw : ∀ c ∈ w, c ≠ charComma ∧ c ≠ charSemicolon)
    (hrest : EndsParam rest) : w.isPrefixOf (p ++ rest) = w.isPrefixOf p := by
  rw [Bool.eq_iff_iff, List.isPrefixOf_iff_prefix, List.isPrefixOf_iff_prefix]
  constructor
  · rintro ⟨t, ht⟩
    rcases List.append_eq_append_iff.mp ht with ⟨s, hs, -⟩ | ⟨s, hs, hr⟩
    · exact ⟨s, hs.symm⟩
    · cases s with
      | nil =>
        rw [List.append_nil] at hs
        exact hs ▸ List.prefix_rfl
      | cons c s =>
        have hc := hw c (hs ▸ List.mem_append_right p List.mem_cons_self)
        rcases hrest with rfl | ⟨u, rfl | rfl⟩
        · exact absurd hr (List.cons_ne_nil _ _).symm
        · exact absurd (List.cons.inj hr).1.symm hc.1
        · exact absurd (List.cons.inj hr).1.symm hc.2
  · exact fun h => h.trans (List.prefix_append p rest)

theorem isPrefixOf_equals (key p : Str) :
    (key ++ [charEquals]).isPrefixOf p = (key.isPrefixOf p && charAt p key.length == charEquals) := by
  induction key generalizing p with
  | nil => cases p <;> simp [charAt, charEquals, List.isPrefixOf, eq_comm]
  | cons c key ih =>
    cases p with
    | nil => rfl
    | cons d p =>
      simp only [List.cons_append, List.isPrefixOf_cons_cons, ih]
      rw [Bool.and_assoc]
      rfl

def IsKey (key : Str) : Prop := ∀ c ∈ key, c ≠ charComma ∧ c ≠ charSemicolon

theorem rawValue_append {key p rest : Str} (hkey : IsKey key) (hrest : EndsParam rest) :
    rawValue key (p ++ rest) = (rawValue key p).map (· ++ rest) := by
  have hw : ∀ c ∈ key ++ [charEquals], c ≠ charComma ∧ c ≠ charSemicolon := by
    intro c hc
    rcases List.mem_append.mp hc with hc | hc
    · exact hkey c hc
    · rw [List.mem_singleton.mp hc]
      decide
  unfold rawValue
  rw [isPrefixOf_append hw hrest]
  split_ifs with h
  · have hlen := (List.isPrefixOf_iff_prefix.mp h).length_le
    rw [List.length_append, List.length_singleton] at hlen
    rw [List.drop_append_of_le_length hlen]
    rfl
  · rfl

theorem rawValue_param {key p raw : Str} (hp : IsParam p) (h : rawValue key p = some raw) :
    IsParam raw := by
  unfold rawValue at h
  split_ifs at h
  rw [← Option.some.inj h]
  exact fun c hc => hp c (List.mem_of_mem_drop hc)

theorem parseAddressKey_eq (p key : Str) (value : Option Str) :
    parseAddressKey p (some key) value = match rawValue key p with
      | none => .ok none
      | some raw => if value.isSome then .error .einval else addressKeyValue raw := by
  unfold parseAddressKey rawValue
  rw [isPrefixOf_equals]
  dsimp only
  cases hk : key.isPrefixOf p with
  | false => rfl
  | true =>
    by_cases he : charAt p key.length = charEquals
    · simp [he]
    · simp [he]

theorem parseAddressKey_append {key p rest : Str} (hkey : IsKey key) (hp : IsParam p)
    (hrest : EndsParam rest) (value : Option Str) :
    parseAddressKey (p ++ rest) (some key) value = match rawValue key p with
      | none => .ok none
      | some raw =>
        if value.isSome then .error .einval
        else (addressValue raw).map fun r => some (behindParam rest, cString r.1) := by
  rw [parseAddressKey_eq, rawValue_append hkey hrest]
  cases h : rawValue key p with
  | none => rfl
  | some raw =>
    simp only [Option.map_some, addressKeyValue]
    rw [addressValue_append (rawValue_param hp h) hrest]
    cases addressValue raw <;> rfl

theorem addressKeyTurn_append {keys : List Str} {p rest : Str} (hkeys : ∀ key ∈ keys, IsKey key)
    (hp : IsParam p) (hrest : EndsParam rest) (found : AddressKeys) :
    addressKeyTurn keys (p ++ rest) found = (takeParam p found keys).map fun f =>
      (if isKnown keys p then behindParam rest else skipAddressKey (p ++ rest), f) := by
  induction keys with
  | nil => rfl
  | cons key keys ih =>
    rw [addressKeyTurn, parseAddressKey_append (hkeys key List.mem_cons_self) hp hrest, takeParam,
      isKnown, List.any_cons]
    cases h : rawValue key p with
    | none => exact ih fun key h => hkeys key (List.mem_cons_of_mem _ h)
    | some raw =>
      dsimp only
      by_cases hfound : (found key).isSome = true
      · rw [if_pos hfound, if_pos hfound]
        rfl
      · rw [if_neg hfound, if_neg hfound]
        cases addressValue raw <;> rfl

theorem skipAddressKey_append {p : Str} (hp : IsParam p) (rest : Str) :
    skipAddressKey (p ++ rest) = skipAddressKey rest := by
  unfold skipAddressKey
  rw [List.dropWhile_append_of_pos fun c hc => decide_eq_true (hp c hc).1]

theorem skipAddressKey_length (p : Str) : (skipAddressKey p).length ≤ p.length := by
  unfold skipAddressKey
  rw [List.length_drop]
  exact (Nat.sub_le _ _).trans (List.length_dropWhile_le _ p)

def joinParams (ps : List Str) : Str := [charComma].intercalate ps

theorem joinParams_cons (p q : Str) (ps : List Str) :
    joinParams (p :: q :: ps) = p ++ charComma :: joinParams (q :: ps) := by
  unfold joinParams
  rw [List.intercalate_cons_cons, List.append_assoc, List.singleton_append]

def EndsEntry (rest : Str) : Prop := rest = [] ∨ ∃ t, rest = charSemicolon :: t

theorem EndsEntry.endsParam {rest : Str} (h : EndsEntry rest) : EndsParam rest :=
  h.imp_right fun ⟨t, ht⟩ => ⟨t, Or.inr ht⟩

theorem EndsEntry.behind {rest : Str} (h : EndsEntry rest) : behindParam rest = rest := by
  rcases h with rfl | ⟨t, rfl⟩ <;> rfl

theorem addressKeyLoop_stop {keys : List Str} {rest : Str} (h : EndsEntry rest) (fuel : Nat)
    (found : AddressKeys) : addressKeyLoop keys fuel rest found = .ok (rest, found) := by
  cases fuel with
  | zero => rfl
  | succ fuel =>
    rw [addressKeyLoop]
    rcases h with rfl | ⟨t, rfl⟩
    · exact if_pos (Or.inl rfl)
    · exact if_pos (Or.inr rfl)

theorem rawValue_nil (key : Str) : rawValue key [] = none := by
  cases key <;> rfl

theorem takeParam_nil (keys : List Str) (found : AddressKeys) :
    takeParam [] found keys = .ok found := by
  induction keys with
  | nil => rfl
  | cons key keys ih => rw [takeParam, rawValue_nil, ih]

theorem addressKeyLoop_turn {keys : List Str} {p rest : Str} (hkeys : ∀ key ∈ keys, IsKey key)
    (hp : IsParam p) (hrest : EndsParam rest) (hne : ¬(p = [] ∧ EndsEntry rest)) (fuel : Nat)
    (found : AddressKeys) :
    addressKeyLoop keys (fuel + 1) (p ++ rest) found =
      match takeParam p found keys with
      | .error r => .error r
      | .ok f => addressKeyLoop keys fuel
          (if isKnown keys p then behindParam rest else skipAddressKey rest) f := by
  have hgo : ¬(charAt (p ++ rest) 0 = 0 ∨ charAt (p ++ rest) 0 = charSemicolon) := by
    cases p with
    | nil =>
      rcases hrest with rfl | ⟨t, rfl | rfl⟩
      · exact absurd ⟨rfl, Or.inl rfl⟩ hne
      · rw [List.nil_append, charAt_cons_zero]
        decide
      · exact absurd ⟨rfl, Or.inr ⟨t, rfl⟩⟩ hne
    | cons c p =>
      obtain ⟨-, hsemicolon, hnul⟩ := hp c List.mem_cons_self
      exact fun h => h.elim hnul hsemicolon
  rw [addressKeyLoop, if_neg hgo, addressKeyTurn_append hkeys hp hrest, skipAddressKey_append hp]
  cases takeParam p found keys <;> rfl

theorem addressKeyLoop_params {keys ps : List Str} {rest : Str}
    {onward : AddressKeys → Except Errno (Str × AddressKeys)}
    (hkeys : ∀ key ∈ keys, IsKey key) (hps : ∀ p ∈ ps, IsParam p) (hrest : EndsEntry rest)
    (honward : ∀ fuel f, (skipAddressKey rest).length ≤ fuel →
      addressKeyLoop keys fuel (skipAddressKey rest) f = onward f)
    (fuel : Nat) (found : AddressKeys) (hfuel : (joinParams ps ++ rest).length ≤ fuel) :
    addressKeyLoop keys fuel (joinParams ps ++ rest) found =
      match takeParams keys ps found with
      | .error r => .error r
      | .ok f => if dangles keys ps then onward f else .ok (rest, f) := by
  induction ps generalizing fuel found with
  | nil => exact addressKeyLoop_stop hrest fuel found
  | cons p ps ih =>
    have hp := hps p List.mem_cons_self
    cases ps with
    | nil =>
      have hone : joinParams [p] = p := by
        unfold joinParams
        exact List.intercalate_singleton
      rw [hone] at hfuel ⊢
      rw [takeParams]
      by_cases hnil : p = []
      · subst hnil
        rw [List.nil_append, addressKeyLoop_stop hrest, takeParam_nil]
        rfl
      · have hpos : 0 < p.length := List.length_pos_iff.mpr hnil
        rw [List.length_append] at hfuel
        obtain ⟨n, rfl⟩ : ∃ n, fuel = n + 1 := ⟨fuel - 1, by omega⟩
        rw [addressKeyLoop_turn hkeys hp hrest.endsParam fun h => hnil h.1]
        cases takeParam p found keys with
        | error r => rfl
        | ok f =>
          have hempty : p.isEmpty = false := by simp [hnil]
          simp only [takeParams, dangles, hempty, Bool.not_false, Bool.true_and]
          cases hk : isKnown keys p with
          | true =>
            simp only [if_true, Bool.not_true, Bool.false_eq_true, if_false]
            rw [hrest.behind, addressKeyLoop_stop hrest]
          | false =>
            simp only [Bool.false_eq_true, if_false, Bool.not_false, if_true]
            have hskip := (skipAddressKey_length rest)
            exact honward n f (by omega)
    | cons q ps =>
      have hends : EndsParam (charComma :: (joinParams (q :: ps) ++ rest)) :=
        Or.inr ⟨_, Or.inl rfl⟩
      rw [joinParams_cons, List.append_assoc, List.cons_append] at hfuel ⊢
      rw [List.length_append, List.length_cons] at hfuel
      obtain ⟨n, rfl⟩ : ∃ n, fuel = n + 1 := ⟨fuel - 1, by omega⟩
      rw [addressKeyLoop_turn hkeys hp hends, takeParams]
      · have hbehind : (if isKnown keys p = true then
            behindParam (charComma :: (joinParams (q :: ps) ++ rest))
            else skipAddressKey (charComma :: (joinParams (q :: ps) ++ rest))) =
            joinParams (q :: ps) ++ rest := by
          split_ifs <;> rfl
        rw [hbehind]
        cases takeParam p found keys with
        | error r => rfl
        | ok f =>
          exact ih (fun p h => hps p (List.mem_cons_of_mem _ h)) n f (by omega)
      · rintro ⟨-, hnil | ⟨t, ht⟩⟩
        · exact absurd hnil (List.cons_ne_nil _ _)
        · exact absurd (List.cons.inj ht).1 (by decide)

def rawValues (key : Str) (ps : List Str) : List Str := ps.filterMap (rawValue key)

def GivesValue (key : Str) (ps : List Str) (v : Str) : Prop :=
  ∃ raw w, rawValues key ps = [raw] ∧ Unescapes raw w ∧ v = cString w

/-- A key that was not there yet may be given once, and one that was there is not given again. -/
def Takes (key : Str) (ps : List Str) (old new : Option Str) : Prop :=
  rawValues key ps = [] ∧ new = old ∨ old = none ∧ ∃ v, GivesValue key ps v ∧ new = some v

def Exclusive (keys : List Str) : Prop :=
  ∀ k ∈ keys, ∀ k' ∈ keys, k ≠ k' → ∀ p, rawValue k p = none ∨ rawValue k' p = none

theorem rawValue_isSome_iff (key p : Str) :
    (rawValue key p).isSome = true ↔ key ++ [charEquals] <+: p := by
  unfold rawValue
  rw [← List.isPrefixOf_iff_prefix]
  split_ifs with h <;> simp [h]

theorem exclusive_of_not_prefix {keys : List Str}
    (h : ∀ k ∈ keys, ∀ k' ∈ keys, k ≠ k' → ¬k ++ [charEquals] <+: k' ++ [charEquals]) :
    Exclusive keys := by
  intro k hk k' hk' hne p
  by_contra hboth
  rw [not_or, ← ne_eq, ← ne_eq, Option.ne_none_iff_isSome, Option.ne_none_iff_isSome,
    rawValue_isSome_iff, rawValue_isSome_iff] at hboth
  rcases List.prefix_or_prefix_of_prefix hboth.1 hboth.2 with hp | hp
  · exact h k hk k' hk' hne hp
  · exact h k' hk' k hk hne.symm hp

theorem takeParam_none {keys : List Str} {p : Str} (h : ∀ key ∈ keys, rawValue key p = none)
    (found : AddressKeys) : takeParam p found keys = .ok found := by
  induction keys with
  | nil => rfl
  | cons key keys ih =>
    rw [takeParam, h key List.mem_cons_self]
    exact ih fun key hk => h key (List.mem_cons_of_mem _ hk)

theorem takeParam_some {keys : List Str} {key p raw : Str} (hx : Exclusive keys) (hkey : key ∈ keys)
    (hraw : rawValue key p = some raw) (found : AddressKeys) :
    takeParam p found keys =
      if (found key).isSome then .error .einval
      else (addressValue raw).map fun r => Function.update found key (some (cString r.1)) := by
  induction keys with
  | nil => exact absurd hkey List.not_mem_nil
  | cons k keys ih =>
    rw [takeParam]
    by_cases hk : k = key
    · subst hk
      rw [hraw]
    · have hnone : rawValue k p = none :=
        (hx k List.mem_cons_self key hkey hk p).resolve_right (by simp [hraw])
      rw [hnone]
      have hmem := (List.mem_cons.mp hkey).resolve_left (Ne.symm hk)
      exact ih (fun a ha b hb => hx a (List.mem_cons_of_mem _ ha) b (List.mem_cons_of_mem _ hb)) hmem

theorem rawValues_cons_none {key p : Str} (h : rawValue key p = none) (ps : List Str) :
    rawValues key (p :: ps) = rawValues key ps := List.filterMap_cons_none h

theorem rawValues_cons_some {key p raw : Str} (h : rawValue key p = some raw) (ps : List Str) :
    rawValues key (p :: ps) = raw :: rawValues key ps := List.filterMap_cons_some h

theorem takes_cons_none {key p : Str} (h : rawValue key p = none) (ps : List Str)
    (old new : Option Str) : Takes key (p :: ps) old new ↔ Takes key ps old new := by
  unfold Takes GivesValue
  rw [rawValues_cons_none h]

theorem takes_cons_some {key p raw : Str} (h : rawValue key p = some raw) (ps : List Str)
    (old new : Option Str) :
    Takes key (p :: ps) old new ↔
      old = none ∧ ∃ w, Unescapes raw w ∧ Takes key ps (some (cString w)) new := by
  unfold Takes GivesValue
  rw [rawValues_cons_some h]
  constructor
  · rintro (⟨hnil, -⟩ | ⟨hold, v, ⟨raw', w, hraw, hw, rfl⟩, hnew⟩)
    · exact absurd hnil (List.cons_ne_nil _ _)
    · obtain ⟨rfl, hps⟩ := List.cons.inj hraw
      exact ⟨hold, w, hw, Or.inl ⟨hps, hnew⟩⟩
  · rintro ⟨hold, w, hw, ⟨hps, hnew⟩ | ⟨hsome, -⟩⟩
    · exact Or.inr ⟨hold, cString w, ⟨raw, w, by rw [hps], hw, rfl⟩, hnew⟩
    · exact absurd hsome (Option.some_ne_none _)

theorem Takes.same {key : Str} {old new : Option Str} : Takes key [] old new ↔ new = old := by
  unfold Takes GivesValue rawValues
  simp

theorem takeParams_iff {keys ps : List Str} (hx : Exclusive keys) (hps : ∀ p ∈ ps, IsParam p)
    (found f : AddressKeys) :
    takeParams keys ps found = .ok f ↔
      (∀ key ∈ keys, Takes key ps (found key) (f key)) ∧ ∀ key ∉ keys, f key = found key := by
  induction ps generalizing found with
  | nil =>
    simp only [takeParams, Takes.same, Except.ok.injEq]
    constructor
    · rintro rfl
      exact ⟨fun _ _ => rfl, fun _ _ => rfl⟩
    · rintro ⟨hin, hout⟩
      funext key
      by_cases hkey : key ∈ keys
      · exact (hin key hkey).symm
      · exact (hout key hkey).symm
  | cons p ps ih =>
    have ih := ih fun q hq => hps q (List.mem_cons_of_mem _ hq)
    rw [takeParams]
    by_cases hnone : ∀ key ∈ keys, rawValue key p = none
    · rw [takeParam_none hnone]
      dsimp only
      rw [ih]
      refine and_congr_left fun _ => forall₂_congr fun key hkey => ?_
      rw [takes_cons_none (hnone key hkey)]
    · push Not at hnone
      obtain ⟨key, hkey, hne⟩ := hnone
      obtain ⟨raw, hraw⟩ := Option.ne_none_iff_exists'.mp hne
      have hparam := rawValue_param (hps p List.mem_cons_self) hraw
      have hothers : ∀ k ∈ keys, k ≠ key → rawValue k p = none := fun k hk hkk =>
        (hx k hk key hkey hkk p).resolve_right (by simp [hraw])
      rw [takeParam_some hx hkey hraw]
      split_ifs with hfound
      · refine ⟨fun h => (nomatch h), fun h => ?_⟩
        rw [((takes_cons_some hraw ps _ _).mp (h.1 key hkey)).1] at hfound
        exact absurd hfound (by simp)
      · have hold : found key = none := by simpa using hfound
        cases hv : addressValue raw with
        | error e =>
          refine ⟨fun h => (nomatch h), fun h => ?_⟩
          obtain ⟨-, w, hw, -⟩ := (takes_cons_some hraw ps _ _).mp (h.1 key hkey)
          rw [addressValue_of_unescapes hparam hw] at hv
          cases hv
        | ok r =>
          simp only [Except.map]
          rw [ih]
          have hr := unescapes_of_addressValue hparam hv
          refine and_congr (forall₂_congr fun k hk => ?_) (forall₂_congr fun k hk => ?_)
          · by_cases hkk : k = key
            · subst hkk
              rw [Function.update_self, takes_cons_some hraw]
              constructor
              · exact fun h => ⟨hold, r.1, hr, h⟩
              · rintro ⟨-, w, hw, h⟩
                rw [addressValue_of_unescapes hparam hw] at hv
                rw [← Except.ok.inj hv]
                exact h
            · rw [Function.update_of_ne hkk, takes_cons_none (hothers k hk hkk)]
          · rw [Function.update_of_ne (ne_of_mem_of_not_mem hkey hk).symm]

theorem exists_takeParams {keys ps : List Str} (hx : Exclusive keys) (hps : ∀ p ∈ ps, IsParam p)
    {found : AddressKeys} (h : ∀ key ∈ keys, ∃ new, Takes key ps (found key) new) :
    ∃ f, takeParams keys ps found = .ok f := by
  classical
  choose! new hnew using h
  refine ⟨fun key => if key ∈ keys then new key else found key, ?_⟩
  rw [takeParams_iff hx hps]
  constructor
  · intro key hkey
    rw [if_pos hkey]
    exact hnew key hkey
  · exact fun key hkey => if_neg hkey

theorem unixKeys_exclusive : Exclusive unixKeys := exclusive_of_not_prefix (by decide)

theorem isKey_unixKeys : ∀ key ∈ unixKeys, IsKey key := by
  simp only [unixKeys, List.forall_mem_cons, List.not_mem_nil, false_imp_iff, implies_true, and_true]
  exact ⟨forall_mem_of_all rfl, forall_mem_of_all rfl, forall_mem_of_all rfl⟩

end Basu
