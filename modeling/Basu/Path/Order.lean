import Basu.Hash.Siphash
import Mathlib.Data.List.DropRight
import Mathlib.Data.List.Lex
import Mathlib.Data.List.TakeWhile
import Mathlib.Data.Prod.Lex

/-! Paths by their components (`path-util.c`, `hash-funcs.c`). A string is the list of its characters,
and its end stands for the NUL. -/

namespace Basu.Path
open Lib

/-! ## `path-util.c` -/

def isAbsolute (s : Str) : Bool := charAt s 0 = charSlash

def skipSlashes (s : Str) : Str := s.dropWhile (· = charSlash)

def nameLength (s : Str) : Nat := (s.takeWhile (· ≠ charSlash)).length

def memcmp : Nat → Str → Str → Int
  | n + 1, a :: as, b :: bs => if a = b then memcmp n as bs else (a.toNat : Int) - b.toNat
  | _, _, _ => 0

def pathStartswithLoop : Nat → Str → Str → Option Str
  | 0, _, _ => none
  | fuel + 1, p, q =>
    let p := skipSlashes p
    let q := skipSlashes q
    if q = [] then some p
    else if p = [] then none
    else
      let a := nameLength p
      let b := nameLength q
      if a ≠ b then none
      else if memcmp a p q ≠ 0 then none
      else pathStartswithLoop fuel (p.drop a) (q.drop b)

def pathStartswith (p q : Str) : Option Str :=
  if isAbsolute p ≠ isAbsolute q then none else pathStartswithLoop (q.length + 1) p q

def pathCompareLoop : Nat → Str → Str → Int
  | 0, _, _ => 0
  | fuel + 1, a, b =>
    let a := skipSlashes a
    let b := skipSlashes b
    if a = [] ∧ b = [] then 0
    else if a = [] then -1
    else if b = [] then 1
    else
      let j := nameLength a
      let k := nameLength b
      let d := memcmp (min j k) a b
      if d ≠ 0 then d.sign
      else
        let d : Int := if k < j then 1 else if j < k then -1 else 0
        if d ≠ 0 then d else pathCompareLoop fuel (a.drop j) (b.drop k)

def pathCompare (a b : Str) : Int :=
  let d : Int := (isAbsolute a).toNat - (isAbsolute b).toNat
  if d ≠ 0 then d else pathCompareLoop (a.length + 1) a b

/-! ## `path_hash_func` -/

def pathHashLoop : Nat → Str → List Bytes
  | 0, _ => []
  | fuel + 1, q =>
    let n := nameLength q
    if n = 0 then []
    else
      let r := q.drop n
      if skipSlashes r = [] then [q.take n]
      else q.take n :: r.take 1 :: pathHashLoop fuel (skipSlashes r)

def pathHashPieces (p : Str) : List Bytes :=
  let q := skipSlashes p
  if q.length < p.length then p.take 1 :: pathHashLoop (p.length + 1) q
  else pathHashLoop (p.length + 1) q

def pathHashFunc (z : SizeT) (p : Str) (state : Hash.Siphash) : Hash.Siphash :=
  (pathHashPieces p).foldl (Hash.siphash24Compress z) state

def components (s : Str) : List Str := (s.splitOn charSlash).filter (· ≠ [])

theorem components_slash (s : Str) : components (charSlash :: s) = components s := by
  have hsplit : (charSlash :: s).splitOn charSlash = [] :: s.splitOn charSlash :=
    List.splitOn_append_cons_self_of_not_mem (List.not_mem_nil (a := charSlash)) s
  rw [components, hsplit, List.filter_cons_of_neg (by simp)]
  rfl

theorem components_skipSlashes (s : Str) : components (skipSlashes s) = components s := by
  induction s with
  | nil => rfl
  | cons c s ih =>
    by_cases hc : c = charSlash
    · rw [skipSlashes, List.dropWhile_cons_of_pos (by simpa using hc), hc, components_slash]
      exact ih
    · rw [skipSlashes, List.dropWhile_cons_of_neg (by simpa using hc)]

theorem skipSlashes_skipSlashes (s : Str) : skipSlashes (skipSlashes s) = skipSlashes s :=
  List.dropWhile_idempotent _ _

theorem skipSlashes_suffix (s : Str) : skipSlashes s <:+ s := List.dropWhile_suffix _

theorem components_name {x r : Str} (hx : x ≠ []) (hslash : charSlash ∉ x)
    (hr : ∀ c ∈ r.head?, c = charSlash) : components (x ++ r) = x :: components r := by
  cases r with
  | nil =>
    rw [List.append_nil, components, List.splitOn_eq_singleton hslash,
      List.filter_cons_of_pos (by simpa using hx)]
    rfl
  | cons c r =>
    obtain rfl := hr c rfl
    rw [components, List.splitOn_append_cons_self_of_not_mem hslash,
      List.filter_cons_of_pos (by simpa using hx), components_slash]
    rfl

structure Next (s x r : Str) : Prop where
  skip : skipSlashes s = x ++ r
  ne : x ≠ []
  noSlash : charSlash ∉ x
  behind : ∀ c ∈ r.head?, c = charSlash

section
variable {s x r : Str}

theorem next_cases (s : Str) : skipSlashes s = [] ∧ components s = [] ∨ ∃ x r, Next s x r := by
  cases hs : skipSlashes s with
  | nil => exact .inl ⟨rfl, by rw [← components_skipSlashes, hs]; rfl⟩
  | cons c t =>
    have hc : c ≠ charSlash := by
      have hhead := List.head?_dropWhile_not (fun c => decide (c = charSlash)) s
      rw [show s.dropWhile _ = c :: t from hs] at hhead
      simpa using hhead
    refine .inr ⟨(c :: t).takeWhile (· ≠ charSlash), (c :: t).dropWhile (· ≠ charSlash), ?_, ?_, ?_,
      ?_⟩
    · rw [hs, List.takeWhile_append_dropWhile]
    · rw [List.takeWhile_cons_of_pos (by simpa using hc)]
      exact List.cons_ne_nil _ _
    · exact fun h => by simpa using List.mem_takeWhile_imp h
    · intro d hd
      have hhead := List.head?_dropWhile_not (fun c => decide (c ≠ charSlash)) (c :: t)
      rw [Option.mem_def] at hd
      rw [hd] at hhead
      simpa using hhead

theorem Next.skip_ne (h : Next s x r) : skipSlashes s ≠ [] := by
  rw [h.skip]
  exact List.append_ne_nil_of_left_ne_nil h.ne r

theorem Next.components (h : Next s x r) : components s = x :: Path.components r := by
  rw [← components_skipSlashes, h.skip, components_name h.ne h.noSlash h.behind]

theorem Next.nameLength (h : Next s x r) : nameLength (x ++ r) = x.length := by
  have htake : (x ++ r).takeWhile (· ≠ charSlash) = x := by
    rw [List.takeWhile_append_of_pos fun c hc => by
      simpa using fun hslash : c = charSlash => h.noSlash (hslash ▸ hc)]
    have hr : r.takeWhile (· ≠ charSlash) = [] := by
      cases r with
      | nil => rfl
      | cons c r =>
        obtain rfl := h.behind c rfl
        rfl
    rw [hr, List.append_nil]
  rw [Path.nameLength, htake]

theorem Next.length_lt (h : Next s x r) : r.length < s.length := by
  have hle := (skipSlashes_suffix s).length_le
  rw [h.skip, List.length_append] at hle
  have hx := List.length_pos_iff.mpr h.ne
  omega

theorem Next.suffix (h : Next s x r) : r <:+ s :=
  (List.suffix_append x r).trans (h.skip ▸ skipSlashes_suffix s)

end

/-! ## Comparing components -/

theorem memcmp_eq_zero {x y : Str} (r s : Str) (h : x.length = y.length) :
    memcmp x.length (x ++ r) (y ++ s) = 0 ↔ x = y := by
  induction x generalizing y with
  | nil =>
    rw [List.length_eq_zero_iff.mp h.symm]
    exact ⟨fun _ => rfl, fun _ => rfl⟩
  | cons a x ih =>
    cases y with
    | nil => cases h
    | cons b y =>
      rw [List.length_cons, List.cons_append, List.cons_append, memcmp]
      split_ifs with hab
      · rw [ih (Nat.succ.inj h), hab, List.cons_inj_right]
      · have hne : (a.toNat : Int) - b.toNat ≠ 0 := fun h0 =>
          hab (UInt8.toNat_inj.mp (by omega))
        exact ⟨fun h0 => absurd h0 hne, fun heq => absurd (List.cons.inj heq).1 hab⟩

/-! ## `path_startswith` -/

theorem pathStartswithLoop_spec (fuel : Nat) : ∀ {p q : Str}, q.length < fuel →
    (∀ r, pathStartswithLoop fuel p q = some r →
      components p = components q ++ components r ∧ r <:+ p ∧ skipSlashes r = r) ∧
    (pathStartswithLoop fuel p q = none → ¬ components q <+: components p) := by
  induction fuel with
  | zero => exact fun h => absurd h (Nat.not_lt_zero _)
  | succ fuel ih =>
    intro p q hfuel
    rw [pathStartswithLoop]
    obtain ⟨hq, hcq⟩ | ⟨y, t, hq⟩ := next_cases q
    · rw [hq, if_pos rfl, hcq]
      refine ⟨fun r hr => ?_, nofun⟩
      obtain rfl := Option.some.inj hr
      rw [components_skipSlashes]
      exact ⟨rfl, skipSlashes_suffix _, skipSlashes_skipSlashes _⟩
    · rw [if_neg hq.skip_ne, hq.components]
      obtain ⟨hp, hcp⟩ | ⟨x, r, hp⟩ := next_cases p
      · rw [hp, if_pos rfl, hcp]
        exact ⟨nofun, fun _ h => absurd (List.prefix_nil.mp h) (List.cons_ne_nil _ _)⟩
      · rw [if_neg hp.skip_ne, hp.components, hp.skip, hq.skip, hp.nameLength, hq.nameLength]
        dsimp only
        have hhead : ∀ h : y :: components t <+: x :: components r, y = x := fun h =>
          (List.cons_prefix_cons.mp h).1
        by_cases hlen : x.length = y.length
        · rw [if_neg (not_not.mpr hlen)]
          by_cases hxy : x = y
          · rw [if_neg (not_not.mpr ((memcmp_eq_zero r t hlen).mpr hxy)), List.drop_left,
              List.drop_left, hxy]
            obtain ⟨hsome, hnone⟩ := ih (p := r) (q := t) (by have := hq.length_lt; omega)
            refine ⟨fun u hu => ?_, fun h hpre => hnone h (List.cons_prefix_cons.mp hpre).2⟩
            obtain ⟨hcomp, hsuf, hskip⟩ := hsome u hu
            rw [hcomp, List.cons_append]
            exact ⟨rfl, hsuf.trans hp.suffix, hskip⟩
          · rw [if_pos fun h => hxy ((memcmp_eq_zero r t hlen).mp h)]
            exact ⟨nofun, fun _ h => hxy (hhead h).symm⟩
        · rw [if_pos hlen]
          exact ⟨nofun, fun _ h => hlen (congrArg _ (hhead h).symm)⟩

/-! ## `path_compare` -/

def threeWay {α : Type*} [LinearOrder α] (a b : α) : Int :=
  if a < b then -1 else if b < a then 1 else 0

def pathKey (s : Str) : Bool ×ₗ List (List Nat) :=
  toLex (isAbsolute s, (components s).map (·.map UInt8.toNat))

section
variable {α β γ : Type*} [LinearOrder α] [LinearOrder β] [LinearOrder γ]

theorem threeWay_of_lt {a b : α} (h : a < b) : threeWay a b = -1 := if_pos h

theorem threeWay_of_gt {a b : α} (h : b < a) : threeWay a b = 1 := by
  rw [threeWay, if_neg h.not_gt, if_pos h]

theorem threeWay_self (a : α) : threeWay a a = 0 := by
  rw [threeWay, if_neg (lt_irrefl a), if_neg (lt_irrefl a)]

theorem threeWay_swap (a b : α) : threeWay b a = - threeWay a b := by
  obtain h | rfl | h := lt_trichotomy a b
  · rw [threeWay_of_lt h, threeWay_of_gt h]
    rfl
  · rw [threeWay_self]
    rfl
  · rw [threeWay_of_gt h, threeWay_of_lt h]

theorem threeWay_nonpos (a b : α) : threeWay a b ≤ 0 ↔ a ≤ b := by
  obtain h | rfl | h := lt_trichotomy a b
  · rw [threeWay_of_lt h]
    exact ⟨fun _ => h.le, fun _ => by decide⟩
  · rw [threeWay_self]
    exact ⟨fun _ => le_rfl, fun _ => le_rfl⟩
  · rw [threeWay_of_gt h]
    exact ⟨fun hle => absurd hle (by decide), fun hle => absurd h hle.not_gt⟩

theorem threeWay_eq_zero (a b : α) : threeWay a b = 0 ↔ a = b := by
  obtain h | rfl | h := lt_trichotomy a b
  · rw [threeWay_of_lt h]
    exact ⟨fun h0 => absurd h0 (by decide), fun heq => absurd heq h.ne⟩
  · exact ⟨fun _ => rfl, fun _ => threeWay_self a⟩
  · rw [threeWay_of_gt h]
    exact ⟨fun h0 => absurd h0 (by decide), fun heq => absurd heq h.ne'⟩

theorem threeWay_then {u v : γ} {a b : α} {l m : β} (hlt : u < v ↔ a < b ∨ a = b ∧ l < m)
    (hgt : v < u ↔ b < a ∨ b = a ∧ m < l) :
    threeWay u v = if threeWay a b ≠ 0 then threeWay a b else threeWay l m := by
  obtain h | rfl | h := lt_trichotomy a b
  · rw [threeWay_of_lt h, threeWay_of_lt (hlt.mpr (.inl h))]
    rfl
  · have hlt' : u < v ↔ l < m := hlt.trans (by simp)
    have hgt' : v < u ↔ m < l := hgt.trans (by simp)
    rw [threeWay_self, if_neg (not_not.mpr rfl), threeWay, threeWay]
    simp only [hlt', hgt']
  · rw [threeWay_of_gt h, threeWay_of_gt (hgt.mpr (.inl h))]
    rfl

theorem threeWay_nil_cons (a : α) (l : List α) : threeWay [] (a :: l) = -1 :=
  threeWay_of_lt (List.nil_lt_cons a l)

theorem threeWay_cons_nil (a : α) (l : List α) : threeWay (a :: l) [] = 1 :=
  threeWay_of_gt (List.nil_lt_cons a l)

theorem threeWay_cons (a b : α) (l m : List α) :
    threeWay (a :: l) (b :: m) = if threeWay a b ≠ 0 then threeWay a b else threeWay l m :=
  threeWay_then List.cons_lt_cons_iff List.cons_lt_cons_iff

theorem threeWay_toLex (a b : α) (l m : β) :
    threeWay (toLex (a, l)) (toLex (b, m)) =
      if threeWay a b ≠ 0 then threeWay a b else threeWay l m :=
  threeWay_then Prod.Lex.lt_iff Prod.Lex.lt_iff

end

theorem memcmp_zero (a b : Str) : memcmp 0 a b = 0 := by
  rw [memcmp]
  exact fun _ _ _ _ _ h => absurd h (Nat.zero_ne_add_one _)

theorem threeWay_names (r s : Str) : ∀ x y : Str,
    threeWay (x.map UInt8.toNat) (y.map UInt8.toNat) =
      if memcmp (min x.length y.length) (x ++ r) (y ++ s) ≠ 0 then
        (memcmp (min x.length y.length) (x ++ r) (y ++ s)).sign
      else if y.length < x.length then 1 else if x.length < y.length then -1 else 0
  | [], [] => by
    rw [List.length_nil, Nat.min_self, memcmp_zero]
    exact threeWay_self _
  | [], b :: y => by
    rw [List.length_nil, Nat.zero_min, memcmp_zero, if_neg (not_not.mpr rfl),
      if_neg (Nat.not_lt_zero _), if_pos (List.length_pos_of_ne_nil (List.cons_ne_nil b y))]
    exact threeWay_nil_cons _ _
  | a :: x, [] => by
    rw [List.length_nil, Nat.min_zero, memcmp_zero, if_neg (not_not.mpr rfl),
      if_pos (List.length_pos_of_ne_nil (List.cons_ne_nil a x))]
    exact threeWay_cons_nil _ _
  | a :: x, b :: y => by
    have ih := threeWay_names r s x y
    rw [List.map_cons, List.map_cons, threeWay_cons, List.length_cons, List.length_cons,
      Nat.succ_min_succ, List.cons_append, List.cons_append, memcmp]
    by_cases hab : a = b
    · rw [if_pos hab, hab, threeWay_self, if_neg (fun h => h rfl), ih]
      simp only [Nat.succ_lt_succ_iff]
    · have hne : (a.toNat : Int) - b.toNat ≠ 0 := fun h0 => hab (UInt8.toNat_inj.mp (by omega))
      rw [if_neg hab, if_pos hne]
      obtain h | h : a.toNat < b.toNat ∨ b.toNat < a.toNat := by omega
      · rw [threeWay_of_lt h, if_pos (by decide), Int.sign_eq_neg_one_of_neg (by omega)]
      · rw [threeWay_of_gt h, if_pos (by decide), Int.sign_eq_one_of_pos (by omega)]

theorem pathCompareLoop_eq (fuel : Nat) : ∀ {a b : Str}, a.length < fuel →
    pathCompareLoop fuel a b = threeWay ((components a).map (·.map UInt8.toNat))
      ((components b).map (·.map UInt8.toNat)) := by
  induction fuel with
  | zero => exact fun h => absurd h (Nat.not_lt_zero _)
  | succ fuel ih =>
    intro a b hfuel
    rw [pathCompareLoop]
    obtain ⟨ha, hca⟩ | ⟨x, r, ha⟩ := next_cases a
    · obtain ⟨hb, hcb⟩ | ⟨y, t, hb⟩ := next_cases b
      · rw [ha, hb, if_pos ⟨rfl, rfl⟩, hca, hcb, threeWay_self]
      · rw [ha, if_neg fun h => hb.skip_ne h.2, if_pos rfl, hca, hb.components]
        exact (threeWay_nil_cons _ _).symm
    · rw [if_neg fun h => ha.skip_ne h.1, if_neg ha.skip_ne, ha.components]
      obtain ⟨hb, hcb⟩ | ⟨y, t, hb⟩ := next_cases b
      · rw [hb, if_pos rfl, hcb]
        exact (threeWay_cons_nil _ _).symm
      · rw [if_neg hb.skip_ne, hb.components, ha.skip, hb.skip, ha.nameLength, hb.nameLength]
        dsimp only
        have hlt := ha.length_lt
        rw [List.drop_left, List.drop_left, List.map_cons, List.map_cons, threeWay_cons,
          threeWay_names r t, ih (by omega)]
        by_cases hd : memcmp (min x.length y.length) (x ++ r) (y ++ t) ≠ 0
        · rw [if_pos hd, if_pos hd, if_pos fun h => hd (Int.sign_eq_zero_iff_zero.mp h)]
        · rw [if_neg hd, if_neg hd]

theorem pathCompare_eq (a b : Str) : pathCompare a b = threeWay (pathKey a) (pathKey b) := by
  rw [pathCompare, pathKey, pathKey, threeWay_toLex,
    ← pathCompareLoop_eq (a.length + 1) (Nat.lt_succ_self _)]
  cases isAbsolute a <;> cases isAbsolute b <;> rfl

theorem pathKey_inj {a b : Str} :
    pathKey a = pathKey b ↔ isAbsolute a = isAbsolute b ∧ components a = components b := by
  have hinj : Function.Injective UInt8.toNat := fun _ _ => UInt8.toNat_inj.mp
  rw [pathKey, pathKey, EmbeddingLike.apply_eq_iff_eq, Prod.mk.injEq,
    (List.map_injective_iff.mpr (List.map_injective_iff.mpr hinj)).eq_iff]

theorem pathHashLoop_eq (fuel : Nat) : ∀ {q : Str}, q.length < fuel → skipSlashes q = q →
    pathHashLoop fuel q = (components q).intersperse [charSlash] := by
  induction fuel with
  | zero => exact fun h => absurd h (Nat.not_lt_zero _)
  | succ fuel ih =>
    intro q hfuel hq
    rw [pathHashLoop]
    obtain ⟨h, hc⟩ | ⟨x, r, h⟩ := next_cases q
    · have hnil : q = [] := hq.symm.trans h
      rw [hnil]
      rfl
    · have hx := List.length_pos_iff.mpr h.ne
      have hlt := h.length_lt
      have hlen : nameLength q = x.length := by rw [← hq, h.skip, h.nameLength]
      have hdrop : q.drop x.length = r := by rw [← hq, h.skip, List.drop_left]
      have htake : q.take x.length = x := by rw [← hq, h.skip, List.take_left]
      rw [h.components, hlen, if_neg (by omega), hdrop, htake]
      dsimp only
      obtain ⟨hr, hcr⟩ | ⟨y, t, hr⟩ := next_cases r
      · rw [if_pos hr, hcr]
        rfl
      · have hskip := (skipSlashes_suffix r).length_le
        have hslash : r.take 1 = [charSlash] := by
          cases r with
          | nil => exact absurd rfl hr.skip_ne
          | cons c r => rw [h.behind c rfl]; rfl
        rw [if_neg hr.skip_ne, hslash, ih (by omega) (skipSlashes_skipSlashes r),
          components_skipSlashes, hr.components]
        rfl

theorem isAbsolute_cons (c : UInt8) (p : Str) : isAbsolute (c :: p) = decide (c = charSlash) := rfl

theorem pathHashPieces_eq (p : Str) :
    pathHashPieces p = (if isAbsolute p then [[charSlash]] else []) ++
      (components p).intersperse [charSlash] := by
  have hle := (skipSlashes_suffix p).length_le
  have hloop : pathHashLoop (p.length + 1) (skipSlashes p) =
      (components p).intersperse [charSlash] := by
    rw [pathHashLoop_eq _ (by omega) (skipSlashes_skipSlashes p), components_skipSlashes]
  rw [pathHashPieces, hloop]
  cases p with
  | nil => rfl
  | cons c p =>
    rw [isAbsolute_cons]
    by_cases hc : c = charSlash
    · have hlt : (skipSlashes (c :: p)).length < (c :: p).length := by
        rw [skipSlashes, List.dropWhile_cons_of_pos (by simpa using hc), List.length_cons]
        exact Nat.lt_succ_of_le (skipSlashes_suffix p).length_le
      rw [if_pos hlt, if_pos (decide_eq_true hc), hc]
      rfl
    · have heq : skipSlashes (c :: p) = c :: p := by
        rw [skipSlashes, List.dropWhile_cons_of_neg (by simpa using hc)]
      rw [heq, if_neg (Nat.lt_irrefl _), if_neg (by simpa using hc), List.nil_append]

def normal (p : Str) : Str := (pathHashPieces p).flatten

theorem normal_eq (p : Str) : normal p =
    (if isAbsolute p then [charSlash] else []) ++ [charSlash].intercalate (components p) := by
  rw [normal, pathHashPieces_eq, List.flatten_append]
  cases isAbsolute p <;> rfl

theorem components_mem (n : Nat) : ∀ s : Str, s.length = n →
    ∀ x ∈ components s, x ≠ [] ∧ charSlash ∉ x := by
  induction n using Nat.strong_induction_on with
  | _ n ih =>
    intro s hs x hx
    obtain ⟨-, hc⟩ | ⟨y, r, h⟩ := next_cases s
    · rw [hc] at hx
      exact absurd hx List.not_mem_nil
    · rw [h.components] at hx
      obtain rfl | hx := List.mem_cons.mp hx
      · exact ⟨h.ne, h.noSlash⟩
      · exact ih r.length (hs ▸ h.length_lt) r rfl x hx

theorem components_intercalate {cs : List Str} (h : ∀ x ∈ cs, x ≠ [] ∧ charSlash ∉ x) :
    components ([charSlash].intercalate cs) = cs ∧
      isAbsolute ([charSlash].intercalate cs) = false := by
  by_cases hcs : cs = []
  · rw [hcs]
    exact ⟨rfl, rfl⟩
  · constructor
    · rw [components, List.splitOn_intercalate _ (fun x hx => (h x hx).2) hcs]
      exact List.filter_eq_self.mpr fun x hx => by simpa using (h x hx).1
    · obtain ⟨x, cs, rfl⟩ := List.exists_cons_of_ne_nil hcs
      obtain ⟨hx, hslash⟩ := h x List.mem_cons_self
      obtain ⟨c, x, rfl⟩ := List.exists_cons_of_ne_nil hx
      have hc : c ≠ charSlash := fun hc => hslash (hc ▸ List.mem_cons_self)
      cases cs with
      | nil =>
        rw [List.intercalate_singleton, isAbsolute_cons]
        simpa using hc
      | cons y cs =>
        rw [List.intercalate_cons_cons, List.cons_append, List.cons_append, isAbsolute_cons]
        simpa using hc

theorem normal_reads (p : Str) :
    isAbsolute (normal p) = isAbsolute p ∧ components (normal p) = components p := by
  obtain ⟨hcomp, habs⟩ := components_intercalate (components_mem p.length p rfl)
  rw [normal_eq]
  cases h : isAbsolute p with
  | false => exact ⟨habs, hcomp⟩
  | true =>
    refine ⟨rfl, ?_⟩
    rw [if_pos rfl, List.singleton_append, components_slash, hcomp]

theorem normal_inj {a b : Str} :
    normal a = normal b ↔ isAbsolute a = isAbsolute b ∧ components a = components b := by
  constructor
  · intro h
    obtain ⟨ha, hca⟩ := normal_reads a
    obtain ⟨hb, hcb⟩ := normal_reads b
    rw [← ha, ← hb, ← hca, ← hcb, h]
    exact ⟨rfl, rfl⟩
  · rintro ⟨habs, hcomp⟩
    rw [normal_eq, normal_eq, habs, hcomp]

theorem pathStartswith_some {p q r : Str} (h : pathStartswith p q = some r) :
    isAbsolute p = isAbsolute q ∧ components p = components q ++ components r ∧ r <:+ p ∧
      skipSlashes r = r := by
  rw [pathStartswith] at h
  split_ifs at h with habs
  exact ⟨not_not.mp habs, (pathStartswithLoop_spec _ (Nat.lt_succ_self _)).1 r h⟩

theorem pathStartswith_isSome (p q : Str) : (pathStartswith p q).isSome = true ↔
    isAbsolute p = isAbsolute q ∧ components q <+: components p := by
  constructor
  · intro h
    obtain ⟨r, hr⟩ := Option.isSome_iff_exists.mp h
    obtain ⟨habs, hcomp, -⟩ := pathStartswith_some hr
    exact ⟨habs, hcomp ▸ List.prefix_append _ _⟩
  · rintro ⟨habs, hpre⟩
    rw [pathStartswith, if_neg (not_not.mpr habs), Option.isSome_iff_ne_none]
    exact fun h => (pathStartswithLoop_spec _ (Nat.lt_succ_self _)).2 h hpre

/-- The order is total and transitive, equal are the paths with the same components, they are hashed
alike, and what begins with a path has its components first. -/
theorem path_agree (a b c r : Str) :
    (pathCompare b a = - pathCompare a b ∧ (pathCompare a b ≤ 0 ∨ pathCompare b a ≤ 0) ∧
      (pathCompare a b ≤ 0 → pathCompare b c ≤ 0 → pathCompare a c ≤ 0)) ∧
    (pathCompare a b = 0 ↔ isAbsolute a = isAbsolute b ∧ components a = components b) ∧
    ((pathHashPieces a).flatten = (pathHashPieces b).flatten ↔
      isAbsolute a = isAbsolute b ∧ components a = components b) ∧
    (isAbsolute a = isAbsolute b ∧ components a = components b →
      ∀ z state, pathHashFunc z a state = pathHashFunc z b state) ∧
    ((pathStartswith a b).isSome = true ↔
      isAbsolute a = isAbsolute b ∧ components b <+: components a) ∧
    (pathStartswith a b = some r → components a = components b ++ components r ∧ r <:+ a) := by
  simp only [pathCompare_eq, threeWay_nonpos, threeWay_eq_zero, pathKey_inj]
  refine ⟨⟨threeWay_swap _ _, le_total _ _, le_trans⟩, trivial, normal_inj, ?_,
    pathStartswith_isSome a b, fun h => ?_⟩
  · rintro ⟨habs, hcomp⟩ z state
    rw [pathHashFunc, pathHashFunc, pathHashPieces_eq, pathHashPieces_eq, habs, hcomp]
  · obtain ⟨-, hcomp, hsuf, -⟩ := pathStartswith_some h
    exact ⟨hcomp, hsuf⟩

end Basu.Path
