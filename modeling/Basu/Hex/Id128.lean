import Basu.Hex.Unhexmem
import Basu.Address.Parse

/-! Ids as text (`sd-id128.c`): which texts are read, and what the loop looks at. A character is
looked at only if the memory has it; the result is `none` otherwise. -/

namespace Basu.Hex
open Lib

/-! ## `sd-id128.c` -/

structure Id128 where
  bytes : Bytes
  size : bytes.length = 16

def sdId128ToString (id : Id128) : Bytes := id.bytes.flatMap hexPair ++ [0]

def fromStringLoop (mem : Bytes) : Nat → Nat → Bool → Bytes →
    Option (Except Errno (Nat × Bool × Bytes))
  | 0, _, _, _ => none
  | fuel + 1, i, isGuid, t =>
    if t.length < 16 then
      match mem[i]? with
      | none => none
      | some c =>
        if c = charDash then
          if i = 8 then fromStringLoop mem fuel (i + 1) true t
          else if i = 13 ∨ i = 18 ∨ i = 23 then
            if isGuid = false then some (.error .einval)
            else fromStringLoop mem fuel (i + 1) isGuid t
          else some (.error .einval)
        else
          match unhexchar c with
          | none => some (.error .einval)
          | some a =>
            match mem[i + 1]? with
            | none => none
            | some d =>
              match unhexchar d with
              | none => some (.error .einval)
              | some b => fromStringLoop mem fuel (i + 2) isGuid (t ++ [a <<< 4 ||| b])
    else some (.ok (i, isGuid, t))

def sdId128FromString (mem : Bytes) (ret : Option Bytes) :
    Option (Except Errno Unit × Option Bytes) :=
  match fromStringLoop mem (mem.length + 1) 0 false [] with
  | none => none
  | some (.error r) => some (.error r, ret)
  | some (.ok (i, isGuid, t)) =>
    if i ≠ (if isGuid then 36 else 32) then some (.error .einval, ret)
    else
      match mem[i]? with
      | none => none
      | some c => if c ≠ 0 then some (.error .einval, ret) else some (.ok (), ret.map fun _ => t)

def HexOf (n : Nat) (s : Bytes) : Prop := s.length = n ∧ ∀ c ∈ s, (unhexchar c).isSome

def DashedId (s : Bytes) : Prop := ∃ a b c d e, HexOf 8 a ∧ HexOf 4 b ∧ HexOf 4 c ∧ HexOf 4 d ∧
  HexOf 12 e ∧ s = a ++ 45 :: (b ++ 45 :: (c ++ 45 :: (d ++ 45 :: e)))

def IdText (s : Bytes) : Prop := HexOf 32 s ∨ DashedId s

theorem HexOf.nil : HexOf 0 [] := ⟨rfl, nofun⟩

theorem hexOf_zero {s : Bytes} (h : HexOf 0 s) : s = [] := List.length_eq_zero_iff.mp h.1

theorem HexOf.cons {n : Nat} {s : Bytes} {c a : UInt8} (hc : unhexchar c = some a)
    (h : HexOf n s) : HexOf (n + 1) (c :: s) := by
  refine ⟨by rw [List.length_cons, h.1], fun d hd => ?_⟩
  obtain rfl | hd := List.mem_cons.mp hd
  · rw [hc]; rfl
  · exact h.2 d hd

theorem HexOf.uncons {n : Nat} {s : Bytes} (h : HexOf (n + 1) s) :
    ∃ c a r, s = c :: r ∧ unhexchar c = some a ∧ HexOf n r := by
  obtain ⟨hlen, hall⟩ := h
  cases s with
  | nil => cases hlen
  | cons c r =>
    obtain ⟨a, ha⟩ := Option.isSome_iff_exists.mp (hall c List.mem_cons_self)
    exact ⟨c, a, r, rfl, ha, Nat.succ.inj hlen, fun d hd => hall d (List.mem_cons_of_mem _ hd)⟩

theorem digits_append (s r : Bytes) : digits (s ++ r) = digits s ++ digits r :=
  List.filterMap_append

theorem length_digits {n : Nat} {s : Bytes} (h : HexOf n s) : (digits s).length = n := by
  induction n generalizing s with
  | zero => rw [hexOf_zero h]; rfl
  | succ n ih =>
    obtain ⟨c, a, r, rfl, ha, hr⟩ := h.uncons
    rw [digits, List.filterMap_cons_some ha, List.length_cons]
    exact congrArg _ (ih hr)

theorem bytesOf_append : ∀ (ds es : List UInt8), 2 ∣ ds.length →
    bytesOf (ds ++ es) = bytesOf ds ++ bytesOf es
  | [], _, _ => rfl
  | [_], _, h => by
    rw [List.length_singleton] at h
    omega
  | a :: b :: ds, es, h => by
    have heven : 2 ∣ ds.length := by
      simp only [List.length_cons] at h
      omega
    rw [List.cons_append, List.cons_append, bytesOf, bytesOf, bytesOf_append ds es heven,
      List.cons_append]

theorem value_append {k : Nat} {s r : Bytes} (h : HexOf (2 * k) s) :
    bytesOf (digits (s ++ r)) = bytesOf (digits s) ++ bytesOf (digits r) := by
  rw [digits_append, bytesOf_append _ _ ⟨k, length_digits h⟩]

theorem value_dash (s : Bytes) : bytesOf (digits (45 :: s)) = bytesOf (digits s) := rfl

theorem value_pair {c d a b : UInt8} (s : Bytes) (hc : unhexchar c = some a)
    (hd : unhexchar d = some b) :
    bytesOf (digits (c :: d :: s)) = (a <<< 4 ||| b) :: bytesOf (digits s) := by
  rw [digits, List.filterMap_cons_some hc, List.filterMap_cons_some hd, bytesOf,
    shiftLeft_or (unhexchar_lt hc) (unhexchar_lt hd)]
  rfl

/-! ## The loop on a text -/

section
variable {n i i' : Nat} {g g' : Bool} {s rest bs : Bytes}

theorem id128Loop_run (h : id128Loop n i g s = some (i', g', bs, rest)) :
    ∃ k run r, s = run ++ r ∧ HexOf (2 * k) run ∧ (
      n = k ∧ i' = i + 2 * k ∧ g' = g ∧ bs = bytesOf (digits run) ∧ rest = r ∨
      ∃ m r' bs', n = k + m ∧ r = 45 :: r' ∧ bs = bytesOf (digits run) ++ bs' ∧
        (i + 2 * k = 8 ∨ (i + 2 * k = 13 ∨ i + 2 * k = 18 ∨ i + 2 * k = 23) ∧ g = true) ∧
        id128Loop m (i + 2 * k + 1) true r' = some (i', g', bs', rest)) := by
  induction n generalizing i s bs with
  | zero =>
    rw [id128Loop] at h
    cases h
    exact ⟨0, [], _, rfl, .nil, .inl ⟨rfl, rfl, rfl, rfl, rfl⟩⟩
  | succ n ih =>
    cases s with
    | nil => cases h
    | cons c s =>
      unfold id128Loop at h
      split_ifs at h with hdash hi hi
      · exact ⟨0, [], c :: s, rfl, .nil, .inr ⟨n + 1, s, bs, (Nat.zero_add _).symm,
          congrArg (· :: s) hdash, rfl, .inl hi, h⟩⟩
      · exact ⟨0, [], c :: s, rfl, .nil, .inr ⟨n + 1, s, bs, (Nat.zero_add _).symm,
          congrArg (· :: s) hdash, rfl, .inr hi, hi.2 ▸ h⟩⟩
      · cases s with
        | nil => cases h
        | cons d s =>
          dsimp only at h
          cases hc : unhexchar c with
          | none => rw [hc] at h; cases h
          | some a =>
            cases hd : unhexchar d with
            | none => rw [hc, hd] at h; cases h
            | some b =>
              rw [hc, hd] at h
              obtain ⟨⟨j, g₁, bs₁, rest₁⟩, hrec, heq⟩ := Option.map_eq_some_iff.mp h
              cases heq
              obtain ⟨k, run, r, rfl, hrun, hcase⟩ := ih hrec
              refine ⟨k + 1, c :: d :: run, r, rfl, (hrun.cons hd).cons hc, ?_⟩
              rw [value_pair run hc hd, show i + 2 * (k + 1) = i + 2 + 2 * k by omega]
              obtain ⟨rfl, rfl, rfl, rfl, rfl⟩ | ⟨m, r', bs', rfl, rfl, rfl, hdash'⟩ := hcase
              · exact .inl ⟨rfl, rfl, rfl, rfl, rfl⟩
              · exact .inr ⟨m, r', bs', by omega, rfl, rfl, hdash'⟩

theorem id128Loop_pair {c d a b : UInt8} (hc : unhexchar c = some a) (hd : unhexchar d = some b) :
    id128Loop (n + 1) i g (c :: d :: s) = (id128Loop n (i + 2) g s).map fun r =>
      (r.1, r.2.1, (a <<< 4 ||| b) :: r.2.2.1, r.2.2.2) := by
  have hdash : c ≠ charDash := by
    rintro rfl
    cases hc
  rw [id128Loop, if_neg hdash]
  simp only [hc, hd]

theorem id128Loop_pairs {k : Nat} (rest : Bytes) (hrun : HexOf (2 * k) s) :
    id128Loop (k + n) i g (s ++ rest) =
      (id128Loop n (i + 2 * k) g rest).map fun r =>
        (r.1, r.2.1, bytesOf (digits s) ++ r.2.2.1, r.2.2.2) := by
  induction k generalizing i s with
  | zero =>
    rw [hexOf_zero hrun, Nat.zero_add]
    exact (Option.map_id_fun' ▸ rfl)
  | succ k ih =>
    obtain ⟨c, a, s, rfl, hc, hrun⟩ := hrun.uncons
    obtain ⟨d, b, s, rfl, hd, hrun⟩ := hrun.uncons
    rw [show k + 1 + n = (k + n) + 1 by omega, List.cons_append, List.cons_append,
      id128Loop_pair hc hd, ih hrun, value_pair s hc hd, Option.map_map,
      show i + 2 + 2 * k = i + 2 * (k + 1) by omega]
    rfl

theorem id128Loop_dash (h : i = 8 ∨ (i = 13 ∨ i = 18 ∨ i = 23) ∧ g = true) :
    id128Loop (n + 1) i g (45 :: s) = id128Loop (n + 1) (i + 1) true s := by
  rw [id128Loop.eq_def]
  dsimp only
  have hdash : (45 : UInt8) = charDash := rfl
  rw [if_pos hdash]
  obtain rfl | ⟨hi, rfl⟩ := h
  · rw [if_pos rfl]
  · rw [if_neg (by omega), if_pos ⟨hi, rfl⟩]

end

/-! ## Which texts are read -/

theorem loop_of_text {s : Bytes} (h : IdText s) :
    ∃ i g, id128Loop 16 0 false s = some (i, g, bytesOf (digits s), []) ∧
      i = if g then 36 else 32 := by
  obtain hplain | ⟨a, b, c, d, e, ha, hb, hc, hd, he, rfl⟩ := h
  · have hloop := id128Loop_pairs (k := 16) (n := 0) (i := 0) (g := false) [] hplain
    rw [List.append_nil, id128Loop, Option.map_some, List.append_nil] at hloop
    exact ⟨32, false, hloop, rfl⟩
  · have hloop := id128Loop_pairs (k := 6) (n := 0) (i := 24) (g := true) [] he
    rw [List.append_nil, id128Loop, Option.map_some, List.append_nil] at hloop
    refine ⟨36, true, ?_, rfl⟩
    rw [id128Loop_pairs (k := 4) (n := 12) _ ha, id128Loop_dash (.inl rfl),
      id128Loop_pairs (k := 2) (n := 10) _ hb, id128Loop_dash (.inr (by simp)),
      id128Loop_pairs (k := 2) (n := 8) _ hc, id128Loop_dash (.inr (by simp)),
      id128Loop_pairs (k := 2) (n := 6) _ hd, id128Loop_dash (.inr (by simp)), hloop,
      value_append (k := 4) ha, value_dash, value_append (k := 2) hb, value_dash,
      value_append (k := 2) hc, value_dash, value_append (k := 2) hd, value_dash]
    rfl

theorem id128Loop_next {n i i' : Nat} {g : Bool} {s bs : Bytes}
    (h : id128Loop n i true s = some (i', g, bs, [])) (hi : i' = if g then 36 else 32)
    (hn : i + 2 * n ≠ 36) :
    ∃ k m run r bs', n = k + m ∧ HexOf (2 * k) run ∧ s = run ++ 45 :: r ∧
      bs = bytesOf (digits run) ++ bs' ∧
      (i + 2 * k = 8 ∨ i + 2 * k = 13 ∨ i + 2 * k = 18 ∨ i + 2 * k = 23) ∧
      id128Loop m (i + 2 * k + 1) true r = some (i', g, bs', []) := by
  obtain ⟨k, run, r, rfl, hrun, ⟨rfl, rfl, rfl, -, -⟩ | ⟨m, r, bs, hm, rfl, rfl, hpos, h⟩⟩ :=
    id128Loop_run h
  · exact absurd hi hn
  · refine ⟨k, m, run, r, bs, hm, hrun, rfl, rfl, ?_, h⟩
    obtain hpos | hpos := hpos
    · exact .inl hpos
    · exact .inr hpos.1

theorem text_of_loop {i : Nat} {g : Bool} {s bs : Bytes}
    (h : id128Loop 16 0 false s = some (i, g, bs, [])) (hi : i = if g then 36 else 32) :
    IdText s ∧ bs = bytesOf (digits s) := by
  obtain ⟨k, a, r, rfl, ha, ⟨rfl, rfl, rfl, rfl, rfl⟩ | ⟨m, r, bs, hm, rfl, rfl, hpos, h⟩⟩ :=
    id128Loop_run h
  · rw [List.append_nil]
    exact ⟨.inl ha, rfl⟩
  obtain rfl : k = 4 := by grind
  obtain rfl : m = 12 := by omega
  obtain ⟨k, m, b, r, bs, hm, hb, rfl, rfl, hpos, h⟩ := id128Loop_next h hi (by omega)
  obtain ⟨rfl, rfl⟩ | ⟨rfl, rfl⟩ : k = 2 ∧ m = 10 ∨ k = 7 ∧ m = 5 := by omega
  · obtain ⟨k, m, c, r, bs, hm, hc, rfl, rfl, hpos, h⟩ := id128Loop_next h hi (by omega)
    obtain ⟨rfl, rfl⟩ : k = 2 ∧ m = 8 := by omega
    obtain ⟨k, m, d, r, bs, hm, hd, rfl, rfl, hpos, h⟩ := id128Loop_next h hi (by omega)
    obtain ⟨rfl, rfl⟩ : k = 2 ∧ m = 6 := by omega
    obtain ⟨k, e, r, rfl, he, ⟨rfl, rfl, rfl, rfl, rfl⟩ | ⟨m, r, bs, hm, rfl, rfl, hpos, h⟩⟩ :=
      id128Loop_run h
    · rw [List.append_nil, value_append (k := 4) ha, value_dash, value_append (k := 2) hb,
        value_dash, value_append (k := 2) hc, value_dash, value_append (k := 2) hd, value_dash]
      exact ⟨.inr ⟨a, b, c, d, e, ha, hb, hc, hd, he, rfl⟩, rfl⟩
    · omega
  · -- A dash at 23 that skips the two before it: the position ends at 34.
    obtain ⟨k, m, c, r, bs, hm, hc, rfl, rfl, hpos, h⟩ := id128Loop_next h hi (by omega)
    omega

/-! ## The loop on the memory -/

theorem fromStringLoop_eq (mem : Bytes) (fuel : Nat) :
    ∀ {n i : Nat} {g : Bool} {t s : Bytes}, s.length < fuel → t.length + n = 16 →
      Ahead mem i (s ++ [0]) → (0 : UInt8) ∉ s →
      (id128Loop n i g s = none → fromStringLoop mem fuel i g t = some (.error .einval)) ∧
        ∀ i' g' bs rest, id128Loop n i g s = some (i', g', bs, rest) →
          fromStringLoop mem fuel i g t = some (.ok (i', g', t ++ bs)) ∧
            Ahead mem i' (rest ++ [0]) ∧ (0 : UInt8) ∉ rest := by
  induction fuel with
  | zero => exact fun h => absurd h (Nat.not_lt_zero _)
  | succ fuel ih =>
    intro n i g t s hfuel ht hs h0
    cases n with
    | zero =>
      rw [id128Loop]
      refine ⟨nofun, fun i' g' bs rest h => ?_⟩
      cases h
      rw [fromStringLoop, if_neg (by omega), List.append_nil]
      exact ⟨rfl, hs, h0⟩
    | succ n =>
      rw [fromStringLoop, if_pos (by omega)]
      cases s with
      | nil => exact ⟨fun _ => by rw [hs.head]; rfl, nofun⟩
      | cons c s =>
        have h0' : (0 : UInt8) ∉ s := fun h => h0 (List.mem_cons_of_mem _ h)
        rw [List.length_cons] at hfuel
        rw [hs.head, id128Loop.eq_def]
        dsimp only
        by_cases hc : c = charDash
        · rw [if_pos hc, if_pos hc]
          by_cases hi : i = 8
          · rw [if_pos hi, if_pos hi]
            exact ih (by omega) ht hs.tail h0'
          · rw [if_neg hi, if_neg hi]
            by_cases hi' : i = 13 ∨ i = 18 ∨ i = 23
            · cases g with
              | false => simp
              | true =>
                rw [if_pos hi', if_neg (show ¬ true = false by decide), if_pos ⟨hi', rfl⟩]
                exact ih (by omega) ht hs.tail h0'
            · rw [if_neg hi', if_neg fun h => hi' h.1]
              exact ⟨fun _ => rfl, nofun⟩
        · rw [if_neg hc, if_neg hc]
          cases s with
          | nil =>
            refine ⟨fun _ => ?_, nofun⟩
            cases ha : unhexchar c with
            | none => rfl
            | some a => rw [hs.tail.head]; rfl
          | cons d s =>
            rw [hs.tail.head]
            cases ha : unhexchar c with
            | none => exact ⟨fun _ => rfl, nofun⟩
            | some a =>
              cases hb : unhexchar d with
              | none =>
                dsimp only
                rw [hb]
                exact ⟨fun _ => rfl, nofun⟩
              | some b =>
                dsimp only
                rw [hb]
                dsimp only
                rw [List.length_cons] at hfuel
                obtain ⟨hnone, hsome⟩ := ih (n := n) (i := i + 2) (g := g)
                  (t := t ++ [a <<< 4 ||| b]) (s := s) (by omega)
                  (by rw [List.length_append, List.length_singleton]; omega) hs.tail.tail
                  fun h => h0' (List.mem_cons_of_mem _ h)
                refine ⟨fun h => hnone (Option.map_eq_none_iff.mp h), fun i' g' bs rest h => ?_⟩
                obtain ⟨⟨j, g₁, bs₁, rest₁⟩, hrec, heq⟩ := Option.map_eq_some_iff.mp h
                cases heq
                have hrun := hsome _ _ _ _ hrec
                rw [List.append_assoc] at hrun
                exact hrun

/-! ## Reading and writing ids -/

/-- Whatever stands behind the end of the string: its sixteen bytes if it has one of the forms, and
an error that leaves `*ret` alone if not. -/
def Parses (s : Bytes) : Prop := ∀ (rest : Bytes) (ret : Option Bytes),
  (IdText s → (bytesOf (digits s)).length = 16 ∧
    sdId128FromString (s ++ 0 :: rest) ret = some (.ok (), ret.map fun _ => bytesOf (digits s))) ∧
  (¬ IdText s → sdId128FromString (s ++ 0 :: rest) ret = some (.error .einval, ret))

theorem length_bytesOf : ∀ ds : List UInt8, (bytesOf ds).length = ds.length / 2
  | [] => rfl
  | [_] => by rw [List.length_singleton]; rfl
  | a :: b :: ds => by
    rw [bytesOf, List.length_cons, length_bytesOf ds, List.length_cons, List.length_cons]
    omega

theorem length_value {s : Bytes} (h : IdText s) : (bytesOf (digits s)).length = 16 := by
  rw [length_bytesOf]
  obtain hplain | ⟨a, b, c, d, e, ha, hb, hc, hd, he, rfl⟩ := h
  · rw [length_digits hplain]
  · have hdash (r : Bytes) : digits (45 :: r) = digits r := rfl
    simp only [digits_append, hdash, List.length_append, length_digits ha, length_digits hb,
      length_digits hc, length_digits hd, length_digits he]

theorem parses {s : Bytes} (h0 : (0 : UInt8) ∉ s) : Parses s := by
  intro rest ret
  obtain ⟨hnone, hsome⟩ := fromStringLoop_eq (s ++ 0 :: rest) ((s ++ 0 :: rest).length + 1)
    (n := 16) (i := 0) (g := false) (t := []) (s := s) (by rw [List.length_append]; omega) rfl
    ⟨rest, by rw [List.drop_zero, List.append_assoc]; rfl⟩ h0
  constructor
  · intro htext
    obtain ⟨i, g, hloop, hi⟩ := loop_of_text htext
    obtain ⟨hrun, hahead, -⟩ := hsome _ _ _ _ hloop
    refine ⟨length_value htext, ?_⟩
    rw [sdId128FromString, hrun]
    dsimp only
    rw [if_neg (not_not.mpr hi), Ahead.head hahead]
    rfl
  · intro htext
    rw [sdId128FromString]
    cases hloop : id128Loop 16 0 false s with
    | none => rw [hnone hloop]
    | some r =>
      obtain ⟨i, g, bs, r⟩ := r
      obtain ⟨hrun, hahead, hr⟩ := hsome _ _ _ _ hloop
      rw [hrun]
      dsimp only
      by_cases hi : i = if g = true then 36 else 32
      · cases r with
        | nil => exact absurd (text_of_loop hloop hi).1 htext
        | cons c r =>
          rw [if_neg (not_not.mpr hi), hahead.head]
          dsimp only
          have hc : c ≠ 0 := by
            rintro rfl
            exact hr List.mem_cons_self
          rw [if_pos hc]
      · rw [if_pos hi]

theorem digits_hexPair (x : Bytes) : bytesOf (digits (x.flatMap hexPair)) = x := by
  have h := (unhexmem_eq_some (x.flatMap hexPair) x).mp (unhexmem_hexPair x)
  exact h.2.symm

theorem readsBack (id : Id128) (rest : Bytes) (ret : Option Bytes) :
    sdId128FromString (sdId128ToString id ++ rest) ret =
      some (.ok (), ret.map fun _ => id.bytes) := by
  have hlen : (id.bytes.flatMap hexPair).length = 32 := by rw [length_hexText, id.size]
  have htext : IdText (id.bytes.flatMap hexPair) :=
    .inl ⟨hlen, fun c hc => isSome_of_mem_hexText hc⟩
  have hrun := ((parses (zero_notMem_hexText id.bytes) rest ret).1 htext).2
  rw [digits_hexPair] at hrun
  rw [sdId128ToString, List.append_assoc]
  exact hrun

/-- A string is read if it has one of the two forms and refused otherwise, and what is written for
an id is read as that id. -/
theorem sdId128FromString_parses {s : Bytes} (h0 : (0 : UInt8) ∉ s) :
    Parses s ∧ ∀ (id : Id128) (rest : Bytes) (ret : Option Bytes),
      sdId128FromString (sdId128ToString id ++ rest) ret =
        some (.ok (), ret.map fun _ => id.bytes) :=
  ⟨parses h0, readsBack⟩

/-- "00010203-0405-0607-0809-0a0b0c0d0e0f" -/
def countingText : Bytes :=
  [48, 48, 48, 49, 48, 50, 48, 51, 45, 48, 52, 48, 53, 45, 48, 54, 48, 55, 45, 48, 56, 48, 57, 45,
    48, 97, 48, 98, 48, 99, 48, 100, 48, 101, 48, 102]

theorem sdId128FromString_counting :
    sdId128FromString (countingText ++ [0]) (some []) =
      some (.ok (), some [0, 1, 2, 3, 4, 5, 6, 7, 8, 9, 10, 11, 12, 13, 14, 15]) := by
  have htext : IdText countingText := .inr ⟨countingText.take 8, (countingText.drop 9).take 4,
    (countingText.drop 14).take 4, (countingText.drop 19).take 4, countingText.drop 24,
    ⟨rfl, forall_mem_of_all rfl⟩, ⟨rfl, forall_mem_of_all rfl⟩, ⟨rfl, forall_mem_of_all rfl⟩,
    ⟨rfl, forall_mem_of_all rfl⟩, ⟨rfl, forall_mem_of_all rfl⟩, rfl⟩
  exact (((sdId128FromString_parses (by decide)).1 [] (some [])).1 htext).2

end Basu.Hex
