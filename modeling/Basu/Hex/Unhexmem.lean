import Basu.Socket.Auth

/-! Texts of hexadecimal digits (`hexdecoct.c`): reading them out of a buffer that nothing ends but
its length. A byte is looked at only if the buffer has it; the result is `none` otherwise.
Allocations succeed. -/

namespace Basu.Hex
open Lib

/-! ## `hexdecoct.c` -/

def hexmem (p : Bytes) : Bytes := p.flatMap hexPair ++ [0]

def skipBlanks (mem : Bytes) : Nat → Nat → Option (Nat × Nat)
  | 0, p => some (0, p)
  | l + 1, p =>
    match mem[p]? with
    | none => none
    | some c => if isBlank c then skipBlanks mem l (p + 1) else some (l + 1, p)

def unhexNext (mem : Bytes) (l p : Nat) : Option (Except Errno UInt8 × Nat × Nat) :=
  match skipBlanks mem l p with
  | none => none
  | some (0, p) => some (.error .epipe, 0, p)
  | some (l + 1, p) =>
    match mem[p]? with
    | none => none
    | some c =>
      match unhexchar c with
      | none => some (.error .einval, l + 1, p)
      | some r => (skipBlanks mem l (p + 1)).map fun (l, p) => (.ok r, l, p)

/-- The loop of `unhexmem`; every turn passes two characters. -/
def unhexLoop (mem : Bytes) : Nat → Nat → Nat → Bytes → Option (Except Errno Bytes)
  | 0, _, _, _ => none
  | fuel + 1, l, p, buf =>
    match unhexNext mem l p with
    | none => none
    | some (.error .epipe, _, _) => some (.ok buf)
    | some (.error r, _, _) => some (.error r)
    | some (.ok a, l, p) =>
      match unhexNext mem l p with
      | none => none
      | some (.error r, _, _) => some (.error r)
      | some (.ok b, l, p) => unhexLoop mem fuel l p (buf ++ [a <<< 4 ||| b])

structure Output where
  ret : Option Bytes
  retLen : Nat
  deriving DecidableEq

def strlen (mem : Bytes) : Option Nat := mem.findIdx? (· = 0)

/-- `unhexmem`; no length stands for `(size_t) -1`. -/
def unhexmem (mem : Bytes) (l : Option Nat) (out : Output) : Option (Except Errno Unit × Output) :=
  match l.or (strlen mem) with
  | none => none
  | some l =>
    match unhexLoop mem (l + 1) l 0 [] with
    | none => none
    | some (.error r) => some (.error r, out)
    | some (.ok buf) => some (.ok (), ⟨some (buf ++ [0]), buf.length⟩)

/-! ## The text behind the loops -/

def Ahead (mem : Bytes) (p : Nat) (s : Bytes) : Prop := ∃ rest, mem.drop p = s ++ rest

section
variable {mem s r : Bytes} {p : Nat} {c : UInt8}

theorem Ahead.head (h : Ahead mem p (c :: s)) : mem[p]? = some c := by
  obtain ⟨rest, h⟩ := h
  rw [← List.head?_drop, h]
  rfl

theorem Ahead.tail (h : Ahead mem p (c :: s)) : Ahead mem (p + 1) s := by
  obtain ⟨rest, h⟩ := h
  refine ⟨rest, ?_⟩
  rw [← List.tail_drop, h]
  rfl

theorem skipBlanks_eq (h : Ahead mem p s) :
    ∃ p', skipBlanks mem s.length p = some ((s.dropWhile isBlank).length, p') ∧
      Ahead mem p' (s.dropWhile isBlank) := by
  induction s generalizing p with
  | nil => exact ⟨p, rfl, h⟩
  | cons c s ih =>
    rw [List.length_cons, skipBlanks, h.head]
    dsimp only
    by_cases hc : isBlank c = true
    · rw [if_pos hc, List.dropWhile_cons_of_pos hc]
      exact ih h.tail
    · rw [if_neg hc, List.dropWhile_cons_of_neg hc]
      exact ⟨p, rfl, h⟩

theorem unhexNext_end (h : Ahead mem p s) (hs : s.dropWhile isBlank = []) :
    ∃ p', unhexNext mem s.length p = some (.error .epipe, 0, p') := by
  obtain ⟨p', hskip, -⟩ := skipBlanks_eq h
  rw [hs] at hskip
  exact ⟨p', by rw [unhexNext, hskip]; rfl⟩

theorem unhexNext_bad (h : Ahead mem p s) (hs : s.dropWhile isBlank = c :: r)
    (hc : unhexchar c = none) :
    ∃ l p', unhexNext mem s.length p = some (.error .einval, l, p') := by
  obtain ⟨p', hskip, hp⟩ := skipBlanks_eq h
  rw [hs] at hskip hp
  refine ⟨r.length + 1, p', ?_⟩
  rw [unhexNext, hskip]
  simp only [List.length_cons, hp.head, hc]

theorem unhexNext_digit {a : UInt8} (h : Ahead mem p s) (hs : s.dropWhile isBlank = c :: r)
    (hc : unhexchar c = some a) :
    ∃ p', unhexNext mem s.length p = some (.ok a, (r.dropWhile isBlank).length, p') ∧
      Ahead mem p' (r.dropWhile isBlank) := by
  obtain ⟨p₁, hskip, hp⟩ := skipBlanks_eq h
  rw [hs] at hskip hp
  obtain ⟨p₂, hskip', hp'⟩ := skipBlanks_eq hp.tail
  refine ⟨p₂, ?_, hp'⟩
  rw [unhexNext, hskip]
  simp only [List.length_cons, hp.head, hc, hskip', Option.map_some]

theorem filter_dropWhile (s : Bytes) :
    ((s.dropWhile isBlank).filter fun c => !isBlank c) = s.filter fun c => !isBlank c := by
  induction s with
  | nil => rfl
  | cons c s ih =>
    by_cases hc : isBlank c = true
    · rw [List.dropWhile_cons_of_pos hc, ih, List.filter_cons_of_neg (by simp [hc])]
    · rw [List.dropWhile_cons_of_neg hc]

theorem filter_of_end (hs : s.dropWhile isBlank = []) : (s.filter fun c => !isBlank c) = [] := by
  rw [← filter_dropWhile, hs, List.filter_nil]

theorem filter_of_next (hs : s.dropWhile isBlank = c :: r) :
    (s.filter fun c => !isBlank c) = c :: (r.dropWhile isBlank).filter fun c => !isBlank c := by
  have hc : isBlank c = false := by
    have hhead := List.head?_dropWhile_not isBlank s
    rw [hs] at hhead
    exact hhead
  rw [← filter_dropWhile, hs, List.filter_cons_of_pos (by simp [hc]), filter_dropWhile]

theorem length_dropWhile_lt (hs : s.dropWhile isBlank = c :: r) :
    (r.dropWhile isBlank).length < s.length := by
  have hle := (List.dropWhile_suffix (l := s) isBlank).length_le
  have hle' := (List.dropWhile_suffix (l := r) isBlank).length_le
  rw [hs, List.length_cons] at hle
  omega

theorem unhexLoop_eq (mem : Bytes) (fuel : Nat) :
    ∀ {s : Bytes} {p : Nat} (buf : Bytes), s.length < fuel → Ahead mem p s →
    (∀ v, Basu.unhexmem s = some v → unhexLoop mem fuel s.length p buf = some (.ok (buf ++ v))) ∧
      (Basu.unhexmem s = none → ∃ r, unhexLoop mem fuel s.length p buf = some (.error r)) := by
  induction fuel with
  | zero => exact fun _ h => absurd h (Nat.not_lt_zero _)
  | succ fuel ih =>
    intro s p buf hfuel h
    rw [unhexLoop, Basu.unhexmem]
    cases hs : s.dropWhile isBlank with
    | nil =>
      obtain ⟨p', hend⟩ := unhexNext_end h hs
      rw [hend, filter_of_end hs]
      refine ⟨fun v hv => ?_, nofun⟩
      obtain rfl := Option.some.inj hv
      rw [List.append_nil]
    | cons c r =>
      rw [filter_of_next hs]
      have hlen := length_dropWhile_lt hs
      cases hc : unhexchar c with
      | none =>
        obtain ⟨l, p', hbad⟩ := unhexNext_bad h hs hc
        rw [hbad]
        refine ⟨fun v hv => ?_, fun _ => ⟨.einval, rfl⟩⟩
        cases hr : (r.dropWhile isBlank).filter fun c => !isBlank c with
        | nil => simp [hr, unhexPairs] at hv
        | cons d cs => simp [hr, unhexPairs, hc] at hv
      | some a =>
        obtain ⟨p₁, hdigit, h₁⟩ := unhexNext_digit h hs hc
        rw [hdigit]
        dsimp only
        generalize hr : r.dropWhile isBlank = r₁ at hlen h₁ ⊢
        cases hs₁ : r₁.dropWhile isBlank with
        | nil =>
          obtain ⟨p', hend⟩ := unhexNext_end h₁ hs₁
          rw [hend, filter_of_end hs₁]
          exact ⟨nofun, fun _ => ⟨.epipe, rfl⟩⟩
        | cons d r₂ =>
          have hlen₁ := length_dropWhile_lt hs₁
          rw [filter_of_next hs₁]
          cases hd : unhexchar d with
          | none =>
            obtain ⟨l, p', hbad⟩ := unhexNext_bad h₁ hs₁ hd
            rw [hbad]
            refine ⟨fun v hv => ?_, fun _ => ⟨.einval, rfl⟩⟩
            simp [unhexPairs, hc, hd] at hv
          | some b =>
            obtain ⟨p₂, hdigit₁, h₂⟩ := unhexNext_digit h₁ hs₁ hd
            obtain ⟨hok, herr⟩ := ih (buf ++ [a <<< 4 ||| b]) (by omega) h₂
            rw [hdigit₁]
            simp only [unhexPairs, hc, hd]
            rw [Basu.unhexmem] at hok herr
            cases hv : unhexPairs ((r₂.dropWhile isBlank).filter fun c => !isBlank c) with
            | none => exact ⟨nofun, fun _ => herr hv⟩
            | some v =>
              refine ⟨fun w hw => ?_, nofun⟩
              obtain rfl := Option.some.inj hw
              rw [hok v hv, List.append_assoc]
              rfl

end

/-! ## Which texts are read -/

def digits (s : Bytes) : List UInt8 := s.filterMap unhexchar

def bytesOf : List UInt8 → Bytes
  | a :: b :: ds => (16 * a + b) :: bytesOf ds
  | _ => []

/-- An even number of digits, and otherwise only blanks, tabs, newlines and carriage returns. -/
def HexText (s : Bytes) : Prop :=
  (∀ c ∈ s, (unhexchar c).isSome ∨ c ∈ [32, 9, 10, 13]) ∧ 2 ∣ (digits s).length

instance (s : Bytes) : Decidable (HexText s) := inferInstanceAs (Decidable (_ ∧ _))

theorem unhexchar_lt {c a : UInt8} (h : unhexchar c = some a) : a < 16 := by
  unfold unhexchar at h
  grind

theorem unhexchar_of_isBlank {c : UInt8} (h : isBlank c = true) : unhexchar c = none := by
  simp only [isBlank, Bool.or_eq_true, decide_eq_true_eq] at h
  obtain (((rfl | rfl) | rfl) | rfl) | rfl := h <;> rfl

theorem isBlank_iff (c : UInt8) : isBlank c = true ↔ c ∈ [32, 9, 10, 13] ∨ c = 0 := by
  simp [isBlank, or_assoc]

theorem shiftLeft_or {a b : UInt8} (ha : a < 16) (hb : b < 16) : a <<< 4 ||| b = 16 * a + b := by
  rw [UInt8.lt_iff_toNat_lt] at ha hb
  change a.toNat < 16 at ha
  change b.toNat < 2 ^ 4 at hb
  rw [← UInt8.toNat_inj, UInt8.toNat_or, UInt8.toNat_shiftLeft, UInt8.toNat_add, UInt8.toNat_mul]
  change a.toNat <<< 4 % 256 ||| b.toNat = (16 * a.toNat % 256 + b.toNat) % 256
  have hshift : a.toNat <<< 4 % 256 = a.toNat <<< 4 := by
    rw [Nat.shiftLeft_eq]
    omega
  rw [hshift, ← Nat.shiftLeft_add_eq_or_of_lt hb, Nat.shiftLeft_eq]
  omega

theorem digits_filter (s : Bytes) : digits (s.filter fun c => !isBlank c) = digits s := by
  induction s with
  | nil => rfl
  | cons c s ih =>
    by_cases hc : isBlank c = true
    · rw [List.filter_cons_of_neg (by simp [hc]), ih, digits, digits,
        List.filterMap_cons_none (unhexchar_of_isBlank hc)]
    · rw [List.filter_cons_of_pos (by simp [hc])]
      cases hd : unhexchar c with
      | none =>
        rw [digits, digits, List.filterMap_cons_none hd, List.filterMap_cons_none hd]
        exact ih
      | some a =>
        rw [digits, digits, List.filterMap_cons_some hd, List.filterMap_cons_some hd]
        exact congrArg _ ih

theorem not_hexText_of_mem {s : Bytes} {c : UInt8} {p : Prop} (hmem : c ∈ s)
    (hc : unhexchar c = none) : ¬ ((∀ c ∈ s, (unhexchar c).isSome) ∧ p) := fun ⟨hall, _⟩ => by
  have hsome := hall c hmem
  rw [hc] at hsome
  cases hsome

theorem unhexPairs_eq_some : ∀ s v : Bytes,
    unhexPairs s = some v ↔
      (∀ c ∈ s, (unhexchar c).isSome) ∧ 2 ∣ (digits s).length ∧ v = bytesOf (digits s)
  | [], v => ⟨fun h => ⟨nofun, ⟨0, rfl⟩, (Option.some.inj h).symm⟩, fun ⟨_, _, h⟩ => congrArg some h.symm⟩
  | [c], v => by
    refine ⟨nofun, fun ⟨hall, heven, _⟩ => ?_⟩
    obtain ⟨a, ha⟩ := Option.isSome_iff_exists.mp (hall c (List.mem_singleton_self c))
    rw [digits, List.filterMap_cons_some ha, List.filterMap_nil, List.length_singleton] at heven
    omega
  | c :: d :: cs, v => by
    have ih := unhexPairs_eq_some cs
    rw [unhexPairs]
    cases hc : unhexchar c with
    | none => exact ⟨nofun, fun h => absurd h (not_hexText_of_mem List.mem_cons_self hc)⟩
    | some a =>
      cases hd : unhexchar d with
      | none =>
        have hmem : d ∈ c :: d :: cs := List.mem_cons_of_mem _ List.mem_cons_self
        exact ⟨nofun, fun h => absurd h (not_hexText_of_mem hmem hd)⟩
      | some b =>
        have hdigits : digits (c :: d :: cs) = a :: b :: digits cs := by
          rw [digits, List.filterMap_cons_some hc, List.filterMap_cons_some hd]
          rfl
        have hall : (∀ e ∈ c :: d :: cs, (unhexchar e).isSome) ↔ ∀ e ∈ cs, (unhexchar e).isSome := by
          simp [hc, hd]
        have heven : 2 ∣ (digits cs).length + 2 ↔ 2 ∣ (digits cs).length := by omega
        rw [hdigits, hall, List.length_cons, List.length_cons, heven, bytesOf,
          ← shiftLeft_or (unhexchar_lt hc) (unhexchar_lt hd)]
        cases hv : unhexPairs cs with
        | none =>
          refine ⟨nofun, fun ⟨hall', heven', _⟩ => ?_⟩
          rw [(ih _).mpr ⟨hall', heven', rfl⟩] at hv
          cases hv
        | some w =>
          obtain ⟨hall', heven', rfl⟩ := (ih w).mp hv
          exact ⟨fun h => ⟨hall', heven', (Option.some.inj h).symm⟩,
            fun ⟨_, _, h⟩ => congrArg some h.symm⟩

theorem unhexmem_eq_some (s v : Bytes) :
    Basu.unhexmem s = some v ↔ HexText (s.filter (· ≠ 0)) ∧ v = bytesOf (digits s) := by
  have hzero : digits (s.filter (· ≠ 0)) = digits s := by
    rw [← digits_filter, List.filter_filter, ← digits_filter s]
    congr 2
    funext c
    by_cases hc : c = 0
    · subst hc; rfl
    · simp [hc]
  have hall : (∀ c ∈ s.filter fun c => !isBlank c, (unhexchar c).isSome) ↔
      ∀ c ∈ s.filter (· ≠ 0), (unhexchar c).isSome ∨ c ∈ [32, 9, 10, 13] := by
    simp only [List.mem_filter, Bool.not_eq_true', ← Bool.not_eq_true, isBlank_iff]
    grind
  rw [Basu.unhexmem, unhexPairs_eq_some, digits_filter, hall, HexText, hzero, and_assoc]

theorem hexText_iff (s : Bytes) : HexText s ↔ (0 : UInt8) ∉ s ∧ HexText (s.filter (· ≠ 0)) := by
  have hfilter (hs : (0 : UInt8) ∉ s) : s.filter (· ≠ 0) = s :=
    List.filter_eq_self.mpr fun c hc => by
      rw [decide_eq_true_eq]
      exact fun h => hs (h ▸ hc)
  have hzero (hs : HexText s) : (0 : UInt8) ∉ s := fun hmem => absurd (hs.1 0 hmem) (by decide)
  constructor
  · intro hs
    exact ⟨hzero hs, by rwa [hfilter (hzero hs)]⟩
  · rintro ⟨hs, htext⟩
    rwa [hfilter hs] at htext

/-! ## `unhexmem` on a buffer -/

theorem unhexmem_eq (s rest : Bytes) (out : Output) :
    (∀ v, Basu.unhexmem s = some v →
      unhexmem (s ++ rest) (some s.length) out = some (.ok (), ⟨some (v ++ [0]), v.length⟩)) ∧
      (Basu.unhexmem s = none →
        ∃ r, unhexmem (s ++ rest) (some s.length) out = some (.error r, out)) := by
  obtain ⟨hok, herr⟩ := unhexLoop_eq (s ++ rest) (s.length + 1) (p := 0) []
    (Nat.lt_succ_self _) ⟨rest, rfl⟩
  constructor
  · intro v hv
    simp only [unhexmem, Option.some_or, hok v hv, List.nil_append]
  · intro hv
    obtain ⟨r, hr⟩ := herr hv
    exact ⟨r, by simp only [unhexmem, Option.some_or, hr]⟩

/-- Whatever stands behind the buffer: the value of its digits if it is a text of them, and an
error that leaves the output alone if not. -/
def Unhexes (s : Bytes) : Prop := ∀ (rest : Bytes) (out : Output),
  (HexText s → unhexmem (s ++ rest) (some s.length) out =
    some (.ok (), ⟨some (bytesOf (digits s) ++ [0]), (bytesOf (digits s)).length⟩)) ∧
  (¬ HexText s → ∃ r, unhexmem (s ++ rest) (some s.length) out = some (.error r, out))

theorem unhexes_iff (s : Bytes) : Unhexes s ↔ (0 : UInt8) ∉ s ∨ ¬ HexText (s.filter (· ≠ 0)) := by
  have hnone : Basu.unhexmem s = none ↔ ¬ HexText (s.filter (· ≠ 0)) := by
    rw [Option.eq_none_iff_forall_ne_some]
    simp only [ne_eq, unhexmem_eq_some]
    exact ⟨fun h ht => h _ ⟨ht, rfl⟩, fun h _ hv => h hv.1⟩
  constructor
  · intro h
    by_contra hcon
    rw [not_or, not_not, not_not] at hcon
    have hbad : ¬ HexText s := fun hs => ((hexText_iff s).mp hs).1 hcon.1
    obtain ⟨r, hr⟩ := (h [] ⟨none, 0⟩).2 hbad
    rw [(unhexmem_eq s [] ⟨none, 0⟩).1 _ ((unhexmem_eq_some s _).mpr ⟨hcon.2, rfl⟩)] at hr
    cases hr
  · intro h rest out
    obtain ⟨hok, herr⟩ := unhexmem_eq s rest out
    refine ⟨fun hs => hok _ ((unhexmem_eq_some s _).mpr ⟨((hexText_iff s).mp hs).2, rfl⟩),
      fun hs => herr (hnone.mpr fun ht => ?_)⟩
    obtain hzero | hbad := h
    · exact hs ((hexText_iff s).mpr ⟨hzero, ht⟩)
    · exact hbad ht

theorem length_hexText (x : Bytes) : (x.flatMap hexPair).length = 2 * x.length := by
  induction x with
  | nil => rfl
  | cons b x ih =>
    rw [List.flatMap_cons, List.length_append, ih, List.length_cons]
    change 2 + _ = _
    omega

theorem isSome_of_mem_hexText {x : Bytes} {c : UInt8} (h : c ∈ x.flatMap hexPair) :
    (unhexchar c).isSome := by
  obtain ⟨b, -, hb⟩ := List.mem_flatMap.mp h
  rw [hexPair, List.mem_pair] at hb
  obtain rfl | rfl := hb
  · rw [unhexchar_hexchar (shiftRight_four_lt b)]; rfl
  · rw [unhexchar_hexchar (and_fifteen_lt b)]; rfl

theorem zero_notMem_hexText (x : Bytes) : (0 : UInt8) ∉ x.flatMap hexPair := fun h =>
  absurd (isSome_of_mem_hexText h) (by decide)

theorem unhexmem_hexPair (x : Bytes) : Basu.unhexmem (x.flatMap hexPair) = some x := by
  have hblank : (x.flatMap hexPair).filter (fun c => !isBlank c) = x.flatMap hexPair := by
    refine List.filter_eq_self.mpr fun c hc => ?_
    have hsome := isSome_of_mem_hexText hc
    by_contra hcon
    rw [unhexchar_of_isBlank (by simpa using hcon)] at hsome
    cases hsome
  rw [Basu.unhexmem, hblank]
  clear hblank
  induction x with
  | nil => rfl
  | cons b x ih =>
    rw [List.flatMap_cons, hexPair, List.cons_append, List.cons_append, List.nil_append, unhexPairs,
      unhexchar_hexchar (shiftRight_four_lt b), unhexchar_hexchar (and_fifteen_lt b), ih]
    dsimp only
    rw [nibbles]

theorem strlen_text {s : Bytes} (hs : (0 : UInt8) ∉ s) (rest : Bytes) :
    strlen (s ++ 0 :: rest) = some s.length := by
  have hnone : s.findIdx? (· = 0) = none := List.findIdx?_eq_none_iff.mpr fun c hc => by
    rw [decide_eq_false_iff_not]
    exact fun h => hs (h ▸ hc)
  rw [strlen, List.findIdx?_append, hnone, Option.none_or, List.findIdx?_cons]
  simp

def ComesBack (x : Bytes) : Prop := ∀ (rest : Bytes) (out : Output), ∀ l ∈ [some (2 * x.length), none],
  unhexmem (hexmem x ++ rest) l out = some (.ok (), ⟨some (x ++ [0]), x.length⟩)

theorem comesBack (x : Bytes) : ComesBack x := by
  intro rest out l hl
  have hrun := (unhexmem_eq (x.flatMap hexPair) (0 :: rest) out).1 x (unhexmem_hexPair x)
  rw [length_hexText] at hrun
  rw [hexmem, List.append_assoc, List.singleton_append]
  rw [List.mem_pair] at hl
  obtain rfl | rfl := hl
  · exact hrun
  · rw [unhexmem, Option.none_or, strlen_text (zero_notMem_hexText x), length_hexText]
    exact hrun

/-- What is written for a byte string comes back; as a buffer it is read as it should be just when it
has no NUL bytes, or would be refused without them. -/
theorem unhexmem_iff (s : Bytes) : ComesBack s ∧
    (Unhexes s ↔ (0 : UInt8) ∉ s ∨ ¬ HexText (s.filter (· ≠ 0))) :=
  ⟨comesBack s, unhexes_iff s⟩

/-- `strchr` finds the end of its own string too: two NUL bytes are read as no digits at all. -/
theorem unhexmem_nul : ¬ ∀ s, Unhexes s := fun h => by
  obtain ⟨r, hr⟩ := (h [0, 0] [] ⟨none, 0⟩).2 (by decide)
  cases hr

end Basu.Hex
