import Basu.Event.Dispatch

/-! The time-out of `sd_event_wait`: microseconds of 64 bits become milliseconds in an `int`, where
-1 stands for none. -/

namespace Basu.Event

def toInt64 (n : Nat) : Int := (n : Int).bmod (2 ^ 64)

def toInt (x : Int) : Int := x.bmod (2 ^ 32)

def infinite : UInt64 := 0xFFFFFFFFFFFFFFFF

/-- A time-out, and the values that have been converted to `int` for it; no code reads those. -/
structure Timeout where
  ms : Int
  converted : List Int := []
  deriving DecidableEq, Repr

def Loop.hasPending (e : Loop) : Bool :=
  (e.list .deferSources).any (fun i => (e.source i).isDue) ||
    (e.list .timerSources).any fun i => (e.source i).isDue

def timerTurn (now : UInt64) (t : Timeout) (s : Source) : Timeout :=
  if s.enabled = .off then t
  else if now < s.usec then
    let remainingUsec := toInt64 (s.usec - now).toNat
    let remainingMs := remainingUsec.tdiv 1000
    if 0 < remainingMs ∧ (t.ms < 0 ∨ remainingMs < t.ms) then
      { ms := toInt remainingMs, converted := t.converted ++ [remainingMs] }
    else t
  -- the target has passed, and should have been handled
  else if t.ms < 0 ∨ 1 < t.ms then { t with ms := 1 }
  else t

def timerTimeout (e : Loop) (usec : UInt64) : Timeout :=
  if !e.hasPending && usec = infinite then
    ((e.list .timerSources).map e.source).foldl (timerTurn e.now) { ms := -1 }
  else { ms := -1 }

def pollTimeout (e : Loop) (usec : UInt64) : Timeout :=
  let t := timerTimeout e usec
  if e.hasPending then { t with ms := 0 }
  else if 0 ≤ t.ms then { ms := toInt t.ms, converted := t.converted ++ [t.ms] }
  else if usec = infinite then { t with ms := -1 }
  else
    let ms := toInt (usec.toNat / 1000 : Nat)
    { ms := if ms < 0 then 0 else ms, converted := t.converted ++ [((usec.toNat / 1000 : Nat) : Int)] }

def sdEventWaitTimeout (e : Loop) (usec : UInt64) : Timeout := pollTimeout (sdEventWaitBegin e) usec

def Loop.timers (e : Loop) : List Source :=
  ((e.list .timerSources).map e.source).filter fun s => s.enabled ≠ .off

def Source.remaining (s : Source) (now : UInt64) : Nat := s.usec.toNat - now.toNat

def saturate (x : Int) : Int := max (-2 ^ 31) (min x (2 ^ 31 - 1))

/-- The time-out is right; with `grace`, a target that has passed already is granted a millisecond. -/
structure TimeoutRight (e : Loop) (usec : UInt64) (grace : Bool) (t : Timeout) : Prop where
  pending : e.hasPending = true → t.ms = 0
  timer : e.hasPending = false → usec = infinite → ∀ s ∈ e.timers, 0 ≤ t.ms ∧
    (t.ms * 1000 < s.remaining e.now + 1000 ∨ s.remaining e.now = 0 ∧ grace = true ∧ t.ms ≤ 1)
  none : e.hasPending = false → usec = infinite → e.timers = [] → t.ms = -1
  given : e.hasPending = false → usec ≠ infinite → 0 ≤ t.ms ∧
    (usec.toNat < t.ms * 1000 + 1000 ∨ t.ms = 2 ^ 31 - 1)
  converted : ∀ x ∈ t.converted, toInt x = saturate x

/-- The milliseconds are the same in an `int`, or the largest one as it happens. -/
def FitsInt (ms : Nat) : Prop := ms < 2 ^ 31 ∨ ms % 2 ^ 32 = 2 ^ 31 - 1

/-- A time source that the loop takes into account: its target has passed, or is at least a
millisecond away and not so far that `int64_t` makes it negative. -/
def Source.counts (now : UInt64) (s : Source) : Bool :=
  s.remaining now = 0 || 1000 ≤ s.remaining now && s.remaining now < 2 ^ 63

/-- Of the enabled time sources, if there are any, one counts, and the first that does fits; if one
is less than a millisecond away, another has passed or is less than two away; and none has passed, if
nothing is granted then. -/
structure TimersFit (e : Loop) (grace : Bool) : Prop where
  first : e.timers ≠ [] → ∃ s, (e.timers.filter (Source.counts e.now)).head? = some s ∧
    FitsInt (s.remaining e.now / 1000)
  near : ∀ s ∈ e.timers, 0 < s.remaining e.now → s.remaining e.now < 1000 →
    ∃ s' ∈ e.timers, s'.counts e.now = true ∧ s'.remaining e.now < 2000
  passed : grace = false → ∀ s ∈ e.timers, 0 < s.remaining e.now

def TimeoutFits (e : Loop) (usec : UInt64) (grace : Bool) : Prop :=
  e.hasPending = false →
    if usec = infinite then TimersFit e grace else FitsInt (usec.toNat / 1000)

theorem toInt_eq_saturate_iff (n : Nat) : toInt n = saturate n ↔ FitsInt n := by
  unfold toInt saturate FitsInt
  rw [Int.bmod_def]
  omega

theorem toInt_of_lt {n : Nat} (h : n < 2 ^ 31) : toInt n = n := by
  unfold toInt
  rw [Int.bmod_def]
  omega

theorem remainingMs_of_lt {n : Nat} (h : n < 2 ^ 63) : (toInt64 n).tdiv 1000 = (n / 1000 : Nat) := by
  have hsame : toInt64 n = n := by
    unfold toInt64
    rw [Int.bmod_def]
    omega
  rw [hsame]
  exact (Int.ofNat_tdiv n 1000).symm

theorem remainingMs_of_ge {n : Nat} (h : 2 ^ 63 ≤ n) (h' : n < 2 ^ 64) :
    (toInt64 n).tdiv 1000 ≤ 0 := by
  have hneg : toInt64 n = -((2 ^ 64 - n : Nat) : Int) := by
    unfold toInt64
    rw [Int.bmod_def]
    omega
  rw [hneg, Int.neg_tdiv]
  exact Int.neg_nonpos_of_nonneg (Int.natCast_nonneg ((2 ^ 64 - n) / 1000))

def Source.good (now : UInt64) (s : Source) : Int :=
  if s.remaining now = 0 then 1 else saturate (s.remaining now / 1000 : Nat)

section
variable {now : UInt64} {s : Source} {t : Timeout}

theorem remaining_eq (h : now < s.usec) : (s.usec - now).toNat = s.remaining now := by
  rw [UInt64.toNat_sub_of_le _ _ (UInt64.le_of_lt h)]
  rfl

theorem lt_usec_iff : now < s.usec ↔ 0 < s.remaining now := by
  rw [UInt64.lt_iff_toNat_lt]
  exact Nat.sub_pos_iff_lt.symm

theorem remaining_lt : s.remaining now < 2 ^ 64 := by
  have := s.usec.toNat_lt
  unfold Source.remaining
  omega

theorem timerTurn_off (h : s.enabled = .off) : timerTurn now t s = t := if_pos h

theorem timerTurn_passed (h : s.enabled ≠ .off) (hr : s.remaining now = 0) :
    timerTurn now t s = if t.ms < 0 ∨ 1 < t.ms then { t with ms := 1 } else t := by
  rw [timerTurn, if_neg h, if_neg fun hlt => absurd (lt_usec_iff.mp hlt) (by omega)]

theorem timerTurn_ahead (h : s.enabled ≠ .off) (hr : 0 < s.remaining now)
    (hlt : s.remaining now < 2 ^ 63) : timerTurn now t s =
      if 0 < s.remaining now / 1000 ∧ (t.ms < 0 ∨ (s.remaining now / 1000 : Nat) < t.ms) then
        { ms := toInt (s.remaining now / 1000 : Nat)
          converted := t.converted ++ [((s.remaining now / 1000 : Nat) : Int)] }
      else t := by
  have hnow := lt_usec_iff.mpr hr
  rw [timerTurn, if_neg h, if_pos hnow]
  simp only [remaining_eq hnow, remainingMs_of_lt hlt, Int.natCast_pos]

theorem timerTurn_first_ahead (h : s.enabled ≠ .off) (hr : 1000 ≤ s.remaining now)
    (hlt : s.remaining now < 2 ^ 63) : timerTurn now { ms := -1 } s =
      { ms := toInt (s.remaining now / 1000 : Nat)
        converted := [((s.remaining now / 1000 : Nat) : Int)] } := by
  have hpos : 0 < s.remaining now / 1000 := Nat.div_pos hr (by decide)
  have hnone : ({ ms := -1 } : Timeout).ms < 0 := Int.negSucc_lt_zero 0
  rw [timerTurn_ahead h (by omega) hlt]
  exact if_pos ⟨hpos, Or.inl hnone⟩

theorem timerTurn_of_not_counts (h : s.counts now = false) : timerTurn now t s = t := by
  by_cases hoff : s.enabled = .off
  · exact timerTurn_off hoff
  simp only [Source.counts, Bool.or_eq_false_iff, decide_eq_false_iff_not,
    Bool.and_eq_false_iff, not_le, not_lt] at h
  obtain ⟨hpos, hsmall | hlarge⟩ := h
  · rw [timerTurn_ahead hoff (Nat.pos_of_ne_zero hpos) (by omega), if_neg]
    omega
  · have hnow := lt_usec_iff.mpr (Nat.pos_of_ne_zero hpos)
    have hle := remainingMs_of_ge hlarge remaining_lt
    rw [timerTurn, if_neg hoff, if_pos hnow]
    dsimp only
    rw [remaining_eq hnow, if_neg fun hcond => absurd hcond.1 (not_lt.mpr hle)]

structure Timeout.Good (t : Timeout) : Prop where
  low : 1 ≤ t.ms
  high : t.ms < 2 ^ 31
  converted : ∀ x ∈ t.converted, toInt x = saturate x

theorem good_of_passed (hr : s.remaining now = 0) : s.good now = 1 := if_pos hr

theorem good_of_ahead (hr : 1000 ≤ s.remaining now) :
    s.good now = min ((s.remaining now / 1000 : Nat) : Int) (2 ^ 31 - 1) := by
  rw [Source.good, if_neg (by omega), saturate]
  omega

theorem counts_cases (h : s.counts now = true) :
    s.remaining now = 0 ∨ 1000 ≤ s.remaining now ∧ s.remaining now < 2 ^ 63 := by
  simpa only [Source.counts, Bool.or_eq_true, decide_eq_true_eq, Bool.and_eq_true] using h

theorem Timeout.Good.turn (ht : t.Good) (h : s.enabled ≠ .off) (hc : s.counts now = true) :
    (timerTurn now t s).Good ∧ (timerTurn now t s).ms = min t.ms (s.good now) := by
  obtain ⟨hlow, hhigh, hconv⟩ := ht
  rcases counts_cases hc with hr | ⟨hr, hlt⟩
  · rw [timerTurn_passed h hr, good_of_passed hr]
    split
    · exact ⟨⟨le_rfl, by dsimp only; omega, hconv⟩, by dsimp only; omega⟩
    · exact ⟨⟨hlow, hhigh, hconv⟩, by omega⟩
  · rw [timerTurn_ahead h (by omega) hlt, good_of_ahead hr]
    split
    · next hshorter =>
      have hfits : s.remaining now / 1000 < 2 ^ 31 := by omega
      have hsame := toInt_of_lt hfits
      rw [hsame]
      refine ⟨⟨by dsimp only; omega, by dsimp only; omega, fun x hx => ?_⟩, by dsimp only; omega⟩
      rcases List.mem_append.mp hx with hx | hx
      · exact hconv x hx
      · obtain rfl := List.mem_singleton.mp hx
        exact (toInt_eq_saturate_iff _).mpr (Or.inl hfits)
    · exact ⟨⟨hlow, hhigh, hconv⟩, by omega⟩

theorem timerTurn_first (h : s.enabled ≠ .off) (hc : s.counts now = true)
    (hf : FitsInt (s.remaining now / 1000)) :
    (timerTurn now { ms := -1 } s).Good ∧ (timerTurn now { ms := -1 } s).ms = s.good now := by
  rcases counts_cases hc with hr | ⟨hr, hlt⟩
  · rw [timerTurn_passed h hr, good_of_passed hr, if_pos (Or.inl (by decide))]
    exact ⟨⟨le_rfl, by decide, fun x hx => absurd hx List.not_mem_nil⟩, rfl⟩
  · have hconv := (toInt_eq_saturate_iff _).mpr hf
    rw [timerTurn_first_ahead h hr hlt, good_of_ahead hr]
    have hsat : saturate (s.remaining now / 1000 : Nat) =
        min ((s.remaining now / 1000 : Nat) : Int) (2 ^ 31 - 1) := by
      unfold saturate
      omega
    dsimp only
    refine ⟨⟨?_, ?_, fun x hx => ?_⟩, ?_⟩
    · dsimp only
      rw [hconv, hsat]
      omega
    · dsimp only
      rw [hconv, hsat]
      omega
    · obtain rfl := List.mem_singleton.mp hx
      exact hconv
    · rw [hconv, hsat]

theorem Timeout.Good.foldl (l : List Source) (hl : ∀ s ∈ l, s.enabled ≠ .off ∧ s.counts now = true) :
    ∀ {t : Timeout}, t.Good → (l.foldl (timerTurn now) t).Good ∧
      (l.foldl (timerTurn now) t).ms ≤ t.ms ∧
      (∀ s ∈ l, (l.foldl (timerTurn now) t).ms ≤ s.good now) ∧
      ((l.foldl (timerTurn now) t).ms = t.ms ∨
        ∃ s ∈ l, (l.foldl (timerTurn now) t).ms = s.good now) := by
  induction l with
  | nil => exact fun ht => ⟨ht, le_rfl, fun s hs => absurd hs List.not_mem_nil, Or.inl rfl⟩
  | cons s l ih =>
    intro t ht
    obtain ⟨h, hc⟩ := hl s List.mem_cons_self
    obtain ⟨ht', hms⟩ := ht.turn h hc
    obtain ⟨hgood, hle, hall, hfrom⟩ := ih (fun s hs => hl s (List.mem_cons_of_mem _ hs)) ht'
    rw [hms] at hle hfrom
    refine ⟨hgood, hle.trans (min_le_left _ _), fun s' hs' => ?_, ?_⟩
    · rcases List.mem_cons.mp hs' with rfl | hs'
      · exact hle.trans (min_le_right _ _)
      · exact hall s' hs'
    · rcases hfrom with heq | ⟨s', hs', heq⟩
      · rcases min_choice t.ms (s.good now) with hmin | hmin
        · exact Or.inl (heq.trans hmin)
        · exact Or.inr ⟨s, List.mem_cons_self, heq.trans hmin⟩
      · exact Or.inr ⟨s', List.mem_cons_of_mem _ hs', heq⟩

theorem mem_converted_foldl {x : Int} (l : List Source) : ∀ {t : Timeout}, x ∈ t.converted →
    x ∈ (l.foldl (timerTurn now) t).converted := by
  induction l with
  | nil => exact id
  | cons s l ih =>
    intro t hx
    refine ih ?_
    unfold timerTurn
    dsimp only
    split_ifs
    · exact hx
    · exact List.mem_append_left _ hx
    · exact hx
    · exact hx
    · exact hx

end

section
variable {e : Loop}

theorem mem_timers {s : Source} (hs : s ∈ e.timers) : s.enabled ≠ .off := by
  simpa using (List.mem_filter.mp hs).2

theorem foldl_timers (t : Timeout) : ((e.list .timerSources).map e.source).foldl (timerTurn e.now) t =
    (e.timers.filter (Source.counts e.now)).foldl (timerTurn e.now) t := by
  unfold Loop.timers
  rw [List.foldl_filter, List.foldl_filter]
  congr 1
  funext t s
  split
  · split
    · rfl
    · next hc => exact timerTurn_of_not_counts (Bool.eq_false_of_not_eq_true hc)
  · next hoff =>
    refine timerTurn_off ?_
    simpa using hoff

theorem foldl_counts {s : Source} (hs : (e.timers.filter (Source.counts e.now)).head? = some s)
    (hf : FitsInt (s.remaining e.now / 1000)) {t : Timeout}
    (ht : (e.timers.filter (Source.counts e.now)).foldl (timerTurn e.now) { ms := -1 } = t) :
    t.Good ∧ (∀ s ∈ e.timers, s.counts e.now = true → t.ms ≤ s.good e.now) ∧
      ∃ s ∈ e.timers, s.counts e.now = true ∧ t.ms = s.good e.now := by
  have hmem : ∀ {s}, s ∈ e.timers.filter (Source.counts e.now) ↔
      s ∈ e.timers ∧ s.counts e.now = true := List.mem_filter
  have hl : ∀ s ∈ e.timers.filter (Source.counts e.now),
      s.enabled ≠ .off ∧ s.counts e.now = true :=
    fun s hs => ⟨mem_timers (hmem.mp hs).1, (hmem.mp hs).2⟩
  generalize e.timers.filter (Source.counts e.now) = l at hs ht hmem hl
  obtain ⟨l, rfl⟩ : ∃ l', l = s :: l' := ⟨l.tail, List.eq_cons_of_mem_head? hs⟩
  obtain ⟨h, hc⟩ := hl s List.mem_cons_self
  obtain ⟨hfirst, hms⟩ := timerTurn_first h hc hf
  obtain ⟨hgood, hle, hall, hfrom⟩ :=
    hfirst.foldl l fun s hs => hl s (List.mem_cons_of_mem _ hs)
  rw [List.foldl_cons] at ht
  rw [ht] at hgood hle hall hfrom
  rw [hms] at hle hfrom
  refine ⟨hgood, fun s' hs' hc' => ?_, ?_⟩
  · rcases List.mem_cons.mp (hmem.mpr ⟨hs', hc'⟩) with rfl | hs'
    · exact hle
    · exact hall s' hs'
  · rcases hfrom with heq | ⟨s', hs', heq⟩
    · exact ⟨s, (hmem.mp List.mem_cons_self).1, hc, heq⟩
    · exact ⟨s', (hmem.mp (List.mem_cons_of_mem _ hs')).1,
        (hmem.mp (List.mem_cons_of_mem _ hs')).2, heq⟩

theorem fits_of_converted {s : Source}
    (hs : (e.timers.filter (Source.counts e.now)).head? = some s)
    (hconv : ∀ x ∈ ((e.timers.filter (Source.counts e.now)).foldl (timerTurn e.now)
      { ms := -1 }).converted, toInt x = saturate x) : FitsInt (s.remaining e.now / 1000) := by
  obtain ⟨hmem, hc⟩ := List.mem_filter.mp (List.mem_of_head? hs)
  rcases counts_cases hc with hr | ⟨hr, hlt⟩
  · rw [hr]
    exact Or.inl (by decide)
  · refine (toInt_eq_saturate_iff _).mp (hconv _ ?_)
    rw [List.eq_cons_of_mem_head? hs, List.foldl_cons,
      timerTurn_first_ahead (mem_timers hmem) hr hlt]
    exact mem_converted_foldl _ (List.mem_singleton_self _)

theorem pollTimeout_pending (usec : UInt64) (hp : e.hasPending = true) :
    pollTimeout e usec = { ms := 0 } := by
  simp only [pollTimeout, timerTimeout, hp, Bool.not_true, Bool.false_and, Bool.false_eq_true,
    if_false, if_true]

theorem pollTimeout_given {usec : UInt64} (hp : e.hasPending = false) (hu : usec ≠ infinite) :
    pollTimeout e usec =
      { ms := if toInt (usec.toNat / 1000 : Nat) < 0 then 0 else toInt (usec.toNat / 1000 : Nat)
        converted := [((usec.toNat / 1000 : Nat) : Int)] } := by
  simp only [pollTimeout, timerTimeout, hp, hu, decide_false, Bool.and_false, Bool.false_eq_true,
    if_false]
  rw [if_neg (by decide)]
  rfl

theorem pollTimeout_infinite (hp : e.hasPending = false) : pollTimeout e infinite =
    let t := (e.timers.filter (Source.counts e.now)).foldl (timerTurn e.now) { ms := -1 }
    if 0 ≤ t.ms then { ms := toInt t.ms, converted := t.converted ++ [t.ms] }
    else { t with ms := -1 } := by
  simp only [pollTimeout, timerTimeout, hp, Bool.not_false, Bool.true_and, decide_true, if_true,
    Bool.false_eq_true, if_false, foldl_timers]

theorem pollTimeout_good {t : Timeout} (hp : e.hasPending = false)
    (ht : (e.timers.filter (Source.counts e.now)).foldl (timerTurn e.now) { ms := -1 } = t)
    (hgood : t.Good) : pollTimeout e infinite = { ms := t.ms, converted := t.converted ++ [t.ms] } := by
  obtain ⟨n, hn⟩ := Int.eq_ofNat_of_zero_le (show 0 ≤ t.ms from le_trans (by decide) hgood.low)
  have hsame : toInt t.ms = t.ms := by
    have := hgood.high
    rw [hn]
    exact toInt_of_lt (by omega)
  rw [pollTimeout_infinite hp, ht]
  dsimp only
  rw [if_pos (le_trans (by decide) hgood.low), hsame]

theorem pollTimeout_none (hp : e.hasPending = false)
    (hnone : e.timers.filter (Source.counts e.now) = []) : pollTimeout e infinite = { ms := -1 } := by
  rw [pollTimeout_infinite hp, hnone]
  rfl

theorem good_eq_one_iff {now : UInt64} {s : Source} (hc : s.counts now = true) :
    s.good now = 1 ↔ s.remaining now < 2000 := by
  rcases counts_cases hc with hr | ⟨hr, hlt⟩
  · rw [good_of_passed hr]
    omega
  · rw [good_of_ahead hr]
    omega

theorem timersFit_iff (hp : e.hasPending = false) (grace : Bool) :
    TimeoutRight e infinite grace (pollTimeout e infinite) ↔ TimersFit e grace := by
  rcases hhead : (e.timers.filter (Source.counts e.now)).head? with _ | s
  · -- No source counts.
    have hnone := List.head?_eq_none_iff.mp hhead
    have hms : (pollTimeout e infinite).ms = -1 := by rw [pollTimeout_none hp hnone]
    constructor
    · intro h
      have hempty : e.timers = [] := by
        rcases htimers : e.timers with _ | ⟨s, l⟩
        · rfl
        · have hnonneg := (h.timer hp rfl s (htimers ▸ List.mem_cons_self)).1
          rw [hms] at hnonneg
          exact absurd hnonneg (by decide)
      refine ⟨fun hne => absurd hempty hne, fun s hs => ?_, fun _ s hs => ?_⟩
      · exact absurd (hempty ▸ hs) List.not_mem_nil
      · exact absurd (hempty ▸ hs) List.not_mem_nil
    · intro h
      have hempty : e.timers = [] := by
        by_contra hne
        obtain ⟨s, hs, -⟩ := h.first hne
        exact absurd (hhead.symm.trans hs) nofun
      refine ⟨fun hyes => absurd (hp.symm.trans hyes) nofun, fun _ _ s hs => ?_, fun _ _ _ => hms,
        fun _ hne => absurd rfl hne, fun x hx => ?_⟩
      · exact absurd (hempty ▸ hs) List.not_mem_nil
      · rw [pollTimeout_none hp hnone] at hx
        exact absurd hx List.not_mem_nil
  have hne : e.timers ≠ [] := by
    intro hempty
    rw [hempty] at hhead
    exact absurd hhead nofun
  by_cases hf : FitsInt (s.remaining e.now / 1000)
  swap
  · -- The first source that counts is too far away.
    refine iff_of_false (fun h => hf (fits_of_converted hhead fun x hx => h.converted x ?_))
      fun h => ?_
    · rw [pollTimeout_infinite hp]
      dsimp only
      split
      · exact List.mem_append_left _ hx
      · exact hx
    · obtain ⟨s', hs', hf'⟩ := h.first hne
      obtain rfl := Option.some.inj (hhead.symm.trans hs')
      exact hf hf'
  generalize ht : (e.timers.filter (Source.counts e.now)).foldl (timerTurn e.now) { ms := -1 } = t
  obtain ⟨hgood, hall, s₀, hs₀, hc₀, hms₀⟩ := foldl_counts hhead hf ht
  rw [pollTimeout_good hp ht hgood]
  have hlow := hgood.low
  constructor
  · intro h
    refine ⟨fun _ => ⟨s, hhead, hf⟩, fun s hs hpos hnear => ⟨s₀, hs₀, hc₀, ?_⟩, fun hg s hs => ?_⟩
    · obtain ⟨-, hle | ⟨hr, -⟩⟩ := h.timer hp rfl s hs
      · refine (good_eq_one_iff hc₀).mp (hms₀.symm.trans ?_)
        dsimp only at hle
        omega
      · omega
    · obtain ⟨-, hle | ⟨-, htrue, -⟩⟩ := h.timer hp rfl s hs
      · dsimp only at hle
        omega
      · exact absurd (hg.symm.trans htrue) nofun
  · intro h
    refine ⟨fun hyes => absurd (hp.symm.trans hyes) nofun, fun _ _ s hs => ⟨by dsimp only; omega, ?_⟩,
      fun _ _ hempty => absurd hempty hne, fun _ hne => absurd rfl hne, fun x hx => ?_⟩
    · dsimp only
      rcases Nat.eq_zero_or_pos (s.remaining e.now) with hr | hpos
      · -- The target has passed.
        have hle := hall s hs (by simp only [Source.counts, hr, decide_true, Bool.true_or])
        rw [good_of_passed hr] at hle
        cases grace with
        | false => exact absurd hr (h.passed rfl s hs).ne'
        | true => exact Or.inr ⟨hr, rfl, hle⟩
      · left
        by_cases hnear : s.remaining e.now < 1000
        · obtain ⟨s', hs', hc', hlt⟩ := h.near s hs hpos hnear
          have hle := hall s' hs' hc'
          rw [(good_eq_one_iff hc').mpr hlt] at hle
          omega
        · by_cases hfar : s.remaining e.now < 2 ^ 63
          · have hc : s.counts e.now = true := by
              simp only [Source.counts, hfar, not_lt.mp hnear, decide_true, Bool.and_self,
                Bool.or_true]
            have hle := hall s hs hc
            rw [good_of_ahead (not_lt.mp hnear)] at hle
            omega
          · have hhigh := hgood.high
            omega
    · rcases List.mem_append.mp hx with hx | hx
      · exact hgood.converted x hx
      · obtain rfl := List.mem_singleton.mp hx
        obtain ⟨n, hn⟩ := Int.eq_ofNat_of_zero_le (le_trans (by decide) hlow)
        have hhigh := hgood.high
        rw [hn]
        exact (toInt_eq_saturate_iff n).mpr (Or.inl (by omega))

theorem givenFits_iff {usec : UInt64} (hp : e.hasPending = false) (hu : usec ≠ infinite)
    (grace : Bool) : TimeoutRight e usec grace (pollTimeout e usec) ↔
      FitsInt (usec.toNat / 1000) := by
  rw [pollTimeout_given hp hu]
  constructor
  · exact fun h => (toInt_eq_saturate_iff _).mp (h.converted _ (List.mem_singleton_self _))
  · intro h
    have hconv := (toInt_eq_saturate_iff _).mpr h
    refine ⟨fun hyes => absurd (hp.symm.trans hyes) nofun, fun _ heq => absurd heq hu,
      fun _ heq => absurd heq hu, fun _ _ => ?_, fun x hx => ?_⟩
    · dsimp only
      rw [hconv]
      unfold saturate
      omega
    · obtain rfl := List.mem_singleton.mp hx
      exact hconv

end

/-- In every state, and for every argument, the time-out that `sd_event_wait` passes to the poll is
right, with a target that has passed granted a millisecond or nothing, exactly under the condition. -/
theorem timeout_right_iff (e : Loop) (usec : UInt64) (grace : Bool) :
    TimeoutRight (sdEventWaitBegin e) usec grace (sdEventWaitTimeout e usec) ↔
      TimeoutFits (sdEventWaitBegin e) usec grace := by
  unfold sdEventWaitTimeout TimeoutFits
  generalize sdEventWaitBegin e = e
  rcases hp : e.hasPending with _ | _
  · rw [forall_prop_of_true rfl]
    split
    · next hu => rw [hu, timersFit_iff hp]
    · next hu => exact givenFits_iff hp hu grace
  · rw [pollTimeout_pending usec hp]
    refine iff_of_true ⟨fun _ => rfl, fun hno => absurd (hp.symm.trans hno) nofun,
      fun hno => absurd (hp.symm.trans hno) nofun, fun hno => absurd (hp.symm.trans hno) nofun,
      fun x hx => absurd hx List.not_mem_nil⟩ nofun

/-- With one time source less than a millisecond away the poll waits for ever. -/
theorem not_timeout_right : ¬∀ (e : Loop) (usec : UInt64) (grace : Bool),
    TimeoutRight (sdEventWaitBegin e) usec grace (sdEventWaitTimeout e usec) := by
  intro hall
  let e := sdEventWaitBegin (sdEventAddTime {} 500 {})
  have hp : e.hasPending = false := by decide
  have hnonneg := ((hall (sdEventAddTime {} 500 {}) infinite true).timer hp rfl (e.source 0)
    (by decide)).1
  exact absurd hnonneg (by decide)

end Basu.Event
