import Mathlib.Algebra.Order.Group.Nat
import Mathlib.Data.Nat.ModEq
import Mathlib.Logic.Function.Basic
import Mathlib.Tactic.SplitIfs

/-! Linear probing in a ring of `n` cells in the manner of Robin Hood. A cell is placed when it holds
an entry, and `far` is how far its entry stands behind the cell of its choice. -/

namespace Lib.Probe

variable {n i j a f d : ℕ}

def next (n i : ℕ) : ℕ := (i + 1) % n

def prev (n i : ℕ) : ℕ := (n + i - 1) % n

def distance (n i a : ℕ) : ℕ := if a ≤ i then i - a else n + i - a

theorem next_eq (hi : i < n) : next n i = if i + 1 = n then 0 else i + 1 := by
  unfold next
  split_ifs with h
  · rw [h, Nat.mod_self]
  · exact Nat.mod_eq_of_lt (by omega)

theorem prev_eq (hi : i < n) : prev n i = if i = 0 then n - 1 else i - 1 := by
  unfold prev
  split_ifs with h
  · rw [h, Nat.add_zero, Nat.mod_eq_of_lt (by omega)]
  · rw [show n + i - 1 = i - 1 + n by omega, Nat.add_mod_right, Nat.mod_eq_of_lt (by omega)]

theorem next_lt (hi : i < n) : next n i < n := Nat.mod_lt _ (by omega)

theorem prev_lt (hi : i < n) : prev n i < n := Nat.mod_lt _ (by omega)

theorem prev_next (hi : i < n) : prev n (next n i) = i := by
  have hn := next_eq hi
  rw [prev_eq (next_lt hi)]
  split_ifs at hn ⊢ <;> omega

theorem next_prev (hi : i < n) : next n (prev n i) = i := by
  have hp := prev_eq hi
  rw [next_eq (prev_lt hi)]
  split_ifs at hp ⊢ <;> omega

theorem next_eq_iff (hi : i < n) (hj : j < n) : next n i = j ↔ prev n j = i := by
  constructor
  · rintro rfl
    exact prev_next hi
  · rintro rfl
    exact next_prev hj

theorem distance_lt (hi : i < n) (ha : a < n) : distance n i a < n := by
  unfold distance
  split_ifs <;> omega

theorem distance_self : distance n i i = 0 := by
  unfold distance
  rw [if_pos le_rfl, Nat.sub_self]

theorem distance_eq_zero (ha : a < n) : distance n i a = 0 ↔ i = a := by
  unfold distance
  split_ifs <;> omega

theorem distance_next (hi : i < n) (ha : a < n) :
    distance n (next n i) a = if next n i = a then 0 else distance n i a + 1 := by
  rw [next_eq hi]
  unfold distance
  split_ifs <;> omega

theorem distance_next_of_lt (hi : i < n) (ha : a < n) (h : distance n i a + 1 < n) :
    distance n (next n i) a = distance n i a + 1 := by
  rw [distance_next hi ha, if_neg]
  intro he
  rw [next_eq hi] at he
  unfold distance at h
  split_ifs at h he <;> omega

theorem distance_prev (hi : i < n) (ha : a < n) (h : distance n i a ≠ 0) :
    distance n (prev n i) a + 1 = distance n i a := by
  rw [prev_eq hi]
  unfold distance at *
  split_ifs at * <;> omega

theorem distance_closer (hi : i < n) (hf : f < n) (hne : f ≠ i) :
    distance n f (next n i) < distance n f i := by
  have hn := next_eq hi
  unfold distance
  split_ifs at * <;> omega

theorem distance_add (ha : a < n) (hd : d < n) : distance n ((a + d) % n) a = d := by
  rcases Nat.lt_or_ge (a + d) n with h | h
  · rw [Nat.mod_eq_of_lt h, distance, if_pos (by omega), Nat.add_sub_cancel_left]
  · rw [show a + d = a + d - n + n by omega, Nat.add_mod_right, Nat.mod_eq_of_lt (by omega),
      distance, if_neg (by omega)]
    omega

theorem add_distance (hi : i < n) (ha : a < n) : (a + distance n i a) % n = i := by
  unfold distance
  split_ifs with h
  · rw [Nat.add_sub_cancel' h, Nat.mod_eq_of_lt hi]
  · rw [show a + (n + i - a) = i + n by omega, Nat.add_mod_right, Nat.mod_eq_of_lt hi]

theorem next_add (a d : ℕ) : next n ((a + d) % n) = (a + (d + 1)) % n := by
  unfold next
  rw [Nat.mod_add_mod, Nat.add_assoc]

theorem prev_add (hn : 0 < n) (a d : ℕ) : prev n ((a + (d + 1)) % n) = (a + d) % n := by
  rw [← next_add, prev_next (Nat.mod_lt _ hn)]

theorem add_inj (ha : a < n) (hi : i < n) (hj : j < n) (he : (a + i) % n = (a + j) % n) :
    i = j := by
  rw [← distance_add ha hi, he, distance_add ha hj]

/-- Where the content of a cell is when the `j` cells behind `a` have each been moved up by one. -/
def back (n a j i : ℕ) : ℕ := if 1 ≤ distance n i a ∧ distance n i a ≤ j then prev n i else i

theorem back_add (ha : a < n) (hd : d < n) :
    back n a j ((a + d) % n) = if 1 ≤ d ∧ d ≤ j then (a + (d - 1)) % n else (a + d) % n := by
  rw [back, distance_add ha hd]
  split_ifs with h
  · obtain ⟨d, rfl⟩ : ∃ e, d = e + 1 := ⟨d - 1, by omega⟩
    exact prev_add (Nat.zero_lt_of_lt ha) a d
  · rfl

/-- An entry may stand in the cell `i` at a distance of `d`: it is at its first choice, or behind an
entry that is at most one step better off. -/
def MayStand (n : ℕ) (placed : ℕ → Prop) (far : ℕ → ℕ) (i d : ℕ) : Prop :=
  0 < d → placed (prev n i) ∧ d ≤ far (prev n i) + 1

def Orderly (n : ℕ) (placed : ℕ → Prop) (far : ℕ → ℕ) : Prop :=
  ∀ i < n, placed i → MayStand n placed far i (far i)

variable {placed placed' : ℕ → Prop} {far far' : ℕ → ℕ}

theorem MayStand.zero : MayStand n placed far i 0 := fun h => absurd h (lt_irrefl 0)

theorem MayStand.mono {e : ℕ} (h : MayStand n placed far i d) (he : e ≤ d) :
    MayStand n placed far i e := fun h0 =>
  ⟨(h (h0.trans_le he)).1, he.trans (h (h0.trans_le he)).2⟩

theorem MayStand.next (hi : i < n) (hp : placed i) (hd : d ≤ far i + 1) :
    MayStand n placed far (next n i) d := fun _ => by
  rw [prev_next hi]
  exact ⟨hp, hd⟩

theorem Orderly.congr (h : Orderly n placed far) (hp : ∀ i < n, placed' i ↔ placed i)
    (hf : ∀ i < n, placed i → far' i = far i) : Orderly n placed' far' := by
  intro i hi hpi h0
  have hpi' := (hp i hi).mp hpi
  rw [hf i hi hpi'] at h0 ⊢
  obtain ⟨hq, hle⟩ := h i hi hpi' h0
  rw [hp _ (prev_lt hi), hf _ (prev_lt hi) hq]
  exact ⟨hq, hle⟩

theorem Orderly.lt_distance (h : Orderly n placed far) (hf : f < n) (hpf : ¬ placed f) :
    ∀ {d i : ℕ}, i < n → f ≠ i → MayStand n placed far i d → d < distance n i f
  | 0, i, hi, hne, _ => Nat.pos_of_ne_zero fun h0 => hne ((distance_eq_zero hf).mp h0).symm
  | d + 1, i, hi, hne, hs => by
    obtain ⟨hp, hle⟩ := hs (Nat.succ_pos d)
    have hback := (h _ (prev_lt hi) hp).mono (Nat.le_of_succ_le_succ hle)
    have hlt := h.lt_distance hf hpf (prev_lt hi) (fun he => hpf (he ▸ hp)) hback
    have hstep := distance_prev hi hf fun h0 => hne ((distance_eq_zero hf).mp h0).symm
    omega

theorem Orderly.between (h : Orderly n placed far) (ha : a < n) : ∀ {i : ℕ}, i < n → placed i →
    far i = distance n i a → ∀ {j : ℕ}, j ≤ far i →
    placed ((a + j) % n) ∧ j ≤ far ((a + j) % n) := by
  suffices hback : ∀ m i, i < n → placed i → ∀ d, distance n i a = d + m → d + m ≤ far i →
      placed ((a + d) % n) ∧ d ≤ far ((a + d) % n) by
    intro i hi hp he j hj
    exact hback (far i - j) i hi hp j (by omega) (by omega)
  intro m
  induction m with
  | zero =>
    intro i hi hp d hd hle
    rw [← Nat.add_zero d, ← hd, add_distance hi ha]
    exact ⟨hp, hd ▸ hle⟩
  | succ m ih =>
    intro i hi hp d hd hle
    obtain ⟨hq, hq'⟩ := h i hi hp (by omega)
    have hstep := distance_prev hi ha (by omega)
    exact ih _ (prev_lt hi) hq d (by omega) (by omega)

theorem Orderly.set (h : Orderly n placed far) (hi : i < n) (hd : MayStand n placed far i d)
    (hp : placed i → far i ≤ d) :
    Orderly n (fun j => j = i ∨ placed j) (Function.update far i d) := by
  intro j hj hpj h0
  by_cases hji : j = i
  · subst hji
    rw [Function.update_self] at h0 ⊢
    obtain ⟨hq, hle⟩ := hd h0
    refine ⟨.inr hq, ?_⟩
    by_cases he : prev n j = j
    · rw [he, Function.update_self]
      omega
    · rwa [Function.update_of_ne he]
  · rw [Function.update_of_ne hji] at h0 ⊢
    obtain ⟨hq, hle⟩ := h j hj (hpj.resolve_left hji) h0
    refine ⟨.inr hq, ?_⟩
    by_cases he : prev n j = i
    · rw [he, Function.update_self]
      exact hle.trans (Nat.succ_le_succ (he ▸ hp (he ▸ hq)))
    · rwa [Function.update_of_ne he]

theorem Orderly.shift (h : Orderly n placed far) (hi : i < n) (hp : placed i)
    (hpn : placed (next n i)) :
    Orderly n placed (Function.update far i (far (next n i) - 1)) := by
  intro j hj hpj h0
  have hnext := h _ (next_lt hi) hpn
  by_cases hji : j = i
  · subst hji
    rw [Function.update_self] at h0 ⊢
    have hle := (hnext (by omega)).2
    rw [prev_next hi] at hle
    obtain ⟨hq, hq'⟩ := h j hj hp (by omega)
    refine ⟨hq, ?_⟩
    by_cases he : prev n j = j
    · rw [he, Function.update_self]
      omega
    · rw [Function.update_of_ne he]
      omega
  · rw [Function.update_of_ne hji] at h0 ⊢
    obtain ⟨hq, hle⟩ := h j hj hpj h0
    refine ⟨hq, ?_⟩
    by_cases he : prev n j = i
    · rw [he, Function.update_self]
      have hn : next n i = j := (next_eq_iff hi hj).mpr he
      rw [hn]
      omega
    · rwa [Function.update_of_ne he]

theorem Orderly.erase (h : Orderly n placed far) (hi : i < n)
    (hstop : placed (next n i) → far (next n i) = 0) :
    Orderly n (fun j => j ≠ i ∧ placed j) far := by
  rintro j hj ⟨hne, hp⟩ h0
  obtain ⟨hq, hle⟩ := h j hj hp h0
  refine ⟨⟨fun he => ?_, hq⟩, hle⟩
  have hn : next n i = j := (next_eq_iff hi hj).mpr he
  rw [hn] at hstop
  rw [hstop hp] at h0
  exact lt_irrefl 0 h0

end Lib.Probe
