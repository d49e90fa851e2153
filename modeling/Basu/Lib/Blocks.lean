import Basu.Lib.Bytes

/-! A list that is read in blocks of `k` elements, where what is left over waits for the next piece:
it makes no difference in which pieces the list comes. -/

namespace Lib

section
variable {α σ : Type*} {step : σ → List α → σ} {k : Nat}

def takeBlocks (step : σ → List α → σ) (k : Nat) : Nat → σ → List α → σ
  | 0, s, _ => s
  | n + 1, s, xs => takeBlocks step k n (step s (xs.take k)) (xs.drop k)

def absorb (step : σ → List α → σ) (k : Nat) (s : σ) (xs : List α) : σ × List α :=
  (takeBlocks step k (xs.length / k) s xs, xs.drop (xs.length / k * k))

theorem takeBlocks_add (m n : Nat) : ∀ (s : σ) (xs : List α),
    takeBlocks step k (m + n) s xs =
      takeBlocks step k n (takeBlocks step k m s xs) (xs.drop (m * k)) := by
  induction m with
  | zero =>
    intro s xs
    rw [Nat.zero_add, Nat.zero_mul, List.drop_zero, takeBlocks]
  | succ m ih =>
    intro s xs
    rw [Nat.add_right_comm, takeBlocks, takeBlocks, ih, List.drop_drop, Nat.succ_mul,
      Nat.add_comm k]

theorem takeBlocks_append (n : Nat) : ∀ (s : σ) {xs : List α} (ys : List α), n * k ≤ xs.length →
    takeBlocks step k n s (xs ++ ys) = takeBlocks step k n s xs := by
  induction n with
  | zero => exact fun _ _ _ _ => rfl
  | succ n ih =>
    intro s xs ys h
    rw [Nat.succ_mul] at h
    rw [takeBlocks, takeBlocks, List.take_append_of_le_length (by omega),
      List.drop_append_of_le_length (by omega), ih _ ys (by rw [List.length_drop]; omega)]

theorem takeBlocks_eq_foldl (n : Nat) : ∀ (s : σ) (xs : List α),
    takeBlocks step k n s xs =
      ((List.range n).map fun i => (xs.drop (i * k)).take k).foldl step s := by
  induction n with
  | zero => exact fun _ _ => rfl
  | succ n ih =>
    intro s xs
    have hnext : (fun i => ((xs.drop k).drop (i * k)).take k) =
        fun i => (xs.drop ((i + 1) * k)).take k := by
      funext i
      rw [List.drop_drop, Nat.succ_mul, Nat.add_comm k]
    rw [takeBlocks, ih, hnext, List.range_succ_eq_map, List.map_cons, List.foldl_cons,
      Nat.zero_mul, List.drop_zero, List.map_map]
    rfl

theorem absorb_of_lt {s : σ} {xs : List α} (h : xs.length < k) : absorb step k s xs = (s, xs) := by
  rw [absorb, Nat.div_eq_of_lt h, Nat.zero_mul, List.drop_zero]
  rfl

theorem absorb_eq (hk : 0 < k) {n : Nat} (s : σ) {xs : List α} (h : n * k ≤ xs.length) :
    absorb step k s xs = absorb step k (takeBlocks step k n s xs) (xs.drop (n * k)) := by
  have hdiv : xs.length / k = n + (xs.drop (n * k)).length / k := by
    have hn := (Nat.le_div_iff_mul_le hk).mpr h
    rw [List.length_drop, Nat.mul_comm n k, Nat.sub_mul_div]
    omega
  rw [absorb, hdiv, takeBlocks_add, Nat.add_mul, ← List.drop_drop]
  rfl

theorem length_absorb (s : σ) (xs : List α) :
    (absorb step k s xs).2.length = xs.length % k := by
  have h := Nat.div_add_mod' xs.length k
  rw [absorb, List.length_drop]
  omega

theorem absorb_append (hk : 0 < k) (s : σ) (xs ys : List α) :
    absorb step k s (xs ++ ys) =
      absorb step k (absorb step k s xs).1 ((absorb step k s xs).2 ++ ys) := by
  have hle : xs.length / k * k ≤ xs.length := Nat.div_mul_le_self _ _
  rw [absorb_eq hk s (n := xs.length / k) (by rw [List.length_append]; omega),
    takeBlocks_append _ _ _ hle, List.drop_append_of_le_length hle]
  rfl

end

end Lib
