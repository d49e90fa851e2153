import Mathlib.Data.List.Induction

/-! A list that is filled at a counter which wraps: what was put in last starts it anew. -/

namespace Lib

section
variable {α : Type*} {n : Nat}

/-- The next element at a counter that wraps at `n`. -/
def pushWrap (n : Nat) (l : List α) (x : α) : List α := if l.length + 1 = n then [] else l ++ [x]

def sinceWrap (n : Nat) (l : List α) : List α := l.drop (l.length / n * n)

theorem length_sinceWrap (l : List α) : (sinceWrap n l).length = l.length % n := by
  unfold sinceWrap
  rw [List.length_drop, Nat.mod_eq_sub_div_mul]

theorem sinceWrap_of_lt {l : List α} (h : l.length < n) : sinceWrap n l = l := by
  unfold sinceWrap
  rw [Nat.div_eq_of_lt h, Nat.zero_mul, List.drop_zero]

theorem sinceWrap_append (hn : 0 < n) (l : List α) (x : α) :
    sinceWrap n (l ++ [x]) = pushWrap n (sinceWrap n l) x := by
  have hmod := Nat.mod_lt l.length hn
  have hdiv := Nat.div_add_mod l.length n
  rw [Nat.mul_comm] at hdiv
  unfold pushWrap
  rw [length_sinceWrap]
  unfold sinceWrap
  rw [List.length_append, List.length_singleton]
  split_ifs with hlast
  · have hsucc : (l.length + 1) / n = l.length / n + 1 := by
      apply Nat.div_eq_of_lt_le <;> simp only [Nat.add_mul, Nat.one_mul] <;> omega
    rw [hsucc, Nat.add_mul, List.drop_of_length_le]
    rw [List.length_append, List.length_singleton]
    omega
  · have hsame : (l.length + 1) / n = l.length / n := by
      apply Nat.div_eq_of_lt_le
      · omega
      · rw [Nat.add_mul]
        omega
    rw [hsame, List.drop_append_of_le_length (by omega)]

theorem foldl_pushWrap (hn : 0 < n) (l : List α) : l.foldl (pushWrap n) [] = sinceWrap n l := by
  induction l using List.reverseRecOn with
  | nil => simp [sinceWrap]
  | append_singleton l x ih =>
    rw [List.foldl_append, ih, List.foldl_cons, List.foldl_nil, sinceWrap_append hn]

end

end Lib
