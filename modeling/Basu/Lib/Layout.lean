import Basu.Lib.Bytes
import Mathlib.Order.Bounds.Basic

/-! Members of given sizes and alignments, laid out one after the other: each starts at the first
place that its alignment allows. -/

namespace Lib

def NextAligned (n a x : Nat) : Prop := IsLeast {y | n ≤ y ∧ a ∣ y} x

inductive LaidOut : Nat → List (Nat × Nat) → Nat → Prop
  | nil (n : Nat) : LaidOut n [] n
  | cons {n x k a e : Nat} {ms : List (Nat × Nat)} :
      NextAligned n a x → LaidOut (x + k) ms e → LaidOut n ((k, a) :: ms) e

section
variable {n a x e : Nat} {ms : List (Nat × Nat)}

theorem nextAligned_alignUp (n : Nat) (ha : 0 < a) : NextAligned n a (alignUp n a) := by
  refine ⟨⟨le_alignUp n ha, dvd_alignUp n a⟩, ?_⟩
  rintro y ⟨hle, q, rfl⟩
  have hlt := alignUp_lt n ha
  obtain ⟨p, hp⟩ := dvd_alignUp n a
  rw [hp] at hlt ⊢
  -- a smaller multiple would lie `a` below
  by_contra h
  have hq : a * (q + 1) ≤ a * p := Nat.mul_le_mul_left a (Nat.lt_of_mul_lt_mul_left (not_le.mp h))
  rw [Nat.mul_add, Nat.mul_one] at hq
  omega

theorem nextAligned_iff (ha : 0 < a) : NextAligned n a x ↔ alignUp n a = x :=
  ⟨fun h => (nextAligned_alignUp n ha).unique h, fun h => h ▸ nextAligned_alignUp n ha⟩

theorem NextAligned.self (h : a ∣ n) : NextAligned n a n := ⟨⟨le_rfl, h⟩, fun _ hy => hy.1⟩

theorem laidOut_replicate {k : Nat} (ha : a ∣ k) (i : Nat) (hn : a ∣ n) :
    LaidOut n (List.replicate i (k, a)) (n + i * k) := by
  induction i generalizing n with
  | zero =>
    rw [Nat.zero_mul]
    exact .nil n
  | succ i ih =>
    have htail := ih (Nat.dvd_add hn ha)
    rw [show n + k + i * k = n + (i + 1) * k by rw [Nat.add_mul]; omega] at htail
    exact .cons (NextAligned.self hn) htail

end

end Lib
