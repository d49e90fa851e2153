import Basu.Socket.Size

/-! Growing an array in steps (`alloc-util.c`), in the arithmetic of `size_t`. -/

namespace Basu

/-! ## `greedy_realloc` -/

structure Block where
  ptr : Option Nat
  allocated : Nat
  held : Nat
  deriving DecidableEq, Repr

/-- The pointer that is returned, `NULL` being `none`. -/
def greedyRealloc (z : SizeT) (realloc : Option Nat → Nat → Option Nat) (b : Block)
    (need size : Nat) : Option Nat × Block :=
  if need ≤ b.allocated then (b.ptr, b)
  else
    let newalloc := max (z.wrap (need * 2)) (64 / size)
    let a := z.wrap (newalloc * size)
    if a < z.wrap (size * need) then (none, b)
    else match realloc b.ptr a with
      | none => (none, b)
      | some q => (some q, ⟨some q, newalloc, a⟩)

structure Roomy (size : Nat) extends Block where
  room : allocated * size ≤ held

/-- Whatever `realloc` does: enough room behind the pointer on success, and no change without. -/
def GrowsRight (z : SizeT) (b : Block) (need size : Nat) : Prop :=
  ∀ realloc, match greedyRealloc z realloc b need size with
    | (some _, b') => need * size ≤ b'.held ∧ need ≤ b'.allocated ∧ b'.allocated * size ≤ b'.held
    | (none, b') => b'.ptr = b.ptr ∧ b'.allocated = b.allocated

section
variable {z : SizeT} {need size : Nat}

theorem SizeT.wrap_lt (n : Nat) : z.wrap n < z.modulus := Nat.mod_lt _ (by cases z <;> decide)

theorem SizeT.wrap_of_lt {n : Nat} (h : n < z.modulus) : z.wrap n = n := Nat.mod_eq_of_lt h

theorem SizeT.wrap_wrap_mul (n m : Nat) : z.wrap (z.wrap n * m) = z.wrap (n * m) :=
  Nat.mod_mul_mod n m z.modulus

theorem SizeT.wrap_double (n : Nat) :
    z.wrap n ≤ z.wrap (2 * n) ↔ 2 * z.wrap n < z.modulus := by
  cases z <;> simp only [SizeT.wrap, SizeT.modulus] <;> omega

theorem SizeT.wrap_double_of_lt {n : Nat} (h : 2 * z.wrap n < z.modulus) :
    z.wrap (2 * n) = 2 * z.wrap n := by
  cases z <;> simp only [SizeT.wrap, SizeT.modulus] at h ⊢ <;> omega

theorem smallest_le (size : Nat) : 64 / size * size ≤ 64 := Nat.div_mul_le_self 64 size

theorem passes_iff :
    z.wrap (size * need) ≤ z.wrap (max (z.wrap (need * 2)) (64 / size) * size) ↔
      2 * z.wrap (need * size) < z.modulus := by
  have hdouble : z.wrap (z.wrap (need * 2) * size) = z.wrap (2 * (need * size)) := by
    rw [SizeT.wrap_wrap_mul, Nat.mul_comm need 2, Nat.mul_assoc]
  have hsmall : 64 / size * size ≤ 64 := smallest_le size
  have hmod : 128 < z.modulus := by cases z <;> decide
  rw [Nat.mul_comm size need]
  by_cases hmax : 64 / size ≤ z.wrap (need * 2)
  · rw [Nat.max_eq_left hmax, hdouble, SizeT.wrap_double]
  · rw [Nat.max_eq_right (by omega), SizeT.wrap_of_lt (n := 64 / size * size) (by omega)]
    have hle : z.wrap (need * 2) * size ≤ 64 / size * size := Nat.mul_le_mul_right _ (by omega)
    constructor
    · intro h
      omega
    · intro h
      -- The doubled product is below the smallest block, so it did not wrap.
      rw [SizeT.wrap_of_lt (by omega), SizeT.wrap_double_of_lt h] at hdouble
      omega

theorem grown_of_lt (hsize : 0 < size) (h : need * size < z.modulus)
    (hpass : 2 * z.wrap (need * size) < z.modulus) :
    need ≤ max (z.wrap (need * 2)) (64 / size) ∧
      max (z.wrap (need * 2)) (64 / size) * size < z.modulus := by
  rw [SizeT.wrap_of_lt h] at hpass
  have hneed : need ≤ need * size := Nat.le_mul_of_pos_right need hsize
  have hsmall := smallest_le size
  have hmod : 128 < z.modulus := by cases z <;> decide
  rw [SizeT.wrap_of_lt (by omega)]
  refine ⟨by omega, ?_⟩
  obtain hmax | hmax := Nat.le_total (64 / size) (need * 2)
  · rw [Nat.max_eq_left hmax, Nat.mul_comm need 2, Nat.mul_assoc]
    exact hpass
  · rw [Nat.max_eq_right hmax]
    omega

end

/-- The block is right if there is room already, the product fits, or the test sees that it does not
because the wrapped product is in the upper half. -/
theorem growsRight_iff {z : SizeT} {need size : Nat} (hsize : 0 < size) (b : Roomy size) :
    GrowsRight z b.toBlock need size ↔
      need ≤ b.allocated ∨ need * size < z.modulus ∨
        z.modulus ≤ 2 * z.wrap (need * size) := by
  constructor
  · intro h
    by_contra hcon
    rw [not_or, not_or, Nat.not_le, Nat.not_lt, Nat.not_le] at hcon
    obtain ⟨hneed, hlarge, hpass⟩ := hcon
    have hgrows := h fun _ _ => some 0
    rw [greedyRealloc, if_neg (by omega)] at hgrows
    dsimp only at hgrows
    rw [if_neg (Nat.not_lt.mpr (passes_iff.mpr hpass))] at hgrows
    have hlt := Nat.lt_of_le_of_lt hgrows.1 (SizeT.wrap_lt _)
    omega
  · intro h realloc
    rw [greedyRealloc]
    split_ifs with hneed
    · cases hptr : b.ptr with
      | none => exact ⟨hptr, rfl⟩
      | some q => exact ⟨(Nat.mul_le_mul_right size hneed).trans b.room, hneed, b.room⟩
    · dsimp only
      split_ifs with htest
      · exact ⟨rfl, rfl⟩
      · cases realloc b.ptr _ with
        | none => exact ⟨rfl, rfl⟩
        | some q =>
          have hpass := passes_iff.mp (Nat.not_lt.mp htest)
          have hfits : need * size < z.modulus := by omega
          obtain ⟨hle, hroom⟩ := grown_of_lt hsize hfits hpass
          dsimp only
          rw [SizeT.wrap_of_lt hroom]
          exact ⟨Nat.mul_le_mul_right size hle, hle, Nat.le_refl _⟩

def noBlock (size : Nat) : Roomy size := ⟨⟨none, 0, 0⟩, by rw [Nat.zero_mul]⟩

theorem growsRight_hundred : GrowsRight .w32 (noBlock 8).toBlock 100 8 :=
  (growsRight_iff (by decide) (noBlock 8)).mpr (.inr (.inl (by decide)))

/-- For eight bytes more than can be counted, both products wrap: sixteen bytes are asked for. -/
theorem not_growsRight : ¬ ∀ (z : SizeT) (need size : Nat) (b : Roomy size), 0 < size →
    GrowsRight z b.toBlock need size := by
  intro h
  have hgrows := h .w32 (2 ^ 29 + 1) 8 (noBlock 8) (by decide) fun _ _ => some 0
  exact absurd hgrows.1 (by decide)

end Basu
