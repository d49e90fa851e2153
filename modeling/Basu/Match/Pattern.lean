import Basu.Match.Tree
import Mathlib.Order.Defs.Unbundled

/-! The pattern tests of match rules against the relations they decide: one string is below another
one in the namespace order, or one of two strings ends in the separator and starts the other. -/

namespace Basu
open Lib

def namespaceComplexPattern (pattern value : Str) : Bool :=
  complexPatternCheck charDot false pattern value

section
variable {α : Type*} (sep : α)

def BelowInNamespace (a b : List α) : Prop :=
  a = b ∨ ∃ x t, b = a ++ x :: t ∧ (x = sep ∨ a.getLast? = some sep)

def SeparatedPrefix (a b : List α) : Prop := a.getLast? = some sep ∧ a <+: b

variable {sep}

theorem belowInNamespace_refl (a : List α) : BelowInNamespace sep a a := Or.inl rfl

theorem BelowInNamespace.trans {a b d : List α} (hab : BelowInNamespace sep a b)
    (hbd : BelowInNamespace sep b d) : BelowInNamespace sep a d := by
  rcases hab with rfl | ⟨x, t, rfl, hx⟩
  · exact hbd
  · refine Or.inr ?_
    rcases hbd with rfl | ⟨y, u, rfl, -⟩
    · exact ⟨x, t, rfl, hx⟩
    · exact ⟨x, t ++ y :: u, by simp, hx⟩

end

def endsIn (c : UInt8) (separator : Bool) (a : Str) : Prop :=
  match a.getLast? with
  | none => separator = true
  | some x => x = c

theorem endsIn_nil (c : UInt8) (separator : Bool) : endsIn c separator [] ↔ separator = true :=
  Iff.rfl

theorem endsIn_cons (c : UInt8) (separator : Bool) (x : UInt8) (a : Str) :
    endsIn c separator (x :: a) ↔ endsIn c (x = c) a := by
  unfold endsIn
  rw [List.getLast?_cons]
  cases a.getLast? with
  | none => simp
  | some y => rfl

theorem endsIn_false (c : UInt8) (a : Str) : endsIn c false a ↔ a.getLast? = some c := by
  unfold endsIn
  cases a.getLast? with
  | none => simp
  | some y => simp

theorem simplePatternCheck_iff (c : UInt8) (separator : Bool) (a b : Str) :
    simplePatternCheck c separator a b = true ↔
      a = b ∨ ∃ x t, b = a ++ x :: t ∧ (x = c ∨ endsIn c separator a) := by
  induction a generalizing separator b with
  | nil =>
    cases b with
    | nil => simp [simplePatternCheck]
    | cons x t => simp [simplePatternCheck, endsIn_nil]
  | cons x a ih =>
    cases b with
    | nil => simp [simplePatternCheck]
    | cons y b =>
      rw [simplePatternCheck]
      by_cases hxy : x = y
      · subst hxy
        rw [if_neg (fun h => h rfl), ih]
        simp only [List.cons.injEq, true_and, List.cons_append, endsIn_cons]
      · rw [if_pos hxy]
        simp [hxy, Ne.symm hxy]

theorem complexPatternCheck_iff (c : UInt8) (separator : Bool) (a b : Str) :
    complexPatternCheck c separator a b = true ↔
      a = b ∨ (endsIn c separator a ∧ a <+: b) ∨ (endsIn c separator b ∧ b <+: a) := by
  induction a generalizing separator b with
  | nil =>
    cases b with
    | nil => simp [complexPatternCheck]
    | cons x t => simp [complexPatternCheck, endsIn_nil]
  | cons x a ih =>
    cases b with
    | nil => simp [complexPatternCheck, endsIn_nil]
    | cons y b =>
      rw [complexPatternCheck]
      by_cases hxy : x = y
      · subst hxy
        rw [if_neg (fun h => h rfl), ih]
        simp only [List.cons.injEq, true_and, endsIn_cons, List.prefix_cons_inj]
      · rw [if_pos hxy]
        simp [List.cons_prefix_cons, hxy, Ne.symm hxy]

theorem simplePattern_iff (c : UInt8) (a b : Str) :
    simplePatternCheck c false a b = true ↔ BelowInNamespace c a b := by
  simp only [simplePatternCheck_iff, endsIn_false, BelowInNamespace]

theorem complexPattern_iff (c : UInt8) (a b : Str) :
    complexPatternCheck c false a b = true ↔
      a = b ∨ SeparatedPrefix c a b ∨ SeparatedPrefix c b a := by
  simp only [complexPatternCheck_iff, endsIn_false, SeparatedPrefix]

theorem simplePattern_preorder (c : UInt8) :
    IsPreorder Str fun a b => simplePatternCheck c false a b = true where
  refl a := (simplePattern_iff c a a).mpr (belowInNamespace_refl a)
  trans a b d hab hbd := by
    rw [simplePattern_iff] at hab hbd ⊢
    exact hab.trans hbd

theorem complexPattern_symm (c : UInt8) :
    Std.Symm fun a b => complexPatternCheck c false a b = true where
  symm a b h := by
    rw [complexPattern_iff] at h ⊢
    rcases h with rfl | h | h
    · exact Or.inl rfl
    · exact Or.inr (Or.inr h)
    · exact Or.inr (Or.inl h)

/-- Each test decides its relation; the simple ones are preorders and the complex ones do not care
which string is the pattern. -/
theorem patterns_exact :
    (∀ a b : Str,
      (pathComplexPattern a b = true ↔
        a = b ∨ SeparatedPrefix charSlash a b ∨ SeparatedPrefix charSlash b a) ∧
      (namespaceComplexPattern a b = true ↔
        a = b ∨ SeparatedPrefix charDot a b ∨ SeparatedPrefix charDot b a) ∧
      (pathSimplePattern a b = true ↔ BelowInNamespace charSlash a b) ∧
      (namespaceSimplePattern a b = true ↔ BelowInNamespace charDot a b)) ∧
    (IsPreorder Str fun a b => pathSimplePattern a b = true) ∧
    (IsPreorder Str fun a b => namespaceSimplePattern a b = true) ∧
    (Std.Symm fun a b => pathComplexPattern a b = true) ∧
    Std.Symm fun a b => namespaceComplexPattern a b = true :=
  ⟨fun a b => ⟨complexPattern_iff charSlash a b, complexPattern_iff charDot a b,
      simplePattern_iff charSlash a b, simplePattern_iff charDot a b⟩,
    simplePattern_preorder charSlash, simplePattern_preorder charDot,
    complexPattern_symm charSlash, complexPattern_symm charDot⟩

end Basu
