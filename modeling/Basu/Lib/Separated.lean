import Mathlib.Data.List.Basic

/-! Lists of elements with a separator between them, and the machine that reads them one symbol at
a time: at the start of an element a symbol has to be one that an element may start with, anywhere
else one that it may contain. -/

namespace Lib

section
variable {α : Type*}

/-- An element is not empty, starts with a symbol of `first` and goes on with symbols of `next`. -/
def IsElement (first next : α → Bool) : List α → Prop
  | [] => False
  | c :: e => first c = true ∧ ∀ x ∈ e, next x = true

variable [DecidableEq α]

def readsElements (sep : α) (first next : α → Bool) : Bool → List α → Bool
  | start, [] => !start
  | start, c :: q =>
    if c = sep then !start && readsElements sep first next true q
    else (if start then first c else next c) && readsElements sep first next false q

variable {sep : α} {first next : α → Bool}

theorem readsElements_iff (start : Bool) (q : List α) :
    readsElements sep first next start q = true ↔
      ∃ e es, q.splitOn sep = e :: es ∧ (∀ u ∈ es, IsElement first next u) ∧
        if start then IsElement first next e else ∀ x ∈ e, next x = true := by
  induction q generalizing start with
  | nil =>
    cases start with
    | true =>
      refine ⟨fun h => absurd h (by simp [readsElements]), ?_⟩
      rintro ⟨e, es, hs, -, he⟩
      obtain ⟨rfl, rfl⟩ := List.cons.inj hs
      exact absurd he (by simp [IsElement])
    | false => exact ⟨fun _ => ⟨[], [], rfl, by simp, by simp⟩, fun _ => rfl⟩
  | cons c q ih =>
    obtain ⟨e, es, hs⟩ := List.exists_cons_of_ne_nil (List.splitOn_ne_nil sep q)
    by_cases hc : c = sep
    · have hsplit : (c :: q).splitOn sep = [] :: e :: es := by
        rw [List.splitOn_cons_eq_if_modifyHead, if_pos (beq_iff_eq.mpr hc), hs]
      rw [readsElements, if_pos hc, Bool.and_eq_true, ih true, hs, hsplit]
      simp only [if_true, List.cons.injEq]
      cases start with
      | true =>
        refine ⟨fun h => absurd h.1 (by simp), ?_⟩
        rintro ⟨e', es', ⟨rfl, -⟩, -, he⟩
        exact absurd he (by simp [IsElement])
      | false =>
        constructor
        · rintro ⟨-, e', es', ⟨rfl, rfl⟩, hes, he⟩
          exact ⟨[], _, ⟨rfl, rfl⟩, by simpa using ⟨he, hes⟩, by simp⟩
        · rintro ⟨e', es', ⟨rfl, rfl⟩, hes, -⟩
          refine ⟨rfl, e, es, ⟨rfl, rfl⟩, fun u hu => hes u (List.mem_cons_of_mem e hu), ?_⟩
          exact hes e List.mem_cons_self
    · have hsplit : (c :: q).splitOn sep = (c :: e) :: es := by
        rw [List.splitOn_cons_eq_if_modifyHead, if_neg (fun h => hc (beq_iff_eq.mp h)), hs,
          List.modifyHead_cons]
      rw [readsElements, if_neg hc, Bool.and_eq_true, ih false, hs, hsplit]
      simp only [Bool.false_eq_true, if_false, List.cons.injEq]
      cases start with
      | true =>
        constructor
        · rintro ⟨hfirst, e', es', ⟨rfl, rfl⟩, hes, he⟩
          exact ⟨c :: e, es, ⟨rfl, rfl⟩, hes, hfirst, he⟩
        · rintro ⟨e', es', ⟨rfl, rfl⟩, hes, he⟩
          exact ⟨he.1, e, es, ⟨rfl, rfl⟩, hes, he.2⟩
      | false =>
        constructor
        · rintro ⟨hnext, e', es', ⟨rfl, rfl⟩, hes, he⟩
          exact ⟨c :: e, es, ⟨rfl, rfl⟩, hes, List.forall_mem_cons.mpr ⟨hnext, he⟩⟩
        · rintro ⟨e', es', ⟨rfl, rfl⟩, hes, he⟩
          obtain ⟨hnext, he⟩ := List.forall_mem_cons.mp he
          exact ⟨hnext, e, es, ⟨rfl, rfl⟩, hes, he⟩

theorem readsElements_true_iff (q : List α) :
    readsElements sep first next true q = true ↔ ∀ e ∈ q.splitOn sep, IsElement first next e := by
  rw [readsElements_iff]
  obtain ⟨e, es, hs⟩ := List.exists_cons_of_ne_nil (List.splitOn_ne_nil sep q)
  rw [hs]
  simp only [if_true, List.cons.injEq, List.forall_mem_cons]
  constructor
  · rintro ⟨e', es', ⟨rfl, rfl⟩, hes, he⟩
    exact ⟨he, hes⟩
  · rintro ⟨he, hes⟩
    exact ⟨e, es, ⟨rfl, rfl⟩, hes, he⟩

theorem mem_of_mem_splitOn {q e : List α} {c : α} (h : e ∈ q.splitOn sep) (hc : c ∈ e) :
    c ∈ q ∧ c ≠ sep := by
  induction q generalizing e with
  | nil =>
    rw [List.mem_singleton.mp h] at hc
    exact absurd hc List.not_mem_nil
  | cons x q ih =>
    rw [List.splitOn_cons_eq_if_modifyHead] at h
    split_ifs at h with hx
    · rcases List.mem_cons.mp h with rfl | h
      · exact absurd hc List.not_mem_nil
      · exact (ih h hc).imp_left (List.mem_cons_of_mem x)
    · obtain ⟨u, us, hs⟩ := List.exists_cons_of_ne_nil (List.splitOn_ne_nil sep q)
      rw [hs, List.modifyHead_cons] at h
      rcases List.mem_cons.mp h with rfl | h
      · rcases List.mem_cons.mp hc with rfl | hc
        · exact ⟨List.mem_cons_self, fun h => hx (beq_iff_eq.mpr h)⟩
        · exact (ih (hs ▸ List.mem_cons_self) hc).imp_left (List.mem_cons_of_mem x)
      · exact (ih (hs ▸ List.mem_cons_of_mem u h) hc).imp_left (List.mem_cons_of_mem x)

theorem two_le_length_splitOn (q : List α) : 2 ≤ (q.splitOn sep).length ↔ sep ∈ q := by
  constructor
  · intro h
    by_contra hn
    rw [List.splitOn_eq_singleton hn] at h
    exact absurd h (by simp)
  · intro h
    obtain ⟨xs, ys, rfl⟩ := List.append_of_mem h
    rw [List.splitOn_append_cons_self, List.length_append]
    have hx := List.length_pos_iff.mpr (List.splitOn_ne_nil sep xs)
    have hy := List.length_pos_iff.mpr (List.splitOn_ne_nil sep ys)
    omega

end

end Lib
