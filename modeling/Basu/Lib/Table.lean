import Mathlib.Data.List.Nodup
import Mathlib.Data.List.Sublists

/-! Two notions about lists. A table holds one entry for each key, the key being part of the entry;
a list of keys is grouped when equal ones are neighbours. -/

namespace Lib.Table

variable {α κ : Type*} [DecidableEq κ] (key : α → κ)

def get (t : List α) (k : κ) : Option α := t.find? (fun x => decide (key x = k))

def put (t : List α) (x : α) : Option (List α) :=
  match get key t (key x) with
  | some _ => none
  | none => some (x :: t)

def remove (t : List α) (k : κ) : List α := t.filter (fun x => decide (key x ≠ k))

def Keyed (t : List α) : Prop := (t.map key).Nodup

variable {key} {t t' : List α} {x y : α} {k : κ}

theorem get_eq_none : get key t k = none ↔ ∀ x ∈ t, key x ≠ k := by
  simp only [get, List.find?_eq_none, decide_eq_true_eq]

theorem mem_of_get (h : get key t k = some x) : x ∈ t ∧ key x = k := by
  refine ⟨List.mem_of_find?_eq_some h, ?_⟩
  have hk := List.find?_some h
  exact of_decide_eq_true hk

omit [DecidableEq κ] in
theorem Keyed.inj (h : Keyed key t) (hx : x ∈ t) (hy : y ∈ t) (hk : key x = key y) : x = y :=
  List.inj_on_of_nodup_map h hx hy hk

theorem Keyed.get_eq_some (h : Keyed key t) : get key t k = some x ↔ x ∈ t ∧ key x = k := by
  refine ⟨mem_of_get, fun ⟨hx, hk⟩ => ?_⟩
  rcases hg : get key t k with _ | y
  · exact absurd hk (get_eq_none.mp hg x hx)
  · obtain ⟨hy, hky⟩ := mem_of_get hg
    rw [h.inj hy hx (hky.trans hk.symm)]

theorem put_eq_some (h : put key t x = some t') : t' = x :: t ∧ ∀ y ∈ t, key y ≠ key x := by
  unfold put at h
  split at h
  · exact absurd h (by simp)
  · next hg => exact ⟨(Option.some.inj h).symm, get_eq_none.mp hg⟩

theorem put_eq_none : put key t x = none ↔ ∃ y ∈ t, key y = key x := by
  unfold put
  split
  · next y hg => simpa using ⟨y, mem_of_get hg⟩
  · next hg => simpa using get_eq_none.mp hg

theorem Keyed.put (h : Keyed key t) (hp : put key t x = some t') : Keyed key t' := by
  obtain ⟨rfl, hx⟩ := put_eq_some hp
  unfold Keyed
  rw [List.map_cons, List.nodup_cons]
  refine ⟨fun hm => ?_, h⟩
  obtain ⟨y, hy, hk⟩ := List.mem_map.mp hm
  exact hx y hy hk

theorem mem_remove : x ∈ remove key t k ↔ x ∈ t ∧ key x ≠ k := by
  simp only [remove, List.mem_filter, decide_eq_true_eq]

theorem Keyed.remove (h : Keyed key t) (k : κ) : Keyed key (remove key t k) :=
  h.sublist (List.filter_sublist.map key)

theorem Keyed.perm_remove (h : Keyed key t) (hx : x ∈ t) :
    (x :: Table.remove key t (key x)).Perm t := by
  have hnodup : t.Nodup := List.Nodup.of_map key h
  rw [List.perm_ext_iff_of_nodup (List.nodup_cons.mpr ⟨fun hm => (mem_remove.mp hm).2 rfl,
    hnodup.sublist List.filter_sublist⟩) hnodup]
  intro y
  rw [List.mem_cons, mem_remove]
  constructor
  · rintro (rfl | ⟨hy, -⟩)
    · exact hx
    · exact hy
  · intro hy
    by_cases hk : key y = key x
    · exact Or.inl (h.inj hy hx hk)
    · exact Or.inr ⟨hy, hk⟩

end Lib.Table

namespace Lib

variable {κ : Type*} {l l' l₁ l₂ : List κ} {k : κ}

/-- Equal keys are neighbours: nothing else stands between two of them. -/
def Grouped (l : List κ) : Prop := ∀ a b, [a, b, a].Sublist l → b = a

theorem grouped_nil : Grouped ([] : List κ) := by
  intro a b h
  exact absurd (List.eq_nil_of_sublist_nil h) (by simp)

theorem Grouped.sublist (h : Grouped l) (hs : l'.Sublist l) : Grouped l' :=
  fun a b hab => h a b (hab.trans hs)

theorem Grouped.cons (h : Grouped l) (hk : k ∉ l) : Grouped (k :: l) := by
  intro a b hab
  rcases List.sublist_cons_iff.mp hab with hs | ⟨r, hr, hs⟩
  · exact h a b hs
  · obtain ⟨rfl, rfl⟩ := List.cons.inj hr
    exact absurd (hs.subset (by simp)) hk

theorem Grouped.insert (h : Grouped (l₁ ++ k :: l₂)) : Grouped (l₁ ++ k :: k :: l₂) := by
  intro a b hab
  by_contra hne
  obtain ⟨r₁, r₂, he, h₁, h₂⟩ := List.sublist_append_iff.mp hab
  -- Two neighbours of `[a, b, a]` differ, so at most one of the two copies of `k` is used.
  refine hne (h a b ?_)
  rw [he]
  refine List.Sublist.append h₁ ?_
  rcases List.sublist_cons_iff.mp h₂ with hs | ⟨r, rfl, hs⟩
  · exact hs
  rcases List.sublist_cons_iff.mp hs with hs' | ⟨r', rfl, hs'⟩
  · exact hs'.cons_cons k
  · exfalso
    rcases r₁ with _ | ⟨x, _ | ⟨y, r₁⟩⟩
    · obtain ⟨ha, hb, -⟩ : a = k ∧ b = k ∧ _ := by simpa using he
      exact hne (hb.trans ha.symm)
    · obtain ⟨-, hb, ha, -⟩ : a = x ∧ b = k ∧ a = k ∧ _ := by simpa using he
      exact hne (hb.trans ha.symm)
    · have hl := congrArg List.length he
      simp only [List.length_append, List.length_cons, List.length_nil] at hl
      omega

end Lib
