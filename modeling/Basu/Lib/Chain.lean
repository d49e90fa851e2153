import Mathlib.Data.List.Nodup

/-! Doubly linked lists whose members name their neighbours, by an index or a pointer. -/

namespace Lib

variable {ι : Type*} {next prev next' prev' : ι → ι} {l m : List ι} {p q i j x : ι}

/-- The members of the list point to their neighbours in it, the first one back to `p` and the
last one on to `q`. -/
def Chained (next prev : ι → ι) : ι → List ι → ι → Prop
  | _, [], _ => True
  | p, i :: l, q => prev i = p ∧ next i = l.headD q ∧ Chained next prev i l q

namespace Chained

theorem append_iff : ∀ {p : ι} {l : List ι}, Chained next prev p (l ++ m) q ↔
    Chained next prev p l (m.headD q) ∧ Chained next prev (l.getLastD p) m q
  | p, [] => by simp only [List.nil_append, Chained, true_and, List.getLastD_nil]
  | p, i :: l => by
    have hhead : (l ++ m).headD q = l.headD (m.headD q) := by cases l <;> rfl
    rw [List.cons_append, Chained, Chained, append_iff, hhead, List.getLastD_cons, and_assoc,
      and_assoc]

theorem map (f : ι → ι) : ∀ {p : ι} {l : List ι}, Chained next prev p l q →
    (∀ i ∈ l, next' (f i) = f (next i) ∧ prev' (f i) = f (prev i)) →
    Chained next' prev' (f p) (l.map f) (f q)
  | _, [], _, _ => trivial
  | p, i :: l, ⟨hp, hn, h⟩, hf => by
    obtain ⟨hfn, hfp⟩ := hf i (List.mem_cons_self ..)
    refine ⟨by rw [hfp, hp], by rw [hfn, hn, List.headD_map], map f h fun j hj => ?_⟩
    exact hf j (List.mem_cons_of_mem _ hj)

theorem congr (h : Chained next prev p l q) (hl : ∀ i ∈ l, next' i = next i ∧ prev' i = prev i) :
    Chained next' prev' p l q := by
  simpa only [List.map_id, id_eq] using h.map id hl

theorem next_mem : ∀ {p : ι} {l : List ι}, Chained next prev p l q → i ∈ l →
    next i ∈ l ∨ next i = q
  | _, a :: l, ⟨_, hn, h⟩, hi => by
    rcases List.mem_cons.mp hi with rfl | hi
    · cases l with
      | nil => exact .inr hn
      | cons b l => exact .inl (hn ▸ List.mem_cons_of_mem _ (List.mem_cons_self ..))
    · exact (next_mem h hi).imp_left (List.mem_cons_of_mem _)

theorem prev_mem : ∀ {p : ι} {l : List ι}, Chained next prev p l q → i ∈ l →
    prev i ∈ l ∨ prev i = p
  | _, a :: l, ⟨hp, _, h⟩, hi => by
    rcases List.mem_cons.mp hi with rfl | hi
    · exact .inr hp
    · rcases prev_mem h hi with hm | he
      · exact .inl (List.mem_cons_of_mem _ hm)
      · exact .inl (he ▸ List.mem_cons_self ..)

theorem split (h : Chained next prev p (l ++ i :: m) q) :
    prev i = l.getLastD p ∧ next i = m.headD q := by
  obtain ⟨-, hp, hn, -⟩ := append_iff.mp h
  exact ⟨hp, hn⟩

theorem next_eq_iff (h : Chained next prev p l q) (hn : l.Nodup) (hp : p ∉ l) (hq : q ∉ l)
    (hi : i ∈ l) (hj : j ∈ l) : next i = j ↔ prev j = i := by
  constructor
  · intro he
    obtain ⟨as, bs, rfl⟩ := List.append_of_mem hi
    have hnext := h.split.2
    cases bs with
    | nil =>
      have hqj : q = j := hnext.symm.trans he
      exact absurd (hqj ▸ hj) hq
    | cons b bs =>
      obtain rfl : b = j := hnext.symm.trans he
      rw [← List.singleton_append, ← List.append_assoc] at h
      simpa using h.split.1
  · intro he
    obtain ⟨as, bs, rfl⟩ := List.append_of_mem hj
    have hprev := h.split.1
    rcases List.eq_nil_or_concat as with rfl | ⟨as, a, rfl⟩
    · have hpi : p = i := hprev.symm.trans he
      exact absurd (hpi ▸ hi) hp
    · obtain rfl : a = i := by simpa [hprev] using he
      rw [List.concat_eq_append, List.append_assoc, List.singleton_append] at h
      exact h.split.2

theorem next_ne (h : Chained next prev p l q) (hn : l.Nodup) (hq : q ∉ l) (hi : i ∈ l) :
    next i ≠ i := by
  obtain ⟨as, bs, rfl⟩ := List.append_of_mem hi
  rw [h.split.2]
  cases bs with
  | nil =>
    intro he
    have hqi : q = i := he
    exact hq (hqi ▸ hi)
  | cons b bs =>
    intro he
    have hbi : b = i := he
    have hnd := (List.nodup_cons.mp (List.nodup_append.mp hn).2.1).1
    exact hnd (hbi ▸ List.mem_cons_self ..)

theorem prev_ne (h : Chained next prev p l q) (hn : l.Nodup) (hp : p ∉ l) (hq : q ∉ l)
    (hi : i ∈ l) : prev i ≠ i := fun he =>
  h.next_ne hn hq hi ((h.next_eq_iff hn hp hq hi hi).mpr he)

theorem getLastD_append_cons : ∀ (l : List ι) (p : ι), (l ++ i :: m).getLastD p = m.getLastD i
  | [], _ => List.getLastD_cons
  | a :: l, _ => by rw [List.cons_append, List.getLastD_cons, getLastD_append_cons l a]

theorem next_eq_end (h : Chained next prev p l q) (hn : l.Nodup) (hq : q ∉ l) (hi : i ∈ l) :
    next i = q ↔ i = l.getLastD p := by
  obtain ⟨as, bs, rfl⟩ := List.append_of_mem hi
  rw [h.split.2, getLastD_append_cons]
  cases bs with
  | nil => exact iff_of_true rfl rfl
  | cons b bs =>
    rw [List.getLastD_cons]
    refine iff_of_false (fun he => hq ?_) fun he => ?_
    · have hbq : b = q := he
      exact hbq ▸ List.mem_append_right _ (List.mem_cons_of_mem _ (List.mem_cons_self ..))
    · have hlast : bs.getLastD b ∈ b :: bs := List.getLastD_mem_cons ..
      exact (List.nodup_cons.mp (List.nodup_append.mp hn).2.1).1 (he ▸ hlast)

theorem retarget [DecidableEq ι] : ∀ {p : ι} {l : List ι}, Chained next prev p l q → q ∉ l →
    (∀ i ∈ l, next' i = (if next i = q then x else next i) ∧ prev' i = prev i) →
    Chained next' prev' p l x
  | _, [], _, _, _ => trivial
  | _, i :: l, ⟨hp, hn, h⟩, hq, hl => by
    obtain ⟨hi, hpi⟩ := hl i (List.mem_cons_self ..)
    refine ⟨hpi.trans hp, ?_, retarget h (fun hm => hq (List.mem_cons_of_mem _ hm))
      fun j hj => hl j (List.mem_cons_of_mem _ hj)⟩
    cases l with
    | nil =>
      have hlast : next i = q := hn
      rw [hi, if_pos hlast]
      rfl
    | cons b l =>
      have hb : b ≠ q := fun he => hq (he ▸ List.mem_cons_of_mem _ (List.mem_cons_self ..))
      rw [hi, if_neg (hn ▸ hb), hn]
      rfl

theorem resource [DecidableEq ι] (h : Chained next prev p l q) (hp : p ∉ l)
    (hl : ∀ i ∈ l, prev' i = (if prev i = p then x else prev i) ∧ next' i = next i) :
    Chained next' prev' x l q := by
  cases l with
  | nil => trivial
  | cons i l =>
    obtain ⟨hpi, hn, h⟩ := h
    obtain ⟨hp', hn'⟩ := hl i (List.mem_cons_self ..)
    refine ⟨by rw [hp', if_pos hpi], hn'.trans hn, h.congr fun j hj => ?_⟩
    obtain ⟨hpj, hnj⟩ := hl j (List.mem_cons_of_mem _ hj)
    have hne : prev j ≠ p := by
      rcases h.prev_mem hj with hm | he
      · exact fun he => hp (he ▸ List.mem_cons_of_mem _ hm)
      · exact fun hep => hp ((he.symm.trans hep) ▸ List.mem_cons_self ..)
    exact ⟨hnj, by rw [hpj, if_neg hne]⟩

theorem push [DecidableEq ι] (h : Chained next prev p l q) (hq : q ∉ l)
    (hl : ∀ i ∈ l, next' i = (if next i = q then x else next i) ∧ prev' i = prev i)
    (hx : prev' x = l.getLastD p ∧ next' x = q) : Chained next' prev' p (l ++ [x]) q :=
  append_iff.mpr ⟨h.retarget hq hl, hx.1, hx.2, trivial⟩

theorem unlink [DecidableEq ι] (h : Chained next prev p (l ++ i :: m) q)
    (hn : (l ++ i :: m).Nodup) (hp : p ≠ i) (hq : q ≠ i)
    (hl : ∀ j ∈ l ++ m, next' j = (if next j = i then next i else next j) ∧
      prev' j = (if prev j = i then prev i else prev j)) :
    Chained next' prev' p (l ++ m) q := by
  obtain ⟨hbefore, hpi, hni, hbehind⟩ := append_iff.mp h
  obtain ⟨-, him, hdis⟩ := List.nodup_append.mp hn
  have hil : i ∉ l := fun hi => hdis i hi i (List.mem_cons_self ..) rfl
  have him' : i ∉ m := (List.nodup_cons.mp him).1
  refine append_iff.mpr ⟨?_, ?_⟩
  · refine (hbefore.retarget hil fun j hj => ?_ : Chained next' prev' p l (m.headD q))
    obtain ⟨hn', hp'⟩ := hl j (List.mem_append_left _ hj)
    have hne : prev j ≠ i := by
      rcases hbefore.prev_mem hj with hm | he
      · exact fun he => hil (he ▸ hm)
      · exact fun hei => hp (he.symm.trans hei)
    refine ⟨?_, by rw [hp', if_neg hne]⟩
    rw [hn', hni]
    rfl
  · refine hbehind.resource him' fun j hj => ?_
    obtain ⟨hn', hp'⟩ := hl j (List.mem_append_right _ hj)
    have hne : next j ≠ i := by
      rcases hbehind.next_mem hj with hm | he
      · exact fun he => him' (he ▸ hm)
      · exact fun hei => hq (he.symm.trans hei)
    exact ⟨by rw [hp', hpi], by rw [hn', if_neg hne]⟩

end Chained
end Lib
