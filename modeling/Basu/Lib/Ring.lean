import Mathlib.Data.List.Basic
import Mathlib.Algebra.Order.Group.Nat

/-! Ring buffers that are searched from their first slot on. What has been put in is a list, the
newest element first. -/

namespace Lib

variable {α β κ : Type} {m : Nat}

def ringSlot (m : Nat) : List α → Nat → Option α
  | [], _ => none
  | x :: older, i => if older.length % m = i then some x else ringSlot m older i

/-- Each element is put in with none of its key in a slot in front of its own. -/
def RingOrdered (m : Nat) (key : α → κ) : List α → Prop
  | [] => True
  | x :: older =>
    (∀ i < older.length % m, ∀ y, ringSlot m older i = some y → key y ≠ key x) ∧
      RingOrdered m key older

theorem length_tail {x : α} {older : List α} (a : Nat) :
    (x :: older).length - 1 - (a + 1) = older.length - 1 - a := by
  rw [List.length_cons]
  omega

theorem length_mod_ne {n a : Nat} (ha : a + 1 < m) (hlt : a < n) :
    n % m ≠ (n - 1 - a) % m := by
  intro h
  have hzero := Nat.sub_mod_eq_zero_of_mod_eq h
  rw [show n - (n - 1 - a) = a + 1 by omega, Nat.mod_eq_of_lt ha] at hzero
  omega

theorem ringSlot_of_age : ∀ {h : List α} {a : Nat} {x : α}, a < m → h[a]? = some x →
    ringSlot m h ((h.length - 1 - a) % m) = some x
  | y :: older, 0, x, _, hx => by
    rw [ringSlot, if_pos (by rw [List.length_cons, Nat.add_sub_cancel, Nat.sub_zero])]
    exact hx
  | y :: older, a + 1, x, ha, hx => by
    obtain ⟨hlt, -⟩ := List.getElem?_eq_some_iff.mp hx
    rw [length_tail, ringSlot, if_neg (length_mod_ne ha (Nat.lt_of_succ_lt_succ hlt))]
    exact ringSlot_of_age (by omega) hx

theorem exists_age_of_ringSlot (hm : 0 < m) : ∀ {h : List α} {i : Nat} {x : α},
    ringSlot m h i = some x → ∃ a < m, h[a]? = some x ∧ (h.length - 1 - a) % m = i
  | y :: older, i, x, hx => by
    rw [ringSlot] at hx
    split at hx
    · next hi => exact ⟨0, hm, hx, hi⟩
    · next hi =>
      obtain ⟨a, ham, ha, hslot⟩ := exists_age_of_ringSlot hm hx
      obtain ⟨hlt, -⟩ := List.getElem?_eq_some_iff.mp ha
      refine ⟨a + 1, ?_, ha, by rw [length_tail, hslot]⟩
      by_contra hge
      refine hi ?_
      rw [← hslot, show older.length - 1 - a = older.length - m by omega,
        Nat.mod_eq_sub_mod (by omega)]

theorem RingOrdered.slot_lt {key : α → κ} : ∀ {h : List α} {a b : Nat} {x y : α},
    RingOrdered m key h → a < b → b < m → h[a]? = some x → h[b]? = some y → key y = key x →
      (h.length - 1 - a) % m < (h.length - 1 - b) % m
  | z :: older, 0, b + 1, x, y, hord, _, hb, hx, hy, hkey => by
    obtain rfl := Option.some.inj hx
    have hslot := ringSlot_of_age (Nat.lt_of_succ_lt hb) hy
    have hle : older.length % m ≤ (older.length - 1 - b) % m := by
      by_contra hlt
      exact hord.1 _ (not_le.mp hlt) y hslot hkey
    obtain ⟨hlt, -⟩ := List.getElem?_eq_some_iff.mp hy
    rw [length_tail]
    exact lt_of_le_of_ne hle (length_mod_ne hb (Nat.lt_of_succ_lt_succ hlt))
  | z :: older, a + 1, b + 1, x, y, hord, hab, hb, hx, hy, hkey => by
    rw [length_tail, length_tail]
    exact RingOrdered.slot_lt hord.2 (Nat.lt_of_succ_lt_succ hab) (Nat.lt_of_succ_lt hb) hx hy hkey

theorem find_ring {slots : List β} {record : α → β} {q : β → Bool} {p : α → Bool} {h : List α}
    (hm : 0 < m) (hlen : slots.length = m)
    (hslots : ∀ i (hi : i < slots.length),
      (∃ x, ringSlot m h i = some x ∧ slots[i] = record x) ∨
        ringSlot m h i = none ∧ q slots[i] = false)
    (hq : ∀ x ∈ h, q (record x) = p x)
    (hlt : ∀ {a b x y}, a < b → b < m → h[a]? = some x → h[b]? = some y → p x = true → p y = true →
      (h.length - 1 - a) % m < (h.length - 1 - b) % m) :
    slots.find? q = ((h.take m).find? p).map record := by
  -- a record that is looked for, with its age
  have hage : ∀ i (hi : i < slots.length), q slots[i] = true →
      ∃ a < m, ∃ x, h[a]? = some x ∧ p x = true ∧ (h.length - 1 - a) % m = i := by
    intro i hi hqi
    obtain ⟨x, hx, hrecord⟩ | ⟨-, hnot⟩ := hslots i hi
    · obtain ⟨a, ha, hax, hslot⟩ := exists_age_of_ringSlot hm hx
      rw [hrecord, hq x (List.mem_of_getElem? hax)] at hqi
      exact ⟨a, ha, x, hax, hqi, hslot⟩
    · exact absurd (hqi.symm.trans hnot) Bool.true_eq_false_eq_False
  cases hfind : (h.take m).find? p with
  | none =>
    rw [Option.map_none, List.find?_eq_none]
    intro r hr hqr
    obtain ⟨i, hi, rfl⟩ := List.getElem_of_mem hr
    obtain ⟨a, ha, x, hax, hpx, -⟩ := hage i hi hqr
    have hmem : x ∈ h.take m := List.mem_of_getElem? ((List.getElem?_take_of_lt ha).trans hax)
    exact List.find?_eq_none.mp hfind x hmem hpx
  | some x =>
    obtain ⟨hpx, a, ha, hax, hbefore⟩ := List.find?_eq_some_iff_getElem.mp hfind
    have ham : a < m := lt_of_lt_of_le ha (List.length_take_le _ _)
    have hax' : h[a]? = some x := by
      rw [← hax, List.getElem_take]
      exact List.getElem?_eq_getElem _
    have hs : (h.length - 1 - a) % m < slots.length := (Nat.mod_lt _ hm).trans_eq hlen.symm
    have hrecord : slots[(h.length - 1 - a) % m] = record x := by
      obtain ⟨y, hy, hrecord⟩ | ⟨hnone, -⟩ := hslots _ hs
      · rw [hrecord, Option.some.inj (hy.symm.trans (ringSlot_of_age ham hax'))]
      · exact absurd (hnone.symm.trans (ringSlot_of_age ham hax')) nofun
    rw [Option.map_some, List.find?_eq_some_iff_getElem]
    refine ⟨?_, _, hs, hrecord, fun j hj => ?_⟩
    · rw [hq x (List.mem_of_getElem? hax')]
      exact hpx
    · rw [Bool.not_eq_true', ← Bool.not_eq_true]
      intro hqj
      obtain ⟨b, hbm, y, hby, hpy, hslot⟩ := hage j (hj.trans hs) hqj
      obtain hba | rfl | hab := Nat.lt_trichotomy b a
      · have hb : b < (h.take m).length := hba.trans ha
        have hnot := hbefore b hba
        rw [Bool.not_eq_true', ← Bool.not_eq_true] at hnot
        rw [List.getElem_take, (List.getElem?_eq_some_iff.mp hby).2] at hnot
        exact hnot hpy
      · omega
      · have hlt := hlt hab hbm hax' hby hpx hpy
        omega

end Lib
