import Mathlib.Logic.Function.Basic
import Mathlib.Algebra.Order.Group.Nat
import Mathlib.Algebra.Order.Group.Int

/-! A priority queue kept as a binary heap in an array, which tells each of its items where it
is. -/

namespace Lib
open Function

/-- The items are the first `nItems` of the array; `idx` is the place kept for an item. -/
structure Prioq (α : Type*) where
  nItems : Nat
  items : Nat → α
  idx : α → Nat

namespace Prioq

variable {α : Type*} [DecidableEq α]

def swap (q : Prioq α) (j k : Nat) : Prioq α :=
  { q with
    items := update (update q.items j (q.items k)) k (q.items j)
    idx := update (update q.idx (q.items k) j) (q.items j) k }

/-- The loop of `shuffle_up`; every turn halves the position. -/
def shuffleUp (cmp : α → α → Int) : Nat → Prioq α → Nat → Prioq α
  | 0, q, _ => q
  | fuel + 1, q, i =>
    if i = 0 then q
    else if cmp (q.items ((i - 1) / 2)) (q.items i) ≤ 0 then q
    else shuffleUp cmp fuel (q.swap i ((i - 1) / 2)) ((i - 1) / 2)

def smallest (cmp : α → α → Int) (q : Prioq α) (i : Nat) : Nat :=
  let s := if cmp (q.items (2 * i + 1)) (q.items i) < 0 then 2 * i + 1 else i
  if 2 * i + 2 < q.nItems ∧ cmp (q.items (2 * i + 2)) (q.items s) < 0 then 2 * i + 2 else s

def shuffleDown (cmp : α → α → Int) : Nat → Prioq α → Nat → Prioq α × Nat
  | 0, q, i => (q, i)
  | fuel + 1, q, i =>
    if q.nItems ≤ 2 * i + 1 then (q, i)
    else if q.smallest cmp i = i then (q, i)
    else shuffleDown cmp fuel (q.swap i (q.smallest cmp i)) (q.smallest cmp i)

def put (cmp : α → α → Int) (q : Prioq α) (x : α) : Prioq α :=
  shuffleUp cmp q.nItems
    { nItems := q.nItems + 1, items := update q.items q.nItems x, idx := update q.idx x q.nItems }
    q.nItems

def replaceLast (q : Prioq α) (k : Nat) : Prioq α :=
  let l := q.items (q.nItems - 1)
  { nItems := q.nItems - 1, items := update q.items k l, idx := update q.idx l k }

def removeItem (cmp : α → α → Int) (q : Prioq α) (k : Nat) : Prioq α :=
  if k = q.nItems - 1 then { q with nItems := q.nItems - 1 }
  else
    let (q, k) := shuffleDown cmp q.nItems (q.replaceLast k) k
    shuffleUp cmp k q k

def remove (cmp : α → α → Int) (q : Prioq α) (x : α) : Prioq α :=
  if q.idx x < q.nItems ∧ q.items (q.idx x) = x then q.removeItem cmp (q.idx x) else q

def peek (q : Prioq α) : Option α := if q.nItems = 0 then none else some (q.items 0)

def pop (cmp : α → α → Int) (q : Prioq α) : Prioq α :=
  if q.nItems = 0 then q else q.removeItem cmp 0

def Mem (q : Prioq α) (x : α) : Prop := ∃ i < q.nItems, q.items i = x

def Indexed (q : Prioq α) : Prop := ∀ i < q.nItems, q.idx (q.items i) = i

def Ordered (cmp : α → α → Int) (q : Prioq α) : Prop :=
  ∀ i, 0 < i → i < q.nItems → cmp (q.items ((i - 1) / 2)) (q.items i) ≤ 0

structure IsCompare (cmp : α → α → Int) : Prop where
  flip : ∀ a b, cmp a b < 0 ↔ 0 < cmp b a
  trans : ∀ a b c, cmp a b ≤ 0 → cmp b c ≤ 0 → cmp a c ≤ 0

omit [DecidableEq α] in
theorem IsCompare.le_of_not_lt {cmp : α → α → Int} (h : IsCompare cmp) {a b : α}
    (hab : ¬ cmp a b < 0) : cmp b a ≤ 0 := by
  have := h.flip a b
  omega

omit [DecidableEq α] in
theorem IsCompare.le_of_not_le {cmp : α → α → Int} (h : IsCompare cmp) {a b : α}
    (hab : ¬ cmp a b ≤ 0) : cmp b a ≤ 0 := by
  have := h.flip b a
  omega

section Swap

variable {q : Prioq α} {j k : Nat}

theorem swap_items (q : Prioq α) (j k i : Nat) :
    (q.swap j k).items i = if i = k then q.items j else if i = j then q.items k else q.items i := by
  simp only [swap, update_apply]

omit [DecidableEq α] in
theorem Indexed.inj (h : q.Indexed) (hj : j < q.nItems) (hk : k < q.nItems)
    (heq : q.items j = q.items k) : j = k := by
  rw [← h j hj, heq, h k hk]

theorem Indexed.swap (h : q.Indexed) (hj : j < q.nItems) (hk : k < q.nItems) :
    (q.swap j k).Indexed := by
  intro i hi
  rw [swap_items]
  simp only [Prioq.swap, update_apply]
  by_cases hik : i = k
  · rw [if_pos hik, if_pos rfl, hik]
  · rw [if_neg hik]
    by_cases hij : i = j
    · rw [if_pos hij]
      by_cases hsame : q.items k = q.items j
      · exact absurd (hij.trans (h.inj hk hj hsame).symm) hik
      · rw [if_neg hsame, if_pos rfl, hij]
    · rw [if_neg hij, if_neg fun heq => hij (h.inj hi hj heq), if_neg fun heq => hik (h.inj hi hk heq)]
      exact h i hi

theorem mem_swap (hj : j < q.nItems) (hk : k < q.nItems) (x : α) :
    (q.swap j k).Mem x ↔ q.Mem x := by
  constructor
  · rintro ⟨i, hi, rfl⟩
    rw [swap_items]
    split
    · exact ⟨j, hj, rfl⟩
    · split
      · exact ⟨k, hk, rfl⟩
      · exact ⟨i, hi, rfl⟩
  · rintro ⟨i, hi, rfl⟩
    by_cases hij : i = j
    · exact ⟨k, hk, by rw [swap_items, if_pos rfl, hij]⟩
    · by_cases hik : i = k
      · refine ⟨j, hj, ?_⟩
        rw [swap_items, if_pos rfl, hik]
        split
        · rename_i hjk
          exact congrArg q.items hjk
        · rfl
      · exact ⟨i, hi, by rw [swap_items, if_neg hik, if_neg hij]⟩

end Swap

/-- All items but the one at `k` are behind their parents, and its children are behind its
parent. -/
structure UpOrdered (cmp : α → α → Int) (q : Prioq α) (k : Nat) : Prop where
  others : ∀ i, 0 < i → i < q.nItems → i ≠ k → cmp (q.items ((i - 1) / 2)) (q.items i) ≤ 0
  across : 0 < k → ∀ c, 0 < c → c < q.nItems → (c - 1) / 2 = k →
    cmp (q.items ((k - 1) / 2)) (q.items c) ≤ 0

/-- The same, with nothing said of the children of the item either. -/
structure DownOrdered (cmp : α → α → Int) (q : Prioq α) (k : Nat) : Prop where
  others : ∀ i, 0 < i → i < q.nItems → i ≠ k → (i - 1) / 2 ≠ k →
    cmp (q.items ((i - 1) / 2)) (q.items i) ≤ 0
  across : 0 < k → ∀ c, 0 < c → c < q.nItems → (c - 1) / 2 = k →
    cmp (q.items ((k - 1) / 2)) (q.items c) ≤ 0

section Shuffle

variable {cmp : α → α → Int} (hcmp : IsCompare cmp)
include hcmp

theorem UpOrdered.swap {q : Prioq α} {k : Nat} (h : UpOrdered cmp q k) (hk : 0 < k)
    (hkn : k < q.nItems) (hlt : ¬ cmp (q.items ((k - 1) / 2)) (q.items k) ≤ 0) :
    UpOrdered cmp (q.swap k ((k - 1) / 2)) ((k - 1) / 2) := by
  have hswap := swap_items q k ((k - 1) / 2)
  -- the old parent is behind its own parent and in front of its other child
  have hparent : 0 < (k - 1) / 2 →
      cmp (q.items (((k - 1) / 2 - 1) / 2)) (q.items ((k - 1) / 2)) ≤ 0 :=
    fun hp => h.others _ hp (by omega) (by omega)
  constructor
  · intro i hi hin hne
    rw [hswap, hswap, if_neg hne]
    by_cases hik : i = k
    · rw [if_pos hik, hik, if_pos rfl]
      exact hcmp.le_of_not_le hlt
    · rw [if_neg hik]
      by_cases hpk : (i - 1) / 2 = k
      · rw [hpk, if_neg (by omega), if_pos rfl]
        exact h.across hk i hi hin hpk
      · by_cases hpp : (i - 1) / 2 = (k - 1) / 2
        · rw [if_pos hpp]
          have := h.others i hi hin hik
          rw [hpp] at this
          exact hcmp.trans _ _ _ (hcmp.le_of_not_le hlt) this
        · rw [if_neg hpp, if_neg hpk]
          exact h.others i hi hin hik
  · intro hp c hc hcn hcp
    rw [hswap, hswap, if_neg (by omega), if_neg (by omega), if_neg (by omega)]
    by_cases hck : c = k
    · rw [if_pos hck]
      exact hparent hp
    · rw [if_neg hck]
      have := h.others c hc hcn hck
      rw [hcp] at this
      exact hcmp.trans _ _ _ (hparent hp) this

omit hcmp in
theorem DownOrdered.swap {q : Prioq α} {k s : Nat} (h : DownOrdered cmp q k) (hs : 0 < s)
    (hsn : s < q.nItems) (hsk : (s - 1) / 2 = k)
    (hmin : ∀ c, 0 < c → c < q.nItems → (c - 1) / 2 = k → cmp (q.items s) (q.items c) ≤ 0) :
    DownOrdered cmp (q.swap k s) s := by
  have hswap := swap_items q k s
  constructor
  · intro i hi hin his hip
    rw [hswap, hswap, if_neg hip, if_neg his]
    by_cases hik : i = k
    · rw [if_neg (by omega), if_pos hik, hik]
      exact h.across (by omega) s hs hsn hsk
    · rw [if_neg hik]
      by_cases hpk : (i - 1) / 2 = k
      · rw [if_pos hpk]
        exact hmin i hi hin hpk
      · rw [if_neg hpk]
        exact h.others i hi hin hik hpk
  · intro _ c hc hcn hcs
    rw [hswap, hswap, if_neg (by omega), if_pos hsk, if_neg (by omega), if_neg (by omega)]
    have := h.others c hc hcn (by omega) (by omega)
    rw [hcs] at this
    exact this

theorem shuffleUp_ordered (fuel : Nat) : ∀ {q : Prioq α} {k : Nat}, k ≤ fuel → k < q.nItems ∨ k = 0 →
    UpOrdered cmp q k → Ordered cmp (shuffleUp cmp fuel q k) := by
  induction fuel with
  | zero =>
    intro q k hk _ h i hi hin
    exact h.others i hi hin (by omega)
  | succ fuel ih =>
    intro q k hk hkn h
    simp only [shuffleUp]
    split
    · rename_i h0
      exact fun i hi hin => h.others i hi hin (by omega)
    · rename_i h0
      split
      · rename_i hle
        intro i hi hin
        by_cases hik : i = k
        · rw [hik]
          exact hle
        · exact h.others i hi hin hik
      · rename_i hlt
        refine ih (by omega) (Or.inl ?_) (h.swap hcmp (by omega) (by omega) hlt)
        simp only [Prioq.swap]
        omega

omit [DecidableEq α] in
theorem smallest_spec (q : Prioq α) {k : Nat} (hk : 2 * k + 1 < q.nItems) :
    (q.smallest cmp k = k ∨ 0 < q.smallest cmp k ∧ q.smallest cmp k < q.nItems ∧
      (q.smallest cmp k - 1) / 2 = k) ∧
    ∀ c, 0 < c → c < q.nItems → (c - 1) / 2 = k →
      cmp (q.items (q.smallest cmp k)) (q.items c) ≤ 0 := by
  have hself : ∀ a, cmp a a ≤ 0 := fun a => by
    have := hcmp.flip a a
    omega
  have hchild : ∀ c, 0 < c → (c - 1) / 2 = k → c = 2 * k + 1 ∨ c = 2 * k + 2 := by
    intro c _ _
    omega
  unfold smallest
  simp only
  -- the left child first, then the right one against the smaller of the two
  by_cases hl : cmp (q.items (2 * k + 1)) (q.items k) < 0
  · rw [if_pos hl]
    split
    · rename_i hr
      refine ⟨Or.inr ⟨by omega, hr.1, by omega⟩, fun c hc hcn hck => ?_⟩
      rcases hchild c hc hck with rfl | rfl
      · omega
      · exact hself _
    · rename_i hr
      refine ⟨Or.inr ⟨by omega, hk, by omega⟩, fun c hc hcn hck => ?_⟩
      rcases hchild c hc hck with rfl | rfl
      · exact hself _
      · exact hcmp.le_of_not_lt fun hlt => hr ⟨hcn, hlt⟩
  · rw [if_neg hl]
    split
    · rename_i hr
      refine ⟨Or.inr ⟨by omega, hr.1, by omega⟩, fun c hc hcn hck => ?_⟩
      rcases hchild c hc hck with rfl | rfl
      · exact hcmp.trans _ _ _ (le_of_lt hr.2) (hcmp.le_of_not_lt hl)
      · exact hself _
    · rename_i hr
      refine ⟨Or.inl rfl, fun c hc hcn hck => ?_⟩
      rcases hchild c hc hck with rfl | rfl
      · exact hcmp.le_of_not_lt hl
      · exact hcmp.le_of_not_lt fun hlt => hr ⟨hcn, hlt⟩

theorem shuffleDown_ordered (fuel : Nat) : ∀ {q : Prioq α} {k : Nat}, q.nItems ≤ fuel + k →
    DownOrdered cmp q k →
    UpOrdered cmp (shuffleDown cmp fuel q k).1 (shuffleDown cmp fuel q k).2 := by
  -- where the loop ends, the item is in front of its children
  have hstop : ∀ {q : Prioq α} {k : Nat}, DownOrdered cmp q k →
      (∀ c, 0 < c → c < q.nItems → (c - 1) / 2 = k → cmp (q.items k) (q.items c) ≤ 0) →
      UpOrdered cmp q k := by
    intro q k h hchildren
    refine ⟨fun i hi hin hik => ?_, h.across⟩
    by_cases hpk : (i - 1) / 2 = k
    · rw [hpk]
      exact hchildren i hi hin hpk
    · exact h.others i hi hin hik hpk
  induction fuel with
  | zero =>
    intro q k hfuel h
    exact hstop (q := q) (k := k) h fun c hc hcn hck => by omega
  | succ fuel ih =>
    intro q k hfuel h
    simp only [shuffleDown]
    split
    · exact hstop (q := q) (k := k) h fun c hc hcn hck => by omega
    · rename_i hk
      obtain ⟨hplace, hmin⟩ := smallest_spec hcmp q (not_le.mp hk)
      split
      · rename_i hs
        rw [hs] at hmin
        exact hstop h hmin
      · rename_i hs
        rcases hplace with hs' | ⟨hs0, hsn, hsk⟩
        · exact absurd hs' hs
        · refine ih ?_ (h.swap hs0 hsn hsk hmin)
          simp only [Prioq.swap]
          omega

end Shuffle

structure SameItems (q q' : Prioq α) : Prop where
  nItems : q'.nItems = q.nItems
  mem : ∀ x, q'.Mem x ↔ q.Mem x
  indexed : q.Indexed → q'.Indexed

omit [DecidableEq α] in
theorem SameItems.refl (q : Prioq α) : SameItems q q := ⟨rfl, fun _ => Iff.rfl, id⟩

omit [DecidableEq α] in
theorem SameItems.trans {q q' q'' : Prioq α} (h : SameItems q q') (h' : SameItems q' q'') :
    SameItems q q'' :=
  ⟨h'.nItems.trans h.nItems, fun x => (h'.mem x).trans (h.mem x), fun hi => h'.indexed (h.indexed hi)⟩

theorem sameItems_swap {q : Prioq α} {j k : Nat} (hj : j < q.nItems) (hk : k < q.nItems) :
    SameItems q (q.swap j k) :=
  ⟨rfl, mem_swap hj hk, fun h => h.swap hj hk⟩

theorem sameItems_shuffleUp (cmp : α → α → Int) (fuel : Nat) : ∀ (q : Prioq α) (k : Nat),
    k < q.nItems ∨ k = 0 → SameItems q (shuffleUp cmp fuel q k) := by
  induction fuel with
  | zero => exact fun q k _ => SameItems.refl q
  | succ fuel ih =>
    intro q k hk
    simp only [shuffleUp]
    split
    · exact SameItems.refl q
    · split
      · exact SameItems.refl q
      · refine (sameItems_swap (by omega) (by omega)).trans (ih _ _ (Or.inl ?_))
        simp only [Prioq.swap]
        omega

theorem sameItems_shuffleDown {cmp : α → α → Int} (hcmp : IsCompare cmp) (fuel : Nat) :
    ∀ (q : Prioq α) (k : Nat), k < q.nItems → SameItems q (shuffleDown cmp fuel q k).1 ∧
      (shuffleDown cmp fuel q k).2 < q.nItems := by
  induction fuel with
  | zero => exact fun q k hk => ⟨SameItems.refl q, hk⟩
  | succ fuel ih =>
    intro q k hk
    simp only [shuffleDown]
    split
    · exact ⟨SameItems.refl q, hk⟩
    · rename_i hchild
      split
      · exact ⟨SameItems.refl q, hk⟩
      · rename_i hs
        rcases (smallest_spec hcmp q (not_le.mp hchild)).1 with hs' | ⟨-, hsn, -⟩
        · exact absurd hs' hs
        · obtain ⟨hsame, hlt⟩ := ih (q.swap k (q.smallest cmp k)) (q.smallest cmp k) hsn
          exact ⟨(sameItems_swap hk hsn).trans hsame, hlt⟩

structure Valid (cmp : α → α → Int) (q : Prioq α) : Prop where
  indexed : q.Indexed
  ordered : q.Ordered cmp

omit [DecidableEq α] in
theorem Indexed.mem_iff {q : Prioq α} (h : q.Indexed) (x : α) :
    q.Mem x ↔ q.idx x < q.nItems ∧ q.items (q.idx x) = x := by
  constructor
  · rintro ⟨i, hi, rfl⟩
    rw [h i hi]
    exact ⟨hi, rfl⟩
  · rintro ⟨hlt, heq⟩
    exact ⟨_, hlt, heq⟩

omit [DecidableEq α] in
theorem Valid.congr {cmp cmp' : α → α → Int} {q : Prioq α} (h : q.Valid cmp)
    (hle : ∀ x y, q.Mem x → q.Mem y → cmp x y ≤ 0 → cmp' x y ≤ 0) : q.Valid cmp' :=
  ⟨h.indexed, fun i hi hin => hle _ _ ⟨_, by omega, rfl⟩ ⟨_, hin, rfl⟩ (h.ordered i hi hin)⟩

section Operations

variable {cmp : α → α → Int} (hcmp : IsCompare cmp) {q : Prioq α}
include hcmp

theorem Valid.put (h : q.Valid cmp) {x : α} (hx : ¬ q.Mem x) :
    (q.put cmp x).Valid cmp ∧ ∀ y, (q.put cmp x).Mem y ↔ y = x ∨ q.Mem y := by
  let q' : Prioq α :=
    { nItems := q.nItems + 1, items := update q.items q.nItems x, idx := update q.idx x q.nItems }
  have hput : q.put cmp x = shuffleUp cmp q.nItems q' q.nItems := rfl
  have hlast : q'.items q.nItems = x := update_self _ _ _
  have hother : ∀ i, i < q.nItems → q'.items i = q.items i :=
    fun i hi => update_of_ne (by omega) _ _
  have hsame := sameItems_shuffleUp cmp q.nItems q' q.nItems (Or.inl (Nat.lt_succ_self _))
  rw [hput]
  refine ⟨⟨hsame.indexed fun i hi => ?_, shuffleUp_ordered hcmp _ le_rfl
    (Or.inl (Nat.lt_succ_self _)) ⟨fun i hi hin hne => ?_, fun _ c hc hcn hck => ?_⟩⟩, fun y => ?_⟩
  · by_cases hin : i = q.nItems
    · rw [hin, hlast]
      exact update_self _ _ _
    · have hi' : i < q.nItems := lt_of_le_of_ne (Nat.lt_succ_iff.mp hi) hin
      rw [hother i hi']
      exact (update_of_ne (fun heq => hx ⟨i, hi', heq⟩) _ _).trans (h.indexed i hi')
  · have hi' : i < q.nItems := lt_of_le_of_ne (Nat.lt_succ_iff.mp hin) hne
    rw [hother i hi', hother _ (by omega)]
    exact h.ordered i hi hi'
  · have : c < q.nItems + 1 := hcn
    omega
  · rw [hsame.mem]
    constructor
    · rintro ⟨i, hi, rfl⟩
      by_cases hin : i = q.nItems
      · rw [hin]
        exact Or.inl hlast
      · have hi' : i < q.nItems := lt_of_le_of_ne (Nat.lt_succ_iff.mp hi) hin
        exact Or.inr ⟨i, hi', (hother i hi').symm⟩
    · rintro (rfl | ⟨i, hi, rfl⟩)
      · exact ⟨q.nItems, Nat.lt_succ_self _, hlast⟩
      · exact ⟨i, Nat.lt_succ_of_lt hi, hother i hi⟩

omit hcmp in
theorem replaceLast_items (k i : Nat) :
    (q.replaceLast k).items i = if i = k then q.items (q.nItems - 1) else q.items i :=
  update_apply _ _ _ _

omit hcmp in
theorem mem_replaceLast (h : q.Indexed) {k : Nat} (hk : k < q.nItems - 1) (y : α) :
    (q.replaceLast k).Mem y ↔ q.Mem y ∧ y ≠ q.items k := by
  constructor
  · rintro ⟨i, hi, rfl⟩
    have hi : i < q.nItems - 1 := hi
    rw [replaceLast_items]
    split
    · refine ⟨⟨q.nItems - 1, by omega, rfl⟩, fun heq => ?_⟩
      have := h.inj (by omega) (by omega) heq
      omega
    · rename_i hik
      exact ⟨⟨i, by omega, rfl⟩, fun heq => hik (h.inj (by omega) (by omega) heq)⟩
  · rintro ⟨⟨i, hi, rfl⟩, hne⟩
    by_cases hlast : i = q.nItems - 1
    · refine ⟨k, hk, ?_⟩
      rw [hlast]
      exact update_self _ _ _
    · refine ⟨i, ?_, update_of_ne (fun heq => hne (by rw [heq])) _ _⟩
      change i < q.nItems - 1
      omega

omit hcmp in
theorem put_nItems (cmp : α → α → Int) (q : Prioq α) (x : α) :
    (q.put cmp x).nItems = q.nItems + 1 :=
  (sameItems_shuffleUp cmp _ _ _ (Or.inl (Nat.lt_succ_self _))).nItems

theorem removeItem_nItems_le {k : Nat} (hk : k < q.nItems) :
    (q.removeItem cmp k).nItems ≤ q.nItems := by
  unfold Prioq.removeItem
  split
  · exact Nat.sub_le _ _
  · have hk' : k < (q.replaceLast k).nItems := by
      change k < q.nItems - 1
      omega
    obtain ⟨hsame, hlt⟩ := sameItems_shuffleDown hcmp q.nItems (q.replaceLast k) k hk'
    generalize shuffleDown cmp q.nItems (q.replaceLast k) k = r at hsame hlt
    have hup := sameItems_shuffleUp cmp r.2 r.1 r.2 (Or.inl (hsame.nItems ▸ hlt))
    exact (hup.nItems.trans hsame.nItems).le.trans (Nat.sub_le _ _)

theorem Valid.removeItem (h : q.Valid cmp) {k : Nat} (hk : k < q.nItems) :
    (q.removeItem cmp k).Valid cmp ∧ ∀ y, (q.removeItem cmp k).Mem y ↔ q.Mem y ∧ y ≠ q.items k := by
  unfold Prioq.removeItem
  split
  · rename_i hlast
    refine ⟨⟨fun i hi => h.indexed i (by simp only at hi; omega),
      fun i hi hin => h.ordered i hi (by simp only at hin; omega)⟩, fun y => ⟨?_, ?_⟩⟩
    · rintro ⟨i, hi, rfl⟩
      simp only at hi
      refine ⟨⟨i, by omega, rfl⟩, fun heq => ?_⟩
      have := h.indexed.inj (by omega) hk heq
      omega
    · rintro ⟨⟨i, hi, rfl⟩, hne⟩
      refine ⟨i, ?_, rfl⟩
      change i < q.nItems - 1
      have : i ≠ k := fun heq => hne (by rw [heq])
      omega
  · rename_i hlast
    have hk' : k < q.nItems - 1 := by omega
    have hitems := replaceLast_items (q := q) k
    have hindexed : (q.replaceLast k).Indexed := by
      intro i hi
      have hi : i < q.nItems - 1 := hi
      rw [hitems]
      split
      · rename_i hik
        rw [hik]
        exact update_self _ _ _
      · refine (update_of_ne (fun heq => ?_) _ _).trans (h.indexed i (by omega))
        have := h.indexed.inj (by omega) (by omega) heq
        omega
    -- the items above and below the hole are in order across it
    have hdown : DownOrdered cmp (q.replaceLast k) k := by
      refine ⟨fun i hi hin hik hpk => ?_, fun hk0 c hc hcn hck => ?_⟩
      · have hin : i < q.nItems - 1 := hin
        rw [hitems, hitems, if_neg hpk, if_neg hik]
        exact h.ordered i hi (by omega)
      · have hcn : c < q.nItems - 1 := hcn
        rw [hitems, hitems, if_neg (by omega), if_neg (by omega)]
        have hchild := h.ordered c hc (by omega)
        rw [hck] at hchild
        exact hcmp.trans _ _ _ (h.ordered k hk0 hk) hchild
    obtain ⟨hsame, hlt⟩ := sameItems_shuffleDown hcmp q.nItems (q.replaceLast k) k hk'
    have hup := shuffleDown_ordered hcmp q.nItems (q := q.replaceLast k)
      (by simp only [Prioq.replaceLast]; omega) hdown
    generalize shuffleDown cmp q.nItems (q.replaceLast k) k = r at hsame hlt hup
    obtain ⟨q', k'⟩ := r
    have hlt' : k' < q'.nItems := by rw [hsame.nItems]; exact hlt
    have hsame' := hsame.trans (sameItems_shuffleUp cmp k' q' k' (Or.inl hlt'))
    refine ⟨⟨hsame'.indexed hindexed, shuffleUp_ordered hcmp k' le_rfl (Or.inl hlt') hup⟩,
      fun y => (hsame'.mem y).trans (mem_replaceLast h.indexed hk' y)⟩

theorem Valid.remove (h : q.Valid cmp) (x : α) :
    (q.remove cmp x).Valid cmp ∧ ∀ y, (q.remove cmp x).Mem y ↔ q.Mem y ∧ y ≠ x := by
  unfold Prioq.remove
  split
  · rename_i hx
    have := h.removeItem hcmp hx.1
    rw [hx.2] at this
    exact this
  · rename_i hx
    refine ⟨h, fun y => ⟨fun hy => ⟨hy, ?_⟩, fun hy => hy.1⟩⟩
    rintro rfl
    exact hx ((h.indexed.mem_iff y).mp hy)

omit [DecidableEq α] in
theorem Ordered.root_le (h : q.Ordered cmp) : ∀ i < q.nItems, cmp (q.items 0) (q.items i) ≤ 0 := by
  intro i
  induction i using Nat.strongRecOn with
  | ind i ih =>
    intro hi
    rcases Nat.eq_zero_or_pos i with rfl | hpos
    · exact hcmp.le_of_not_lt fun hlt => absurd ((hcmp.flip _ _).mp hlt) (not_lt.mpr hlt.le)
    · exact hcmp.trans _ _ _ (ih ((i - 1) / 2) (by omega) (by omega)) (h i hpos hi)

omit hcmp [DecidableEq α] in
theorem mem_of_peek {x : α} (hx : q.peek = some x) : q.Mem x := by
  unfold Prioq.peek at hx
  split at hx
  · exact absurd hx (by simp)
  · rename_i hn
    exact ⟨0, Nat.pos_of_ne_zero hn, Option.some.inj hx⟩

omit hcmp in
theorem pop_eq_remove (h : q.Indexed) {x : α} (hx : q.peek = some x) :
    q.pop cmp = q.remove cmp x := by
  unfold Prioq.peek at hx
  split at hx
  · exact absurd hx (by simp)
  · rename_i hn
    obtain rfl := Option.some.inj hx
    have h0 := h 0 (Nat.pos_of_ne_zero hn)
    rw [Prioq.pop, Prioq.remove, if_neg hn, h0, if_pos ⟨Nat.pos_of_ne_zero hn, rfl⟩]

end Operations

end Prioq
end Lib
