import Basu.Lib.Prioq
import Basu.Type

/-! The priority queue: an array of items, each with a pointer to the place that its owner keeps for
its position, or with none. -/

namespace Basu.Prio
open Function

structure PrioqItem (α κ : Type*) where
  data : α
  idx : Option κ
  deriving DecidableEq

/-- The array belongs to the queue up to `nAllocated`; `cells` is the memory that the indices point
into. -/
structure Prioq (α κ : Type*) where
  nItems : Nat
  nAllocated : Nat
  items : Nat → PrioqItem α κ
  cells : κ → Nat

/-- `unsigned` has 32 bits. -/
def unsigned (n : Nat) : Nat := n % 2 ^ 32

def prioqIdxNull : Nat := 2 ^ 32 - 1

variable {α κ : Type*}

namespace Prioq

def isPlaced (q : Prioq α κ) (j : Nat) : Bool :=
  match (q.items j).idx with
  | none => true
  | some c => q.cells c = j

def setIdx [DecidableEq κ] (q : Prioq α κ) (j : Nat) : Prioq α κ :=
  match (q.items j).idx with
  | none => q
  | some c => { q with cells := update q.cells c j }

variable [DecidableEq κ]

def swap (q : Prioq α κ) (j k : Nat) : Option (Prioq α κ) :=
  if j < q.nItems && k < q.nItems && q.isPlaced j && q.isPlaced k then
    some (({ q with items := update (update q.items j (q.items k)) k (q.items j) }.setIdx j).setIdx k)
  else none

/-- The loop of `shuffle_up`; every turn halves the position. -/
def shuffleUpLoop (cmp : α → α → Int) : Nat → Prioq α κ → Nat → Option (Prioq α κ)
  | 0, q, _ => some q
  | fuel + 1, q, idx =>
    if idx = 0 then some q
    else
      let k := (idx - 1) / 2
      if cmp (q.items k).data (q.items idx).data ≤ 0 then some q
      else (q.swap idx k).bind fun q => shuffleUpLoop cmp fuel q k

def shuffleUp (cmp : α → α → Int) (q : Prioq α κ) (idx : Nat) : Option (Prioq α κ) :=
  if idx < q.nItems then shuffleUpLoop cmp idx q idx else none

/-- The loop of `shuffle_down`, and where it ends; there is no result if it takes more turns than
are granted. -/
def shuffleDown (cmp : α → α → Int) : Nat → Prioq α κ → Nat → Option (Prioq α κ × Nat)
  | 0, _, _ => none
  | fuel + 1, q, idx =>
    let k := unsigned ((idx + 1) * 2)
    let j := unsigned (k + (2 ^ 32 - 1))
    if q.nItems ≤ j then some (q, idx)
    else
      let s := if cmp (q.items j).data (q.items idx).data < 0 then j else idx
      let s := if k < q.nItems ∧ cmp (q.items k).data (q.items s).data < 0 then k else s
      if s = idx then some (q, idx)
      else (q.swap idx s).bind fun q => shuffleDown cmp fuel q s

/-- `prioq_put` from where there is room; there is no result where it writes behind the array. -/
def append (cmp : α → α → Int) (q : Prioq α κ) (data : α) (idx : Option κ) : Option (Prioq α κ) :=
  let k := q.nItems
  if k < q.nAllocated then
    shuffleUp cmp (setIdx { q with
      nItems := unsigned (k + 1)
      items := update q.items k ⟨data, idx⟩ } k) k
  else none

/-- `reallocarray` may fail. -/
def prioqPut (cmp : α → α → Int) (memory : Bool) (q : Prioq α κ) (data : α) (idx : Option κ) :
    Option (Except Errno Unit × Prioq α κ) :=
  if q.nAllocated ≤ q.nItems then
    if !memory then some (.error .enomem, q)
    else (append cmp { q with nAllocated := max (unsigned ((q.nItems + 1) * 2)) 16 } data idx).map
      fun q => (.ok (), q)
  else (append cmp q data idx).map fun q => (.ok (), q)

def removeItem (cmp : α → α → Int) (q : Prioq α κ) (i : Nat) : Option (Prioq α κ) :=
  if i = q.nItems - 1 then some { q with nItems := q.nItems - 1 }
  else
    let n := q.nItems
    let q := { { q with items := update q.items i (q.items (n - 1)) }.setIdx i with nItems := n - 1 }
    (shuffleDown cmp (n + 1) q i).bind fun (q, k) => shuffleUp cmp q k

variable [DecidableEq α]

def findItem (q : Prioq α κ) (data : α) (idx : Option κ) : Option Nat :=
  if q.nItems = 0 then none
  else match idx with
    | some c =>
      if q.cells c = prioqIdxNull ∨ q.nItems ≤ q.cells c then none
      else if (q.items (q.cells c)).data ≠ data then none
      else some (q.cells c)
    | none => (List.range q.nItems).find? fun i => (q.items i).data = data

def prioqRemove (cmp : α → α → Int) (q : Prioq α κ) (data : α) (idx : Option κ) :
    Option (Nat × Prioq α κ) :=
  match q.findItem data idx with
  | none => some (0, q)
  | some i => (q.removeItem cmp i).map fun q => (1, q)

def prioqPeek (q : Prioq α κ) : Option α :=
  if q.nItems = 0 then none else some (q.items 0).data

def prioqPop (cmp : α → α → Int) (q : Prioq α κ) : Option (Option α × Prioq α κ) :=
  if q.nItems = 0 then some (none, q)
  else (q.removeItem cmp 0).map fun q' => (some (q.items 0).data, q')

end Prioq

open Lib.Prioq (IsCompare)

def byData (cmp : α → α → Int) (x y : PrioqItem α κ) : Int := cmp x.data y.data

theorem isCompare_byData {cmp : α → α → Int} (hcmp : IsCompare cmp) :
    IsCompare (byData (κ := κ) cmp) :=
  ⟨fun _ _ => hcmp.flip _ _, fun _ _ _ => hcmp.trans _ _ _⟩

/-- The queue has the items of the heap, and the indices are their positions. -/
structure Refines (q : Prioq α κ) (h : Lib.Prioq (PrioqItem α κ)) : Prop where
  nItems : q.nItems = h.nItems
  items : q.items = h.items
  cells : ∀ i < q.nItems, ∀ c, (q.items i).idx = some c → q.cells c = i

section
variable {cmp : α → α → Int} {q : Prioq α κ} {h : Lib.Prioq (PrioqItem α κ)} {i j k : Nat}

theorem Refines.isPlaced (hr : Refines q h) (hj : j < q.nItems) : q.isPlaced j = true := by
  unfold Prioq.isPlaced
  split
  · rfl
  · next c hc => exact decide_eq_true (hr.cells j hj c hc)

theorem Refines.idx_ne (hr : Refines q h) (hi : i < q.nItems) (hj : j < q.nItems) (hij : i ≠ j)
    {c : κ} (hc : (q.items i).idx = some c) : (q.items j).idx ≠ some c := fun hd =>
  hij ((hr.cells i hi c hc).symm.trans (hr.cells j hj c hd))

variable [DecidableEq κ]

@[simp] theorem setIdx_nItems : (q.setIdx j).nItems = q.nItems := by
  unfold Prioq.setIdx
  split <;> rfl

@[simp] theorem setIdx_nAllocated : (q.setIdx j).nAllocated = q.nAllocated := by
  unfold Prioq.setIdx
  split <;> rfl

@[simp] theorem setIdx_items : (q.setIdx j).items = q.items := by
  unfold Prioq.setIdx
  split <;> rfl

theorem setIdx_cells (c : κ) :
    (q.setIdx j).cells c = if (q.items j).idx = some c then j else q.cells c := by
  unfold Prioq.setIdx
  split
  · next hi => rw [if_neg (by rw [hi]; exact nofun)]
  · next d hi =>
    exact (update_apply _ _ _ _).trans (if_congr (by rw [hi, Option.some_inj, eq_comm]) rfl rfl)

variable [DecidableEq α]

theorem Refines.swap (hr : Refines q h) (hj : j < q.nItems) (hk : k < q.nItems) (hjk : j ≠ k) :
    ∃ q', q.swap j k = some q' ∧ Refines q' (h.swap j k) ∧ q'.nAllocated = q.nAllocated := by
  have hassert : (decide (j < q.nItems) && decide (k < q.nItems) && q.isPlaced j &&
      q.isPlaced k) = true := by
    simp only [hj, hk, hr.isPlaced hj, hr.isPlaced hk, decide_true, Bool.and_self]
  refine ⟨_, if_pos hassert, ⟨?_, ?_, fun i hi c hc => ?_⟩, ?_⟩
  · simp only [setIdx_nItems]
    exact hr.nItems
  · simp only [setIdx_items, Lib.Prioq.swap, hr.items]
  · simp only [setIdx_nItems, setIdx_items, setIdx_cells, update_self,
      update_of_ne hjk] at hi hc ⊢
    by_cases hik : i = k
    · rw [hik, update_self] at hc
      rw [if_pos hc, hik]
    rw [update_of_ne hik] at hc
    by_cases hij : i = j
    · rw [hij, update_self] at hc
      rw [if_neg (hr.idx_ne hk hj hjk.symm hc), if_pos hc, hij]
    rw [update_of_ne hij] at hc
    rw [if_neg (hr.idx_ne hi hj hij hc), if_neg (hr.idx_ne hi hk hik hc)]
    exact hr.cells i hi c hc
  · simp only [setIdx_nAllocated]

theorem Refines.shuffleUpLoop (fuel : Nat) : ∀ {q : Prioq α κ} {h : Lib.Prioq (PrioqItem α κ)}
    {idx : Nat}, Refines q h → idx < q.nItems →
    ∃ q', Prioq.shuffleUpLoop cmp fuel q idx = some q' ∧
      Refines q' (Lib.Prioq.shuffleUp (byData cmp) fuel h idx) ∧ q'.nAllocated = q.nAllocated := by
  induction fuel with
  | zero => exact fun hr _ => ⟨_, rfl, hr, rfl⟩
  | succ fuel ih =>
    intro q h idx hr hidx
    simp only [Prioq.shuffleUpLoop, Lib.Prioq.shuffleUp, ← hr.items, byData]
    split
    · exact ⟨q, rfl, hr, rfl⟩
    split
    · exact ⟨q, rfl, hr, rfl⟩
    obtain ⟨q₁, hq₁, hr₁, ha₁⟩ := hr.swap (k := (idx - 1) / 2) hidx (by omega) (by omega)
    have hn : q₁.nItems = q.nItems := by rw [hr₁.nItems, hr.nItems]; rfl
    have hk : (idx - 1) / 2 < q₁.nItems := by omega
    obtain ⟨q₂, hq₂, hr₂, ha₂⟩ := ih hr₁ hk
    exact ⟨q₂, by rw [hq₁, Option.bind_some, hq₂], hr₂, ha₂.trans ha₁⟩

variable (cmp) in
theorem Refines.shuffleUp {idx : Nat} (hr : Refines q h) (hidx : idx < q.nItems) :
    ∃ q', q.shuffleUp cmp idx = some q' ∧
      Refines q' (Lib.Prioq.shuffleUp (byData cmp) idx h idx) ∧ q'.nAllocated = q.nAllocated := by
  rw [Prioq.shuffleUp, if_pos hidx]
  exact hr.shuffleUpLoop idx hidx

theorem left_child {idx : Nat} (hidx : idx < 2 ^ 31) :
    unsigned (unsigned ((idx + 1) * 2) + (2 ^ 32 - 1)) = 2 * idx + 1 := by
  unfold unsigned
  omega

theorem right_child {idx n : Nat} (hn : n ≤ 2 ^ 31) (hidx : 2 * idx + 1 < n) :
    unsigned ((idx + 1) * 2) = 2 * idx + 2 := by
  unfold unsigned
  omega

theorem Refines.shuffleDown (hcmp : IsCompare cmp) (fuel : Nat) :
    ∀ {q : Prioq α κ} {h : Lib.Prioq (PrioqItem α κ)} {idx : Nat}, Refines q h →
    q.nItems ≤ 2 ^ 31 → idx < q.nItems → q.nItems ≤ fuel + idx →
    ∃ q', Prioq.shuffleDown cmp (fuel + 1) q idx =
        some (q', (Lib.Prioq.shuffleDown (byData cmp) fuel h idx).2) ∧
      Refines q' (Lib.Prioq.shuffleDown (byData cmp) fuel h idx).1 ∧
      q'.nAllocated = q.nAllocated := by
  induction fuel with
  | zero =>
    intro q h idx _ _ hidx hfuel
    omega
  | succ fuel ih =>
    intro q h idx hr hn hidx hfuel
    rw [Prioq.shuffleDown]
    simp only [left_child (by omega : idx < 2 ^ 31), Lib.Prioq.shuffleDown, ← hr.nItems]
    split
    · exact ⟨q, rfl, hr, rfl⟩
    next hleft =>
    have hleft : 2 * idx + 1 < q.nItems := not_le.mp hleft
    have hs : (if unsigned ((idx + 1) * 2) < q.nItems ∧ cmp (q.items (unsigned ((idx + 1) * 2))).data
          (q.items (if cmp (q.items (2 * idx + 1)).data (q.items idx).data < 0 then 2 * idx + 1
            else idx)).data < 0 then unsigned ((idx + 1) * 2)
        else if cmp (q.items (2 * idx + 1)).data (q.items idx).data < 0 then 2 * idx + 1 else idx) =
        h.smallest (byData cmp) idx := by
      rw [right_child hn hleft]
      simp only [Lib.Prioq.smallest, ← hr.items, ← hr.nItems, byData]
    rw [hs]
    split
    · exact ⟨q, rfl, hr, rfl⟩
    next hne =>
    rcases (Lib.Prioq.smallest_spec (isCompare_byData hcmp) h (hr.nItems ▸ hleft)).1 with
      heq | ⟨hlt, hsn, hpar⟩
    · exact absurd heq hne
    rw [← hr.nItems] at hsn
    obtain ⟨q₁, hq₁, hr₁, ha₁⟩ := hr.swap hidx hsn (Ne.symm hne)
    have hn₁ : q₁.nItems = q.nItems := by rw [hr₁.nItems, hr.nItems]; rfl
    obtain ⟨q₂, hq₂, hr₂, ha₂⟩ := ih hr₁ (hn₁ ▸ hn) (hn₁ ▸ hsn) (by omega)
    exact ⟨q₂, by rw [hq₁, Option.bind_some, hq₂], hr₂, ha₂.trans ha₁⟩

variable (cmp) in
theorem Refines.append (x : α) (idx : Option κ) (hr : Refines q h)
    (hroom : q.nItems < q.nAllocated) (hn : q.nItems + 1 < 2 ^ 32)
    (hfree : ∀ i < q.nItems, ∀ c, idx = some c → (q.items i).idx ≠ some c) :
    ∃ q', q.append cmp x idx = some q' ∧ Refines q' (h.put (byData cmp) ⟨x, idx⟩) ∧
      q'.nAllocated = q.nAllocated := by
  let h' : Lib.Prioq (PrioqItem α κ) :=
    { nItems := h.nItems + 1
      items := update h.items h.nItems ⟨x, idx⟩
      idx := update h.idx ⟨x, idx⟩ h.nItems }
  let q₁ : Prioq α κ := Prioq.setIdx { q with
    nItems := unsigned (q.nItems + 1)
    items := update q.items q.nItems ⟨x, idx⟩ } q.nItems
  have hlen : unsigned (q.nItems + 1) = q.nItems + 1 := Nat.mod_eq_of_lt hn
  have hr₁ : Refines q₁ h' := by
    refine ⟨?_, ?_, fun i hi c hc => ?_⟩
    · simp only [q₁, setIdx_nItems, h', ← hr.nItems, hlen]
    · simp only [q₁, setIdx_items, h', hr.items, hr.nItems]
    · simp only [q₁, setIdx_nItems, setIdx_items, setIdx_cells, hlen, update_self] at hi hc ⊢
      by_cases hlast : i = q.nItems
      · rw [hlast, update_self] at hc
        rw [if_pos hc, hlast]
      · rw [update_of_ne hlast] at hc
        have hi : i < q.nItems := lt_of_le_of_ne (Nat.lt_succ_iff.mp hi) hlast
        rw [if_neg fun hidx => hfree i hi c hidx hc]
        exact hr.cells i hi c hc
  have hlt : q.nItems < q₁.nItems := by
    simp only [q₁, setIdx_nItems, hlen]
    exact Nat.lt_succ_self _
  obtain ⟨q', hq', hr', ha'⟩ := hr₁.shuffleUp cmp hlt
  refine ⟨q', ?_, ?_, ha'.trans ?_⟩
  · rw [Prioq.append, if_pos hroom]
    exact hq'
  · rw [hr.nItems] at hr'
    exact hr'
  · simp only [q₁, setIdx_nAllocated]

theorem Refines.removeItem (hcmp : IsCompare cmp) (hr : Refines q h) (hi : i < q.nItems)
    (hn : q.nItems ≤ 2 ^ 31 + 1) :
    ∃ q', q.removeItem cmp i = some q' ∧ Refines q' (h.removeItem (byData cmp) i) ∧
      q'.nAllocated = q.nAllocated := by
  unfold Prioq.removeItem Lib.Prioq.removeItem
  rw [← hr.nItems]
  split
  · refine ⟨_, rfl, ⟨rfl, hr.items, fun j hj => hr.cells j ?_⟩, rfl⟩
    exact lt_of_lt_of_le hj (Nat.sub_le _ _)
  next hlast =>
  dsimp only
  -- The last item takes the place of the one that goes.
  have hr₁ : Refines { { q with items := update q.items i (q.items (q.nItems - 1)) }.setIdx i with
      nItems := q.nItems - 1 } (h.replaceLast i) := by
    refine ⟨?_, ?_, fun j hj c hc => ?_⟩
    · simp only [Lib.Prioq.replaceLast, hr.nItems]
    · simp only [setIdx_items, Lib.Prioq.replaceLast, hr.items, hr.nItems]
    · simp only [setIdx_items, setIdx_cells, update_self] at hj hc ⊢
      by_cases hji : j = i
      · rw [hji, update_self] at hc
        rw [if_pos hc, hji]
      · rw [update_of_ne hji] at hc
        rw [if_neg (hr.idx_ne (by omega) (by omega) (by omega) hc)]
        exact hr.cells j (by omega) c hc
  have hi₁ : i < q.nItems - 1 := by omega
  obtain ⟨q₂, hq₂, hr₂, ha₂⟩ := hr₁.shuffleDown hcmp q.nItems (by simp only; omega) hi₁
    (by simp only; omega)
  rw [hq₂, Option.bind_some]
  have hsame := Lib.Prioq.sameItems_shuffleDown (isCompare_byData (κ := κ) hcmp) q.nItems
    (h.replaceLast i) i (by simp only [Lib.Prioq.replaceLast, ← hr.nItems]; omega)
  obtain ⟨q₃, hq₃, hr₃, ha₃⟩ := hr₂.shuffleUp cmp
    (by rw [hr₂.nItems, hsame.1.nItems]; exact hsame.2)
  refine ⟨q₃, hq₃, hr₃, (ha₃.trans ha₂).trans ?_⟩
  simp only [setIdx_nAllocated]

end

end Basu.Prio
