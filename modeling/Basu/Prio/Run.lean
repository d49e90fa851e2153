import Basu.Prio.Queue

/-! Runs of the queue: as long as no `unsigned` wraps around, it answers with first items of the set
of those put and not yet removed. -/

namespace Basu.Prio
open Function
open Lib.Prioq (IsCompare)

variable {α κ : Type*}

inductive PrioqOp (α κ : Type*)
  | put (data : α) (idx : Option κ) (memory : Bool)
  | remove (data : α) (idx : Option κ)
  | peek
  | pop

inductive Answer (α : Type*)
  | put (r : Except Errno Unit)
  | remove (r : Nat)
  | peek (data : Option α)
  | pop (data : Option α)

def exec [DecidableEq α] [DecidableEq κ] (cmp : α → α → Int) (q : Prioq α κ) :
    PrioqOp α κ → Option (Answer α × Prioq α κ)
  | .put data idx memory => (q.prioqPut cmp memory data idx).map fun (r, q) => (.put r, q)
  | .remove data idx => (q.prioqRemove cmp data idx).map fun (r, q) => (.remove r, q)
  | .peek => some (.peek q.prioqPeek, q)
  | .pop => (q.prioqPop cmp).map fun (data, q) => (.pop data, q)

def prioqNew (items : Nat → PrioqItem α κ) (cells : κ → Nat) : Prioq α κ :=
  { nItems := 0, nAllocated := 0, items := items, cells := cells }

def after (S : Set (PrioqItem α κ)) : PrioqOp α κ → Answer α → Set (PrioqItem α κ)
  | .put data idx _, .put (.ok ()) => insert ⟨data, idx⟩ S
  | .remove data _, _ => {x ∈ S | x.data ≠ data}
  | .pop, .pop (some data) => {x ∈ S | x.data ≠ data}
  | _, _ => S

/-- An item is put while it is not queued, with an index of its own or none, and one that is queued
is removed by its index or by none. -/
def Allowed (S : Set (PrioqItem α κ)) : PrioqOp α κ → Prop
  | .put data idx _ => ∀ x ∈ S, x.data ≠ data ∧ ∀ c, idx = some c → x.idx ≠ some c
  | .remove data idx => ∀ x ∈ S, x.data = data → idx = none ∨ idx = x.idx
  | _ => True

structure IsQueue (cmp : α → α → Int) (q : Prioq α κ) (S : Set (PrioqItem α κ)) : Prop where
  ordered : ∀ i, 0 < i → i < q.nItems → cmp (q.items ((i - 1) / 2)).data (q.items i).data ≤ 0
  placed : ∀ i < q.nItems, ∀ c, (q.items i).idx = some c → q.cells c = i
  once : ∀ i < q.nItems, ∀ j < q.nItems, q.items i = q.items j → i = j
  content : ∀ x, (∃ i < q.nItems, q.items i = x) ↔ x ∈ S

/-- The item is queued and no other one precedes it; there is none if nothing is queued. -/
def IsFirst (cmp : α → α → Int) (S : Set (PrioqItem α κ)) : Option α → Prop
  | none => S = ∅
  | some data => (∃ x ∈ S, x.data = data) ∧ ∀ x ∈ S, ¬cmp x.data data < 0

def AnswersRight (cmp : α → α → Int) (q : Prioq α κ) (S : Set (PrioqItem α κ)) (q' : Prioq α κ) :
    PrioqOp α κ → Answer α → Prop
  | .put _ _ memory, .put r => r = .ok () ∨ memory = false ∧ r = .error .enomem ∧ q' = q
  | .remove data _, .remove r =>
    (∃ x ∈ S, x.data = data) ∧ r = 1 ∨ (¬∃ x ∈ S, x.data = data) ∧ r = 0 ∧ q' = q
  | .peek, .peek data => IsFirst cmp S data ∧ q' = q
  | .pop, .pop data => IsFirst cmp S data ∧ (data = none → q' = q)
  | _, _ => False

section
variable [DecidableEq α] [DecidableEq κ]

/-- In a run of operations that are allowed and meet the condition no assertion fails, every answer
is right, and the array is a queue of the items all along. -/
def RunsRight (cmp : α → α → Int) (P : Prioq α κ → PrioqOp α κ → Prop) :
    Prioq α κ → Set (PrioqItem α κ) → List (PrioqOp α κ) → Prop
  | q, S, [] => IsQueue cmp q S
  | q, S, op :: ops => IsQueue cmp q S ∧ (Allowed S op → P q op → ∃ a q',
      exec cmp q op = some (a, q') ∧ AnswersRight cmp q S q' op a ∧
        RunsRight cmp P q' (after S op a) ops)

end

/-- An array that is enlarged has less than 2^31 - 1 items, and one from which an item is removed at
most 2^31 + 1. -/
def Fits (q : Prioq α κ) : PrioqOp α κ → Prop
  | .put _ _ _ => q.nItems < q.nAllocated ∨ q.nItems + 1 < 2 ^ 31
  | .remove _ _ => q.nItems ≤ 2 ^ 31 + 1
  | .peek => True
  | .pop => q.nItems ≤ 2 ^ 31 + 1

structure Sound (cmp : α → α → Int) (q : Prioq α κ) (S : Set (PrioqItem α κ)) : Prop where
  heap : ∃ h, Refines q h ∧ h.Valid (byData cmp) ∧ ∀ x, h.Mem x ↔ x ∈ S
  distinct : ∀ x ∈ S, ∀ y ∈ S, x.data = y.data → x = y
  room : q.nItems ≤ q.nAllocated
  allocated : q.nAllocated < 2 ^ 32

section
variable {cmp : α → α → Int} {q : Prioq α κ} {S : Set (PrioqItem α κ)}

theorem Sound.content (hs : Sound cmp q S) (x : PrioqItem α κ) :
    (∃ i < q.nItems, q.items i = x) ↔ x ∈ S := by
  obtain ⟨h, hr, -, hmem⟩ := hs.heap
  rw [hr.nItems, hr.items]
  exact hmem x

theorem Sound.mem (hs : Sound cmp q S) {i : Nat} (hi : i < q.nItems) : q.items i ∈ S :=
  (hs.content _).mp ⟨i, hi, rfl⟩

theorem Sound.isQueue (hs : Sound cmp q S) : IsQueue cmp q S := by
  obtain ⟨h, hr, hv, hmem⟩ := hs.heap
  refine ⟨fun i hi hin => ?_, hr.cells, fun i hi j hj heq => ?_, hs.content⟩
  · rw [hr.items]
    exact hv.ordered i hi (hr.nItems ▸ hin)
  · rw [hr.items] at heq
    exact hv.indexed.inj (hr.nItems ▸ hi) (hr.nItems ▸ hj) heq

theorem Sound.new (items : Nat → PrioqItem α κ) (cells : κ → Nat) :
    Sound cmp (prioqNew items cells) ∅ := by
  refine ⟨⟨{ nItems := 0, items := items, idx := fun _ => 0 }, ⟨rfl, rfl, fun i hi => ?_⟩,
    ⟨fun i hi => ?_, fun i _ hi => ?_⟩, fun x => ?_⟩, fun x hx => ?_, le_rfl,
    Nat.two_pow_pos 32⟩
  · exact absurd hi (Nat.not_lt_zero i)
  · exact absurd hi (Nat.not_lt_zero i)
  · exact absurd hi (Nat.not_lt_zero i)
  · exact iff_of_false (fun ⟨i, hi, _⟩ => absurd hi (Nat.not_lt_zero i)) (Set.notMem_empty x)
  · exact absurd hx (Set.notMem_empty x)

theorem Sound.isFirst (hcmp : IsCompare cmp) (hs : Sound cmp q S) :
    IsFirst cmp S q.prioqPeek := by
  unfold Prioq.prioqPeek
  split
  · next hn =>
    refine Set.eq_empty_iff_forall_notMem.mpr fun x hx => ?_
    obtain ⟨i, hi, -⟩ := (hs.content x).mpr hx
    omega
  · next hn =>
    refine ⟨⟨_, hs.mem (Nat.pos_of_ne_zero hn), rfl⟩, fun x hx hlt => ?_⟩
    obtain ⟨i, hi, rfl⟩ := (hs.content x).mpr hx
    obtain ⟨h, hr, hv, -⟩ := hs.heap
    have hle := hv.ordered.root_le (isCompare_byData hcmp) i (hr.nItems ▸ hi)
    rw [← hr.items] at hle
    exact absurd ((hcmp.flip _ _).mp hlt) (not_lt.mpr hle)

variable [DecidableEq α] {data : α} {idx : Option κ}

theorem findItem_spec {i : Nat} (hf : q.findItem data idx = some i) :
    i < q.nItems ∧ (q.items i).data = data := by
  unfold Prioq.findItem at hf
  split at hf
  · exact absurd hf nofun
  split at hf
  · next c =>
    split at hf
    · exact absurd hf nofun
    next hc =>
    split at hf
    · exact absurd hf nofun
    next hdata =>
    obtain rfl := Option.some.inj hf
    exact ⟨not_le.mp fun hle => hc (Or.inr hle), not_not.mp hdata⟩
  · have hd := List.find?_some hf
    exact ⟨List.mem_range.mp (List.mem_of_find?_eq_some hf), of_decide_eq_true hd⟩

theorem Sound.findItem_none (hs : Sound cmp q S) (hx : ¬∃ x ∈ S, x.data = data) :
    q.findItem data idx = none := by
  rcases hf : q.findItem data idx with _ | i
  · rfl
  · obtain ⟨hi, hd⟩ := findItem_spec hf
    exact absurd ⟨_, hs.mem hi, hd⟩ hx

theorem Sound.findItem_some (hs : Sound cmp q S) {x : PrioqItem α κ} (hx : x ∈ S)
    (hdata : x.data = data) (hidx : idx = none ∨ idx = x.idx) :
    ∃ i < q.nItems, q.items i = x ∧ q.findItem data idx = some i := by
  obtain ⟨i, hi, rfl⟩ := (hs.content x).mpr hx
  have hsome : ∃ j, q.findItem data idx = some j := by
    unfold Prioq.findItem
    rw [if_neg (by omega)]
    split
    · next c =>
      have hc : (q.items i).idx = some c := (hidx.resolve_left nofun).symm
      have hcell := hs.isQueue.placed i hi c hc
      have hnull : i ≠ prioqIdxNull := by
        have := hs.room
        have := hs.allocated
        unfold prioqIdxNull
        omega
      rw [hcell, if_neg (not_or.mpr ⟨hnull, not_le.mpr hi⟩), if_neg (not_not.mpr hdata)]
      exact ⟨i, rfl⟩
    · rw [← Option.isSome_iff_exists, List.find?_isSome]
      exact ⟨i, List.mem_range.mpr hi, decide_eq_true hdata⟩
  obtain ⟨j, hj⟩ := hsome
  obtain ⟨hjn, hjd⟩ := findItem_spec hj
  exact ⟨j, hjn, hs.distinct _ (hs.mem hjn) _ hx (hjd.trans hdata.symm), hj⟩

variable [DecidableEq κ]

theorem Sound.removeItem (hcmp : IsCompare cmp) (hs : Sound cmp q S) {i : Nat} (hi : i < q.nItems)
    (hn : q.nItems ≤ 2 ^ 31 + 1) :
    ∃ q', q.removeItem cmp i = some q' ∧
      Sound cmp q' {x ∈ S | x.data ≠ (q.items i).data} := by
  obtain ⟨h, hr, hv, hmem⟩ := hs.heap
  obtain ⟨q', hq', hr', ha'⟩ := hr.removeItem hcmp hi hn
  obtain ⟨hv', hmem'⟩ := hv.removeItem (isCompare_byData hcmp) (hr.nItems ▸ hi)
  have hset : ∀ x, (h.removeItem (byData cmp) i).Mem x ↔
      x ∈ {x ∈ S | x.data ≠ (q.items i).data} := by
    intro x
    rw [hmem', hmem, ← hr.items]
    refine and_congr_right fun hx => not_congr ⟨fun heq => heq ▸ rfl, fun hd => ?_⟩
    exact hs.distinct x hx _ (hs.mem hi) hd
  have hlen : q'.nItems ≤ q.nItems := by
    rw [hr'.nItems, hr.nItems]
    exact Lib.Prioq.removeItem_nItems_le (isCompare_byData hcmp) (hr.nItems ▸ hi)
  exact ⟨q', hq', ⟨_, hr', hv', hset⟩, fun x hx y hy => hs.distinct x hx.1 y hy.1,
    hlen.trans (ha' ▸ hs.room), ha' ▸ hs.allocated⟩

theorem Sound.append (hcmp : IsCompare cmp) (hs : Sound cmp q S)
    (hroom : q.nItems < q.nAllocated)
    (hfree : ∀ x ∈ S, x.data ≠ data ∧ ∀ c, idx = some c → x.idx ≠ some c) :
    ∃ q', q.append cmp data idx = some q' ∧ Sound cmp q' (insert ⟨data, idx⟩ S) := by
  obtain ⟨h, hr, hv, hmem⟩ := hs.heap
  have hn : q.nItems + 1 < 2 ^ 32 := lt_of_le_of_lt hroom hs.allocated
  obtain ⟨q', hq', hr', ha'⟩ := hr.append cmp data idx hroom hn
    fun i hi => (hfree _ (hs.mem hi)).2
  have hnew : ¬h.Mem ⟨data, idx⟩ := fun hm => (hfree _ ((hmem _).mp hm)).1 rfl
  obtain ⟨hv', hmem'⟩ := hv.put (isCompare_byData hcmp) hnew
  have hlen : q'.nItems = q.nItems + 1 := by
    rw [hr'.nItems, hr.nItems]
    exact Lib.Prioq.put_nItems _ _ _
  refine ⟨q', hq', ⟨_, hr', hv', fun x => ?_⟩, fun x hx y hy heq => ?_, ?_, ha' ▸ hs.allocated⟩
  · rw [hmem', hmem]
    rfl
  · rcases hx with rfl | hx
    · rcases hy with rfl | hy
      · rfl
      · exact absurd heq.symm (hfree y hy).1
    · rcases hy with rfl | hy
      · exact absurd heq (hfree x hx).1
      · exact hs.distinct x hx y hy heq
  · rw [hlen, ha']
    exact hroom

theorem Sound.prioqPut (hcmp : IsCompare cmp) (hs : Sound cmp q S) (memory : Bool)
    (hfree : ∀ x ∈ S, x.data ≠ data ∧ ∀ c, idx = some c → x.idx ≠ some c)
    (hfits : q.nItems < q.nAllocated ∨ q.nItems + 1 < 2 ^ 31) :
    (∃ q', q.prioqPut cmp memory data idx = some (.ok (), q') ∧
        Sound cmp q' (insert ⟨data, idx⟩ S)) ∨
      memory = false ∧ q.prioqPut cmp memory data idx = some (.error .enomem, q) := by
  unfold Prioq.prioqPut
  split
  · next hfull =>
    cases memory with
    | false => exact Or.inr ⟨rfl, rfl⟩
    | true =>
      -- The array is enlarged; the number of its items does not wrap around.
      have hsmall := hfits.resolve_left (not_lt.mpr hfull)
      have hdouble : unsigned ((q.nItems + 1) * 2) = (q.nItems + 1) * 2 :=
        Nat.mod_eq_of_lt (by omega)
      have hs₁ : Sound cmp { q with nAllocated := max (unsigned ((q.nItems + 1) * 2)) 16 } S := by
        obtain ⟨h, hr, hv, hmem⟩ := hs.heap
        refine ⟨⟨h, ⟨hr.nItems, hr.items, hr.cells⟩, hv, hmem⟩, hs.distinct, ?_, ?_⟩
        · dsimp only
          omega
        · dsimp only
          omega
      obtain ⟨q', hq', hs'⟩ := hs₁.append hcmp (by dsimp only; omega) hfree
      refine Or.inl ⟨q', ?_, hs'⟩
      rw [hq']
      rfl
  · next hroom =>
    obtain ⟨q', hq', hs'⟩ := hs.append hcmp (not_le.mp hroom) hfree
    exact Or.inl ⟨q', by rw [hq']; rfl, hs'⟩

theorem Sound.prioqRemove (hcmp : IsCompare cmp) (hs : Sound cmp q S)
    (hown : ∀ x ∈ S, x.data = data → idx = none ∨ idx = x.idx) (hn : q.nItems ≤ 2 ^ 31 + 1) :
    ∃ r q', q.prioqRemove cmp data idx = some (r, q') ∧ Sound cmp q' {x ∈ S | x.data ≠ data} ∧
      ((∃ x ∈ S, x.data = data) ∧ r = 1 ∨ (¬∃ x ∈ S, x.data = data) ∧ r = 0 ∧ q' = q) := by
  unfold Prioq.prioqRemove
  by_cases hx : ∃ x ∈ S, x.data = data
  · have hx' := hx
    obtain ⟨x, hxS, hdata⟩ := hx
    obtain ⟨i, hi, hxi, hf⟩ := hs.findItem_some hxS hdata (hown x hxS hdata)
    obtain ⟨q', hq', hs'⟩ := hs.removeItem hcmp hi hn
    rw [hxi, hdata] at hs'
    refine ⟨1, q', ?_, hs', Or.inl ⟨hx', rfl⟩⟩
    rw [hf]
    simp only [hq', Option.map_some]
  · have hset : {x ∈ S | x.data ≠ data} = S := by
      ext x
      exact ⟨fun h => h.1, fun h => ⟨h, fun hd => hx ⟨x, h, hd⟩⟩⟩
    refine ⟨0, q, ?_, by rw [hset]; exact hs, Or.inr ⟨hx, rfl, rfl⟩⟩
    rw [hs.findItem_none hx]

theorem Sound.prioqPop (hcmp : IsCompare cmp) (hs : Sound cmp q S) (hn : q.nItems ≤ 2 ^ 31 + 1) :
    ∃ q', q.prioqPop cmp = some (q.prioqPeek, q') ∧
      (q.prioqPeek = none → q' = q ∧ Sound cmp q' S) ∧
      ∀ data, q.prioqPeek = some data → Sound cmp q' {x ∈ S | x.data ≠ data} := by
  unfold Prioq.prioqPop Prioq.prioqPeek
  split
  · exact ⟨q, rfl, fun _ => ⟨rfl, hs⟩, nofun⟩
  · next hne =>
    obtain ⟨q', hq', hs'⟩ := hs.removeItem hcmp (Nat.pos_of_ne_zero hne) hn
    refine ⟨q', ?_, nofun, fun data hd => ?_⟩
    · rw [hq']
      rfl
    · obtain rfl := Option.some.inj hd
      exact hs'

theorem Sound.exec (hcmp : IsCompare cmp) (hs : Sound cmp q S) (op : PrioqOp α κ)
    (hallowed : Allowed S op) (hfits : Fits q op) :
    ∃ a q', exec cmp q op = some (a, q') ∧ AnswersRight cmp q S q' op a ∧
      Sound cmp q' (after S op a) := by
  cases op with
  | put data idx memory =>
    obtain ⟨q', hq', hs'⟩ | ⟨hm, hq'⟩ := hs.prioqPut hcmp memory hallowed hfits
    · exact ⟨.put (.ok ()), q', by rw [Prio.exec, hq']; rfl, Or.inl rfl, hs'⟩
    · exact ⟨.put (.error .enomem), q, by rw [Prio.exec, hq']; rfl, Or.inr ⟨hm, rfl, rfl⟩, hs⟩
  | remove data idx =>
    obtain ⟨r, q', hq', hs', hr⟩ := hs.prioqRemove hcmp hallowed hfits
    exact ⟨.remove r, q', by rw [Prio.exec, hq']; rfl, hr, hs'⟩
  | peek => exact ⟨.peek q.prioqPeek, q, rfl, ⟨hs.isFirst hcmp, rfl⟩, hs⟩
  | pop =>
    obtain ⟨q', hq', hnone, hsome⟩ := hs.prioqPop hcmp hfits
    refine ⟨.pop q.prioqPeek, q', by rw [Prio.exec, hq']; rfl,
      ⟨hs.isFirst hcmp, fun hp => (hnone hp).1⟩, ?_⟩
    rcases hp : q.prioqPeek with _ | data
    · exact (hnone hp).2
    · exact hsome data hp

theorem Sound.runsRight (hcmp : IsCompare cmp) (ops : List (PrioqOp α κ)) :
    ∀ {q : Prioq α κ} {S : Set (PrioqItem α κ)}, Sound cmp q S → RunsRight cmp Fits q S ops := by
  induction ops with
  | nil => exact fun hs => hs.isQueue
  | cons op ops ih =>
    intro q S hs
    refine ⟨hs.isQueue, fun hallowed hfits => ?_⟩
    obtain ⟨a, q', hq', ha, hs'⟩ := hs.exec hcmp op hallowed hfits
    exact ⟨a, q', hq', ha, ih hs'⟩

end

/-- With a comparison that orders the items, and as long as no `unsigned` wraps around, the array is a
priority queue in every run. -/
theorem prioq_runsRight [DecidableEq α] [DecidableEq κ] (cmp : α → α → Int)
    (hcmp : IsCompare cmp) (items : Nat → PrioqItem α κ) (cells : κ → Nat)
    (ops : List (PrioqOp α κ)) :
    RunsRight cmp Fits (prioqNew items cells) ∅ ops :=
  (Sound.new items cells).runsRight hcmp ops

def compareNat (a b : Nat) : Int := a - b

theorem isCompare_compareNat : IsCompare compareNat := by
  unfold compareNat
  exact ⟨fun a b => by omega, fun a b c hab hbc => by omega⟩

theorem prioq_runsRight_two : IsCompare compareNat ∧
    RunsRight compareNat Fits (prioqNew (fun _ => ⟨0, none⟩) fun _ : Nat => prioqIdxNull) ∅
      [.put 5 (some 0) true, .put 3 none true, .pop, .remove 3 none, .remove 5 (some 0)] :=
  ⟨isCompare_compareNat, prioq_runsRight compareNat isCompare_compareNat _ _ _⟩

section
variable [DecidableEq κ] {cmp : α → α → Int} {q q' : Prioq α κ}

theorem swap_size {j k : Nat} (h : q.swap j k = some q') :
    q'.nItems = q.nItems ∧ q'.nAllocated = q.nAllocated := by
  unfold Prioq.swap at h
  split at h
  · obtain rfl := Option.some.inj h
    simp only [setIdx_nItems, setIdx_nAllocated, and_self]
  · exact absurd h nofun

theorem shuffleUpLoop_size (fuel : Nat) : ∀ {q : Prioq α κ} {idx : Nat},
    Prioq.shuffleUpLoop cmp fuel q idx = some q' →
    q'.nItems = q.nItems ∧ q'.nAllocated = q.nAllocated := by
  induction fuel with
  | zero =>
    intro q idx h
    obtain rfl := Option.some.inj h
    exact ⟨rfl, rfl⟩
  | succ fuel ih =>
    intro q idx h
    simp only [Prioq.shuffleUpLoop] at h
    split at h
    · obtain rfl := Option.some.inj h
      exact ⟨rfl, rfl⟩
    split at h
    · obtain rfl := Option.some.inj h
      exact ⟨rfl, rfl⟩
    obtain ⟨q₁, hq₁, h⟩ := Option.bind_eq_some_iff.mp h
    obtain ⟨hn₁, ha₁⟩ := swap_size hq₁
    obtain ⟨hn, ha⟩ := ih h
    exact ⟨hn.trans hn₁, ha.trans ha₁⟩

theorem append_size {x : α} {idx : Option κ} (h : q.append cmp x idx = some q') :
    q.nItems < q.nAllocated ∧ q'.nItems = unsigned (q.nItems + 1) ∧
      q'.nAllocated = q.nAllocated := by
  unfold Prioq.append at h
  dsimp only at h
  split at h
  · next hroom =>
    unfold Prioq.shuffleUp at h
    split at h
    · obtain ⟨hn, ha⟩ := shuffleUpLoop_size _ h
      simp only [setIdx_nItems, setIdx_nAllocated] at hn ha
      exact ⟨hroom, hn, ha⟩
    · exact absurd h nofun
  · exact absurd h nofun

def grown (n a : Nat) : Nat := if a ≤ n then max (unsigned ((n + 1) * 2)) 16 else a

theorem prioqPut_size {x : α} {idx : Option κ} {r : Except Errno Unit}
    (h : q.prioqPut cmp true x idx = some (r, q')) :
    r = .ok () ∧ q.nItems < grown q.nItems q.nAllocated ∧ q'.nItems = unsigned (q.nItems + 1) ∧
      q'.nAllocated = grown q.nItems q.nAllocated := by
  unfold Prioq.prioqPut at h
  unfold grown
  split at h
  · next hfull =>
    rw [if_pos hfull]
    obtain ⟨q₁, hq₁, heq⟩ := Option.map_eq_some_iff.mp h
    obtain ⟨rfl, rfl⟩ := Prod.mk.inj heq
    exact ⟨rfl, append_size hq₁⟩
  · next hroom =>
    rw [if_neg hroom]
    obtain ⟨q₁, hq₁, heq⟩ := Option.map_eq_some_iff.mp h
    obtain ⟨rfl, rfl⟩ := Prod.mk.inj heq
    exact ⟨rfl, append_size hq₁⟩

end

def HasSize (n a : Nat) : Prop :=
  n = 0 ∧ a = 0 ∨ ∃ m ≤ 27, a + 2 = 18 * 2 ^ m ∧ n ≤ a ∧ (m = 0 ∨ 9 * 2 ^ m < n + 2)

theorem HasSize.grown {n a : Nat} (h : HasSize n a) (hn : n < 2415919102) :
    HasSize (n + 1) (grown n a) := by
  unfold Prio.grown
  obtain ⟨rfl, rfl⟩ | ⟨m, hm, ha, hna, hlow⟩ := h
  · exact Or.inr ⟨0, by decide, by decide, by decide, Or.inl rfl⟩
  split
  · next hfull =>
    obtain rfl : n = a := le_antisymm hna hfull
    have hpow : 2 ^ m < 2 ^ 27 := by omega
    have hm : m < 27 := (Nat.pow_lt_pow_iff_right (by decide)).mp hpow
    have hle : 2 ^ m ≤ 2 ^ 26 := Nat.pow_le_pow_right (by decide) (Nat.lt_succ_iff.mp hm)
    have hdouble : unsigned ((n + 1) * 2) = (n + 1) * 2 := Nat.mod_eq_of_lt (by omega)
    have hpos := Nat.two_pow_pos m
    rw [hdouble]
    refine Or.inr ⟨m + 1, hm, ?_, ?_, Or.inr ?_⟩
    · rw [pow_succ]
      omega
    · omega
    · rw [pow_succ]
      omega
  · next hroom => exact Or.inr ⟨m, hm, ha, by omega, hlow.imp_right fun h => by omega⟩

theorem HasSize.wraps {a : Nat} (h : HasSize 2415919102 a) :
    Prio.grown 2415919102 a = 536870910 := by
  obtain ⟨hn, -⟩ | ⟨m, hm, ha, hna, hlow⟩ := h
  · exact absurd hn (by decide)
  have hpow : 2 ^ 27 ≤ 2 ^ m := by omega
  have hm' : 27 ≤ m := (Nat.pow_le_pow_iff_right (by decide)).mp hpow
  obtain rfl : m = 27 := le_antisymm hm hm'
  obtain rfl : a = 2415919102 := by omega
  decide

def puts (n d : Nat) : List (PrioqOp Nat Nat) :=
  (List.range' n d).map fun data => .put data none true

theorem not_runsRight_puts (d : Nat) : ∀ {n : Nat} {q : Prioq Nat Nat} {S : Set (PrioqItem Nat Nat)},
    n + d = 2415919102 → q.nItems = n → HasSize n q.nAllocated → (∀ x ∈ S, x.data < n) →
    (∀ x ∈ S, x.idx = none) →
    ¬RunsRight compareNat (fun _ _ => True) q S (puts n (d + 1)) := by
  induction d with
  | zero =>
    rintro n q S hnd rfl hsize hdata hidx ⟨-, hrun⟩
    have hn : q.nItems = 2415919102 := hnd
    obtain ⟨a, q', hexec, -⟩ := hrun
      (fun x hx => ⟨(hdata x hx).ne, fun c hc => absurd hc nofun⟩) trivial
    obtain ⟨⟨r, q₁⟩, hput, -⟩ := Option.map_eq_some_iff.mp hexec
    obtain ⟨-, hlt, -⟩ := prioqPut_size hput
    rw [hn] at hlt hsize
    rw [hsize.wraps] at hlt
    exact absurd hlt (by decide)
  | succ d ih =>
    rintro n q S hnd rfl hsize hdata hidx ⟨-, hrun⟩
    obtain ⟨a, q', hexec, -, hrest⟩ := hrun
      (fun x hx => ⟨(hdata x hx).ne, fun c hc => absurd hc nofun⟩) trivial
    obtain ⟨⟨r, q₁⟩, hput, heq⟩ := Option.map_eq_some_iff.mp hexec
    obtain ⟨rfl, rfl⟩ := Prod.mk.inj heq
    obtain ⟨rfl, -, hn, ha⟩ := prioqPut_size hput
    have hlen : unsigned (q.nItems + 1) = q.nItems + 1 := Nat.mod_eq_of_lt (by omega)
    refine ih (by omega) (hn.trans hlen) (ha ▸ hsize.grown (by omega)) ?_ ?_ hrest
    · rintro x (rfl | hx)
      · exact Nat.lt_succ_self _
      · exact (hdata x hx).trans (Nat.lt_succ_self _)
    · rintro x (rfl | hx)
      · rfl
      · exact hidx x hx

/-- The put behind 2415919102 items enlarges the array to 536870910 and writes behind it. -/
theorem not_prioq_runsRight : ¬∀ (cmp : Nat → Nat → Int), IsCompare cmp →
    ∀ (items : Nat → PrioqItem Nat Nat) (cells : Nat → Nat) (ops : List (PrioqOp Nat Nat)),
      RunsRight cmp (fun _ _ => True) (prioqNew items cells) ∅ ops := by
  intro hall
  refine not_runsRight_puts 2415919102 (n := 0) rfl rfl (Or.inl ⟨rfl, rfl⟩) ?_ ?_
    (hall compareNat isCompare_compareNat (fun _ => ⟨0, none⟩) (fun _ => 0) _)
  · exact fun x hx => absurd hx (Set.notMem_empty x)
  · exact fun x hx => absurd hx (Set.notMem_empty x)

end Basu.Prio
