import Basu.Hashmap.Robin
import Mathlib.Data.Finset.Card
import Mathlib.Order.Interval.Finset.Nat

/-! The insertion of `hashmap_put_robin_hood`, into a table that may hold entries to be rehashed. -/

namespace Basu

open Lib

namespace HashmapBase

variable {h h' : HashmapBase} {i idx d src dst : Nat} {order : List Nat} {es : List (Ptr × Ptr)}
  {hand : Prop}

/-- A table whose entries are in its buckets, but for the one in hand if there is one. -/
structure Filling (h : HashmapBase) (hand : Prop) (order : List Nat) (es : List (Ptr × Ptr)) :
    Prop where
  robin : h.Robin
  threads : Threads h order es
  slots : ∀ i, i ∈ order ↔ (i < h.nBuckets ∧ h.dibs i ≠ dibRawFree) ∨ (hand ∧ i = idxPut)
  lowest : h.hasIndirect = true → ∀ i < h.nBuckets, h.dibs i ≠ dibRawFree → h.idxLowestEntry ≤ i

def pending (h : HashmapBase) : Finset Nat :=
  (Finset.range h.nBuckets).filter fun i => h.dibs i = dibRawRehash

theorem mem_pending : i ∈ h.pending ↔ i < h.nBuckets ∧ h.dibs i = dibRawRehash := by
  rw [pending, Finset.mem_filter, Finset.mem_range]

def Stop (h : HashmapBase) : Prop := ∃ i < h.nBuckets, h.Placed i → h.far i = 0

theorem mem_rename (hsrc : src ∈ order) :
    i ∈ order.map (rename src dst) ↔ i = dst ∨ (i ∈ order ∧ i ≠ src) := by
  rw [List.mem_map]
  constructor
  · rintro ⟨j, hj, rfl⟩
    by_cases he : j = src
    · exact .inl (he ▸ rename_self)
    · rw [rename_of_ne he]
      exact .inr ⟨hj, he⟩
  · rintro (rfl | ⟨hi, hne⟩)
    · exact ⟨src, hsrc, rename_self⟩
    · exact ⟨i, hi, rename_of_ne hne⟩

theorem Threads.congr (ht : Threads h order es) (s : SameTable h h') (hb : h'.bucket = h.bucket)
    (hh : h'.iterateListHead = h.iterateListHead) (htl : h'.iterateListTail = h.iterateListTail) :
    Threads h' order es := by
  refine ⟨ht.nodup, fun i hi => s.slot_iff.mpr (ht.slots i hi), ?_, fun hto => ?_⟩
  · rw [hb, ← ht.entries]
    exact List.map_congr_left fun i _ => s.pair _
  · have hl := ht.linked (s.type ▸ hto)
    exact ⟨hh.trans hl.head, htl.trans hl.tail, hb ▸ hl.chain⟩

theorem idxPut_ne_idxTmp : idxPut ≠ idxTmp := by decide

theorem Robin.lt_put (hr : h.Robin) (hi : i < h.nBuckets) : i ≠ idxPut ∧ i ≠ idxTmp := by
  have hs := hr.small
  unfold Small at hs
  unfold idxPut idxTmp
  omega

theorem moved_key : ((h.moved src dst).bucket i).key =
    (if i = dst then h.bucket src else h.bucket i).key :=
  congrArg Prod.fst (moved_pair i)

theorem SameTable.small (s : SameTable h h') (hs : h.Small) : h'.Small := s.small_iff.mpr hs

def swapped (h : HashmapBase) (idx : Nat) : HashmapBase :=
  ((h.moved idx idxTmp).moved idxPut idx).moved idxTmp idxPut

theorem swapped_same : SameTable h (h.swapped idx) :=
  moved_same.trans (moved_same.trans moved_same)

theorem swapped_counts : SameCounts h (h.swapped idx) := by
  have a := @moved_counts h idx idxTmp
  have b := @moved_counts (h.moved idx idxTmp) idxPut idx
  have c := @moved_counts ((h.moved idx idxTmp).moved idxPut idx) idxTmp idxPut
  exact ⟨c.dibs.trans (b.dibs.trans a.dibs), c.nEntries.trans (b.nEntries.trans a.nEntries),
    c.idxLowestEntry.trans (b.idxLowestEntry.trans a.idxLowestEntry)⟩

theorem swapped_key (hne : idx ≠ idxPut) (hit : idx ≠ idxTmp) (hi : i ≠ idxTmp) :
    ((h.swapped idx).bucket i).key =
      (h.bucket (if i = idx then idxPut else if i = idxPut then idx else i)).key := by
  rw [swapped, moved_key]
  by_cases hip : i = idxPut
  · rw [if_pos hip, moved_key, if_neg hit.symm, moved_key, if_pos rfl,
      if_neg fun he => hne (he.symm.trans hip), if_pos hip]
  · rw [if_neg hip, moved_key]
    by_cases hii : i = idx
    · rw [if_pos hii, moved_key, if_neg idxPut_ne_idxTmp, if_pos hii]
    · rw [if_neg hii, moved_key, if_neg hi, if_neg hii, if_neg hip]

theorem Threads.swap (ht : Threads h order es) (hs : h.Small) (hput : idxPut ∈ order)
    (hidx : idx ∈ order) (htmp : idxTmp ∉ order) (hne : idx ≠ idxPut) :
    h.bucketMoveEntry idx idxTmp = .ok (h.moved idx idxTmp) ∧
      (h.moved idx idxTmp).bucketMoveEntry idxPut idx =
        .ok ((h.moved idx idxTmp).moved idxPut idx) ∧
      ((h.moved idx idxTmp).moved idxPut idx).bucketMoveEntry idxTmp idxPut =
        .ok (h.swapped idx) ∧
      ∃ order', Threads (h.swapped idx) order' es ∧ ∀ i, i ∈ order' ↔ i ∈ order := by
  have hit : idx ≠ idxTmp := fun he => htmp (he ▸ hidx)
  obtain ⟨hm₁, ht₁⟩ := ht.move hs hidx htmp (.inr (.inr rfl))
  have s₁ : SameTable h (h.moved idx idxTmp) := moved_same
  have hin₁ : ∀ i, i ∈ order.map (rename idx idxTmp) ↔ _ := fun i => mem_rename hidx
  have hput₁ := (hin₁ idxPut).mpr (.inr ⟨hput, hne.symm⟩)
  have hidx₁ : idx ∉ order.map (rename idx idxTmp) := fun hm =>
    ((hin₁ idx).mp hm).elim hit fun hc => hc.2 rfl
  obtain ⟨hm₂, ht₂⟩ := ht₁.move (s₁.small hs) hput₁ hidx₁ (s₁.slot_iff.mpr (ht.slots _ hidx))
  have s₂ : SameTable h ((h.moved idx idxTmp).moved idxPut idx) := s₁.trans moved_same
  have hin₂ : ∀ i, i ∈ (order.map (rename idx idxTmp)).map (rename idxPut idx) ↔ _ :=
    fun i => mem_rename hput₁
  have htmp₂ := (hin₂ idxTmp).mpr (.inr ⟨(hin₁ idxTmp).mpr (.inl rfl), idxPut_ne_idxTmp.symm⟩)
  have hput₂ : idxPut ∉ (order.map (rename idx idxTmp)).map (rename idxPut idx) := fun hm =>
    ((hin₂ idxPut).mp hm).elim hne.symm fun hc => hc.2 rfl
  obtain ⟨hm₃, ht₃⟩ := ht₂.move (s₂.small hs) htmp₂ hput₂ (.inr (.inl rfl))
  refine ⟨hm₁, hm₂, hm₃, _, ht₃, fun i => ?_⟩
  rw [mem_rename htmp₂, hin₂, hin₁]
  constructor
  · rintro (rfl | ⟨rfl | ⟨rfl | ⟨hi, -⟩, -⟩, hi'⟩)
    · exact hput
    · exact hidx
    · exact absurd rfl hi'
    · exact hi
  · intro hi
    by_cases hip : i = idxPut
    · exact .inl hip
    · have hitmp : i ≠ idxTmp := fun he => htmp (he ▸ hi)
      by_cases hii : i = idx
      · exact .inr ⟨.inl hii, hitmp⟩
      · exact .inr ⟨.inr ⟨.inr ⟨hi, hii⟩, hip⟩, hitmp⟩

theorem min_overflow_ne (d : Nat) :
    min d dibRawOverflow ≠ dibRawFree ∧ min d dibRawOverflow ≠ dibRawRehash := by
  have hle : min d dibRawOverflow ≤ dibRawOverflow := min_le_right ..
  unfold dibRawOverflow dibRawFree dibRawRehash at *
  omega

theorem Filling.place {k : Ptr} {order' : List Nat} {held : Prop} (hf : Filling h held order es)
    (s : SameTable h h') (hi : idx < h.nBuckets)
    (hkey : ∀ i < h.nBuckets, (h'.bucket i).key = if i = idx then k else (h.bucket i).key)
    (hdib : h'.dibs = Function.update h.dibs idx (min d dibRawOverflow))
    (hd : d = h.bucketDistance idx (h.bucketHash k))
    (hm : Probe.MayStand h.nBuckets h.Placed h.far idx d) (hle : h.Placed idx → h.far idx ≤ d)
    (hlow : h'.idxLowestEntry =
      if h.hasIndirect ∧ h.idxLowestEntry > idx then idx else h.idxLowestEntry)
    (ht : Threads h' order' es)
    (hslots : ∀ i, i ∈ order' ↔
      (i = idx ∨ (i < h.nBuckets ∧ h.dibs i ≠ dibRawFree)) ∨ (hand ∧ i = idxPut)) :
    Filling h' hand order' es := by
  have hne : ∀ i, h'.dibs i ≠ dibRawFree ↔ i = idx ∨ h.dibs i ≠ dibRawFree := by
    intro i
    rw [hdib]
    by_cases he : i = idx
    · rw [he, Function.update_self]
      exact iff_of_true (min_overflow_ne d).1 (.inl rfl)
    · rw [Function.update_of_ne he]
      exact (or_iff_right he).symm
  refine ⟨(hf.robin.set s hi hkey hdib hd hm hle).1, ht, fun i => ?_, fun hind i hlt hnf => ?_⟩
  · rw [hslots, s.nBuckets, hne]
    constructor
    · rintro ((rfl | ⟨hlt, hnf⟩) | hh)
      · exact .inl ⟨hi, .inl rfl⟩
      · exact .inl ⟨hlt, .inr hnf⟩
      · exact .inr hh
    · rintro (⟨hlt, rfl | hnf⟩ | hh)
      · exact .inl (.inl rfl)
      · exact .inl (.inr ⟨hlt, hnf⟩)
      · exact .inr hh
  · rw [s.nBuckets] at hlt
    rw [s.hasIndirect] at hind
    rw [hlow]
    rcases (hne i).mp hnf with rfl | hnf
    · split_ifs with hc
      · exact le_rfl
      · exact Nat.le_of_not_lt fun hgt => hc ⟨hind, hgt⟩
    · have hold := hf.lowest hind i hlt hnf
      split_ifs with hc
      · exact hc.2.le.trans hold
      · exact hold

theorem Robin.stop_of_set {k : Ptr} (hr : h.Robin) (s : SameTable h h') (hi : idx < h.nBuckets)
    (hkey : ∀ i < h.nBuckets, (h'.bucket i).key = if i = idx then k else (h.bucket i).key)
    (hdib : h'.dibs = Function.update h.dibs idx (min d dibRawOverflow))
    (hd : d = h.bucketDistance idx (h.bucketHash k))
    (hm : Probe.MayStand h.nBuckets h.Placed h.far idx d) (hp : ¬ h.Placed idx) : h'.Stop := by
  obtain ⟨hr', hplaced, hfar⟩ := hr.set s hi hkey hdib hd hm fun h0 => absurd h0 hp
  by_cases hn : Probe.next h.nBuckets idx = idx
  · refine ⟨idx, s.nBuckets ▸ hi, fun _ => ?_⟩
    have hone : h.nBuckets = 1 := by
      rw [Probe.next_eq hi] at hn
      split_ifs at hn <;> omega
    have hlt := far_lt hr'.pos (s.nBuckets ▸ hi)
    rw [s.nBuckets] at hlt
    omega
  · have hlt : Probe.next h.nBuckets idx < h.nBuckets := Probe.next_lt hi
    refine ⟨Probe.next h.nBuckets idx, s.nBuckets.symm ▸ hlt, fun hp' => ?_⟩
    have hold := ((hplaced _).mp hp').resolve_left hn
    rw [hfar _ hlt, Function.update_of_ne hn]
    by_contra h0
    have hback := (hr.orderly _ hlt hold (Nat.pos_of_ne_zero h0)).1
    rw [Probe.prev_next hi] at hback
    exact hp hback

/-- What `hashmap_put_robin_hood` does to a table: the entry in hand is placed, and unless `again`
no bucket is emptied of an entry to be rehashed. -/
structure Inserted (h h' : HashmapBase) (again : Bool) (es : List (Ptr × Ptr)) : Prop where
  same : SameTable h h'
  nEntries : h'.nEntries = h.nEntries
  filling : ∃ order, Filling h' (again = true) order es
  pending : if again then ∃ j ∈ h.pending, h'.pending = h.pending.erase j
    else h'.pending = h.pending
  stop : h'.Stop

def noted (h : HashmapBase) (idx d : Nat) : HashmapBase :=
  (h.noteLowest idx).setDib idx (min d dibRawOverflow)

theorem noted_same : SameTable h (h.noted idx d) := ⟨rfl, rfl, rfl, rfl, rfl, rfl⟩

theorem touch_noted (f : HashEntry → HashEntry) :
    (h.touch i f).noted idx d = (h.noted idx d).touch i f := by
  unfold touch
  split_ifs <;> rfl

theorem renameEnds_noted : (h.renameEnds src dst).noted idx d = (h.noted idx d).renameEnds src dst :=
  rfl

theorem moved_noted : (h.moved src dst).noted idx d = (h.noted idx d).moved src dst := by
  unfold moved
  dsimp only
  by_cases ht : h.type = .ordered
  · rw [if_pos (show (h.setBucket dst (h.bucket src)).type = .ordered from ht),
      if_pos (show ((h.noted idx d).setBucket dst ((h.noted idx d).bucket src)).type = .ordered
        from ht), renameEnds_noted, touch_noted, touch_noted]
    rfl
  · rw [if_neg (show ¬ (h.setBucket dst (h.bucket src)).type = .ordered from ht),
      if_neg (show ¬ ((h.noted idx d).setBucket dst ((h.noted idx d).bucket src)).type = .ordered
        from ht)]
    rfl

theorem pending_congr (s : SameTable h h')
    (hd : ∀ i, h'.dibs i = dibRawRehash ↔ h.dibs i = dibRawRehash) : h'.pending = h.pending := by
  ext i
  rw [mem_pending, mem_pending, s.nBuckets, hd]

theorem noted_rehash (hdib : h'.dibs = Function.update h.dibs idx (min d dibRawOverflow)) (i : Nat) :
    h'.dibs i = dibRawRehash ↔ i ≠ idx ∧ h.dibs i = dibRawRehash := by
  rw [hdib]
  by_cases he : i = idx
  · rw [he, Function.update_self]
    exact iff_of_false (min_overflow_ne d).2 fun hc => hc.1 rfl
  · rw [Function.update_of_ne he]
    exact (and_iff_right he).symm

theorem noted_pending (s : SameTable h h')
    (hdib : h'.dibs = Function.update h.dibs idx (min d dibRawOverflow))
    (hne : h.dibs idx ≠ dibRawRehash) : h'.pending = h.pending := by
  refine pending_congr s fun i => ?_
  rw [noted_rehash hdib]
  exact and_iff_right_of_imp fun hi he => hne (he ▸ hi)

theorem Filling.insert_free (hf : Filling h True order es) (hi : idx < h.nBuckets)
    (hd : d = h.bucketDistance idx (h.bucketHash (h.bucket idxPut).key))
    (hm : Probe.MayStand h.nBuckets h.Placed h.far idx d) (hfree : h.dibs idx = dibRawFree) :
    (h.noted idx d).bucketMoveEntry idxPut idx = .ok ((h.noted idx d).moved idxPut idx) ∧
      Inserted h ((h.noted idx d).moved idxPut idx) false es := by
  have hput : idxPut ∈ order := (hf.slots _).mpr (.inr ⟨trivial, rfl⟩)
  have hnp := (hf.robin.lt_put hi).1
  have hidx : idx ∉ order := fun hm' =>
    ((hf.slots _).mp hm').elim (fun hc => hc.2 hfree) fun hc => hnp hc.2
  have hp : ¬ h.Placed idx := fun hc => hc.1 hfree
  have ht : Threads (h.noted idx d) order es := hf.threads.congr noted_same rfl rfl rfl
  obtain ⟨hmove, ht'⟩ := ht.move hf.robin.small hput hidx (.inl hi)
  have s : SameTable h ((h.noted idx d).moved idxPut idx) := noted_same.trans moved_same
  have hc : SameCounts (h.noted idx d) ((h.noted idx d).moved idxPut idx) := moved_counts
  have hkey : ∀ i < h.nBuckets, (((h.noted idx d).moved idxPut idx).bucket i).key =
      if i = idx then (h.bucket idxPut).key else (h.bucket i).key := by
    intro i _
    rw [moved_key]
    exact apply_ite ..
  refine ⟨hmove, s, hc.nEntries, ⟨_, hf.place s hi hkey hc.dibs hd hm (fun h0 => absurd h0 hp)
    hc.idxLowestEntry ht' fun i => ?_⟩, ?_, hf.robin.stop_of_set s hi hkey hc.dibs hd hm hp⟩
  · rw [mem_rename hput, hf.slots]
    simp only [Bool.false_eq_true, false_and, or_false, true_and]
    refine or_congr_right ⟨fun hc => hc.1.resolve_right hc.2, fun hc => ⟨.inl hc, ?_⟩⟩
    exact (hf.robin.lt_put hc.1).1
  · exact noted_pending s hc.dibs (by rw [hfree]; decide)

theorem Filling.insert_rehash (hf : Filling h True order es) (hi : idx < h.nBuckets)
    (hd : d = h.bucketDistance idx (h.bucketHash (h.bucket idxPut).key))
    (hm : Probe.MayStand h.nBuckets h.Placed h.far idx d) (hre : h.dibs idx = dibRawRehash) :
    h.bucketMoveEntry idx idxTmp = .ok (h.moved idx idxTmp) ∧
      ((h.noted idx d).moved idx idxTmp).bucketMoveEntry idxPut idx =
        .ok (((h.noted idx d).moved idx idxTmp).moved idxPut idx) ∧
      (((h.noted idx d).moved idx idxTmp).moved idxPut idx).bucketMoveEntry idxTmp idxPut =
        .ok ((h.noted idx d).swapped idx) ∧
      Inserted h ((h.noted idx d).swapped idx) true es := by
  have hput : idxPut ∈ order := (hf.slots _).mpr (.inr ⟨trivial, rfl⟩)
  obtain ⟨hnp, hnt⟩ := hf.robin.lt_put hi
  have hidx : idx ∈ order := (hf.slots _).mpr (.inl ⟨hi, by rw [hre]; decide⟩)
  have htmp : idxTmp ∉ order := fun hm' => ((hf.slots _).mp hm').elim
    (fun hc => (hf.robin.lt_put hc.1).2 rfl) fun hc => idxPut_ne_idxTmp hc.2.symm
  have hp : ¬ h.Placed idx := fun hc => hc.2 hre
  have ht : Threads (h.noted idx d) order es := hf.threads.congr noted_same rfl rfl rfl
  obtain ⟨hmove₁, -⟩ := hf.threads.move hf.robin.small hidx htmp (.inr (.inr rfl))
  obtain ⟨-, hmove₂, hmove₃, order', ht', hin⟩ :=
    ht.swap hf.robin.small hput hidx htmp hnp
  have s : SameTable h ((h.noted idx d).swapped idx) := noted_same.trans swapped_same
  have hc : SameCounts (h.noted idx d) ((h.noted idx d).swapped idx) := swapped_counts
  have hkey : ∀ i < h.nBuckets, (((h.noted idx d).swapped idx).bucket i).key =
      if i = idx then (h.bucket idxPut).key else (h.bucket i).key := by
    intro i hlt
    obtain ⟨hip, hit⟩ := hf.robin.lt_put hlt
    rw [swapped_key hnp hnt hit, if_neg hip]
    exact apply_ite (fun j => (h.bucket j).key) ..
  refine ⟨hmove₁, hmove₂, hmove₃, s, hc.nEntries, ⟨order', hf.place s hi hkey hc.dibs hd hm
    (fun h0 => absurd h0 hp) hc.idxLowestEntry ht' fun i => ?_⟩, ⟨idx, ?_, ?_⟩,
    hf.robin.stop_of_set s hi hkey hc.dibs hd hm hp⟩
  · rw [hin, hf.slots]
    refine or_congr (or_iff_right_of_imp ?_).symm (and_congr_left' (iff_of_true trivial rfl))
    rintro rfl
    exact ⟨hi, by rw [hre]; decide⟩
  · exact mem_pending.mpr ⟨hi, hre⟩
  · ext i
    rw [Finset.mem_erase, mem_pending, mem_pending, s.nBuckets, noted_rehash hc.dibs,
      and_left_comm]
    rfl

structure Swapped (h h' : HashmapBase) (idx d : Nat) (es : List (Ptr × Ptr)) : Prop where
  same : SameTable h h'
  nEntries : h'.nEntries = h.nEntries
  filling : ∃ order, Filling h' True order es
  pending : h'.pending = h.pending
  placed : ∀ i, h'.Placed i ↔ h.Placed i
  far : h'.far idx = d
  hand : (h'.bucket idxPut).key = (h.bucket idx).key

theorem setDib_same : SameTable h (h.setDib i d) := ⟨rfl, rfl, rfl, rfl, rfl, rfl⟩

theorem Filling.insert_swap (hf : Filling h True order es) (hi : idx < h.nBuckets)
    (hd : d = h.bucketDistance idx (h.bucketHash (h.bucket idxPut).key))
    (hm : Probe.MayStand h.nBuckets h.Placed h.far idx d) (hp : h.Placed idx)
    (hlt : h.far idx < d) :
    let g := h.setDib idx (min d dibRawOverflow)
    g.bucketMoveEntry idx idxTmp = .ok (g.moved idx idxTmp) ∧
      (g.moved idx idxTmp).bucketMoveEntry idxPut idx =
        .ok ((g.moved idx idxTmp).moved idxPut idx) ∧
      ((g.moved idx idxTmp).moved idxPut idx).bucketMoveEntry idxTmp idxPut = .ok (g.swapped idx) ∧
      Swapped h (g.swapped idx) idx d es := by
  intro g
  have hput : idxPut ∈ order := (hf.slots _).mpr (.inr ⟨trivial, rfl⟩)
  obtain ⟨hnp, hnt⟩ := hf.robin.lt_put hi
  have hidx : idx ∈ order := (hf.slots _).mpr (.inl ⟨hi, hp.1⟩)
  have htmp : idxTmp ∉ order := fun hm' => ((hf.slots _).mp hm').elim
    (fun hc => (hf.robin.lt_put hc.1).2 rfl) fun hc => idxPut_ne_idxTmp hc.2.symm
  have ht : Threads g order es := hf.threads.congr setDib_same rfl rfl rfl
  obtain ⟨hmove₁, hmove₂, hmove₃, order', ht', hin⟩ :=
    ht.swap (setDib_same.small hf.robin.small) hput hidx htmp hnp
  have s : SameTable h (g.swapped idx) := setDib_same.trans swapped_same
  have hc : SameCounts g (g.swapped idx) := swapped_counts
  have hkey : ∀ i < h.nBuckets, ((g.swapped idx).bucket i).key =
      if i = idx then (h.bucket idxPut).key else (h.bucket i).key := by
    intro i hlt
    obtain ⟨hip, hit⟩ := hf.robin.lt_put hlt
    rw [swapped_key hnp hnt hit, if_neg hip]
    exact apply_ite (fun j => (h.bucket j).key) ..
  have hlow : (g.swapped idx).idxLowestEntry =
      if h.hasIndirect ∧ h.idxLowestEntry > idx then idx else h.idxLowestEntry := by
    rw [hc.idxLowestEntry, if_neg]
    · rfl
    · exact fun hcon => absurd (hf.lowest hcon.1 idx hi hp.1) (not_le_of_gt hcon.2)
  obtain ⟨-, hplaced, hfar⟩ := hf.robin.set s hi hkey hc.dibs hd hm fun _ => hlt.le
  refine ⟨hmove₁, hmove₂, hmove₃, s, hc.nEntries, ⟨order', hf.place s hi hkey hc.dibs hd hm
    (fun _ => hlt.le) hlow ht' fun i => ?_⟩, noted_pending s hc.dibs hp.2, fun i => ?_, ?_, ?_⟩
  · rw [hin, hf.slots]
    refine or_congr (or_iff_right_of_imp ?_).symm Iff.rfl
    rintro rfl
    exact ⟨hi, hp.1⟩
  · rw [hplaced]
    exact or_iff_right_of_imp fun he => he ▸ hp
  · rw [hfar idx hi, Function.update_self]
  · rw [swapped_key hnp hnt idxPut_ne_idxTmp, if_neg hnp.symm, if_pos rfl]
    rfl

theorem Inserted.after {k : HashmapBase} {again : Bool} (hins : Inserted h' k again es)
    (sw : Swapped h h' idx d es) : Inserted h k again es := by
  refine ⟨sw.same.trans hins.same, hins.nEntries.trans sw.nEntries, hins.filling, ?_, hins.stop⟩
  rw [← sw.pending]
  exact hins.pending

theorem Filling.insert_loop : ∀ {fuel : Nat} {h : HashmapBase} {order : List Nat} {idx d : Nat},
    Filling h True order es → idx < h.nBuckets →
    d = h.bucketDistance idx (h.bucketHash (h.bucket idxPut).key) →
    Probe.MayStand h.nBuckets h.Placed h.far idx d →
    (∃ f < h.nBuckets, ¬ h.Placed f ∧ Probe.distance h.nBuckets f idx < fuel) →
    ∃ again h', putRobinHood.loop fuel h idx d = .ok (again, h') ∧ Inserted h h' again es
  | 0, _, _, _, _, _, _, _, _, ⟨_, _, _, hlt⟩ => absurd hlt (Nat.not_lt_zero _)
  | fuel + 1, h, order, idx, d, hf, hi, hd, hm, ⟨f, hfn, hfp, hfuel⟩ => by
    have hdn : d < h.nBuckets := hd ▸ Probe.distance_lt hi (bucketHash_lt hf.robin.pos _)
    have hs := hf.robin.small
    unfold putRobinHood.loop
    simp only [bind, Except.bind, pure, Except.pure, dibAt_of_lt hi]
    by_cases hp : h.Placed idx
    · rw [if_neg fun hc => hc.elim hp.1 hp.2, hf.robin.calculateDib hi hp]
      simp only
      have hne : f ≠ idx := fun he => hfp (he ▸ hp)
      have hnlt : h.nextIdx idx < h.nBuckets := Probe.next_lt hi
      have hcloser : Probe.distance h.nBuckets f (h.nextIdx idx) < fuel :=
        Nat.lt_of_lt_of_le (Probe.distance_closer hi hfn hne) (Nat.le_of_lt_succ hfuel)
      split_ifs with hlt
      · obtain ⟨hm₁, hm₂, hm₃, sw⟩ := hf.insert_swap hi hd hm hp hlt
        obtain ⟨order', hf'⟩ := sw.filling
        have hn := sw.same.nBuckets
        rw [bucketSetDib_of_lt hs hi hdn]
        simp only [hm₁, hm₂, hm₃]
        generalize (h.setDib idx (min d dibRawOverflow)).swapped idx = g at *
        have hnext : g.nextIdx idx = h.nextIdx idx := congrArg (Probe.next · idx) hn
        rw [hnext]
        have hp' := (sw.placed idx).mpr hp
        -- the entry taken out moves on, and stays behind a cell of no more free room
        have hfar : h.far idx + 1 < h.nBuckets := by omega
        have hd' : h.far idx + 1 =
            g.bucketDistance (h.nextIdx idx) (g.bucketHash (g.bucket idxPut).key) := by
          rw [sw.hand, sw.same.bucketHash, bucketDistance, hn]
          exact (Probe.distance_next_of_lt hi (bucketHash_lt hf.robin.pos _) hfar).symm
        have hm' : Probe.MayStand g.nBuckets g.Placed g.far (h.nextIdx idx) (h.far idx + 1) := by
          have hback : Probe.MayStand g.nBuckets g.Placed g.far (Probe.next g.nBuckets idx)
              (h.far idx + 1) := Probe.MayStand.next (hn.symm ▸ hi) hp' (by rw [sw.far]; omega)
          rwa [hn] at hback ⊢
        obtain ⟨again, h', hrun, hins⟩ := hf'.insert_loop (hn.symm ▸ hnlt) hd' hm'
          ⟨f, hn.symm ▸ hfn, fun hc => hfp ((sw.placed f).mp hc), hn.symm ▸ hcloser⟩
        exact ⟨again, h', hrun, hins.after sw⟩
      · have hroom := hf.robin.orderly.lt_distance hfn hfp hi hne hm
        have hd' : d + 1 =
            h.bucketDistance (h.nextIdx idx) (h.bucketHash (h.bucket idxPut).key) := by
          have hlast := Probe.distance_lt hi hfn
          rw [bucketDistance] at hd
          rw [hd]
          exact (Probe.distance_next_of_lt hi (bucketHash_lt hf.robin.pos _) (by omega)).symm
        have hm' : Probe.MayStand h.nBuckets h.Placed h.far (h.nextIdx idx) (d + 1) :=
          Probe.MayStand.next hi hp (by omega)
        exact hf.insert_loop hnlt hd' hm' ⟨f, hfn, hfp, hcloser⟩
    · by_cases hfree : h.dibs idx = dibRawFree
      · obtain ⟨hmove, hins⟩ := hf.insert_free hi hd hm hfree
        have hre : h.dibs idx ≠ dibRawRehash := by
          rw [hfree]
          decide
        have hset : (h.noteLowest idx).bucketSetDib idx d = .ok (h.noted idx d) :=
          bucketSetDib_of_lt hs hi hdn
        rw [if_pos (Or.inl hfree), if_neg hre]
        simp only [hset, hmove, if_neg hre]
        exact ⟨_, _, rfl, hins⟩
      · have hre : h.dibs idx = dibRawRehash := not_not.mp fun hre => hp ⟨hfree, hre⟩
        obtain ⟨hm₁, hm₂, hm₃, hins⟩ := hf.insert_rehash hi hd hm hre
        have hset : ((h.moved idx idxTmp).noteLowest idx).bucketSetDib idx d =
            .ok ((h.noted idx d).moved idx idxTmp) := by
          rw [← moved_noted]
          refine bucketSetDib_of_lt (moved_same.small hs) ?_ ?_
          all_goals exact moved_same.nBuckets.symm ▸ ‹_›
        rw [if_pos (Or.inr hre), if_pos hre, hm₁]
        simp only [hset, hm₂, if_pos hre, hm₃]
        exact ⟨_, _, rfl, hins⟩

end HashmapBase
end Basu
