import Basu.Hashmap.Insert

/-! The growth of a table: its entries are rehashed in place, one displacing the next. -/

namespace Basu

open Lib

namespace HashmapBase

variable {h h' : HashmapBase} {i idx d n : Nat} {order : List Nat} {es : List (Ptr × Ptr)}
  {hand : Prop}

theorem Threads.length_eq (ht : Threads h order es) : order.length = es.length := by
  rw [← ht.entries, List.length_map]

theorem Filling.exists_free (hf : Filling h hand order es)
    (hlt : es.length < h.nBuckets ∨ (hand ∧ es.length ≤ h.nBuckets)) :
    ∃ f < h.nBuckets, h.dibs f = dibRawFree := by
  by_contra hall
  push Not at hall
  have hin : ∀ i ∈ List.range h.nBuckets, i ∈ order := fun i hi =>
    (hf.slots i).mpr (.inl ⟨List.mem_range.mp hi, hall i (List.mem_range.mp hi)⟩)
  have hlen := hf.threads.length_eq
  rcases hlt with hlt | ⟨hh, hle⟩
  · have hsub := (List.nodup_range.subperm hin).length_le
    rw [List.length_range, hlen] at hsub
    omega
  · have hput : idxPut ∉ List.range h.nBuckets := fun hm =>
      (hf.robin.lt_put (List.mem_range.mp hm)).1 rfl
    have hsub := ((List.nodup_cons.mpr ⟨hput, List.nodup_range⟩).subperm fun i hi => by
      rcases List.mem_cons.mp hi with rfl | hi
      · exact (hf.slots _).mpr (.inr ⟨hh, rfl⟩)
      · exact hin i hi).length_le
    rw [List.length_cons, List.length_range, hlen] at hsub
    omega

theorem Filling.pending_card_le (hf : Filling h hand order es) : h.pending.card ≤ es.length := by
  rw [← hf.threads.length_eq, ← List.toFinset_card_of_nodup hf.threads.nodup]
  refine Finset.card_le_card fun i hi => ?_
  obtain ⟨hlt, hre⟩ := mem_pending.mp hi
  exact List.mem_toFinset.mpr ((hf.slots i).mpr (.inl ⟨hlt, by rw [hre]; decide⟩))

theorem Filling.rehashChain : ∀ {fuel : Nat} {h : HashmapBase} {order : List Nat} {n : Nat},
    Filling h True order es → es.length ≤ h.nBuckets → h.pending.card < fuel →
    ∃ h' n' order', rehashChain fuel h (h.bucketHash (h.bucket idxPut).key) n = .ok (h', n') ∧
      SameTable h h' ∧ h'.nEntries = h.nEntries ∧ Filling h' False order' es ∧
      h'.pending ⊆ h.pending ∧ n' + h'.pending.card = n + 1 + h.pending.card
  | 0, _, _, _, _, _, hlt => absurd hlt (Nat.not_lt_zero _)
  | fuel + 1, h, order, n, hf, hle, hlt => by
    obtain ⟨f, hfn, hfree⟩ := hf.exists_free (.inr ⟨trivial, hle⟩)
    have hhome := bucketHash_lt hf.robin.pos (h.bucket idxPut).key
    obtain ⟨again, g, hrun, hins⟩ := hf.insert_loop (d := 0) hhome
      (Probe.distance_self).symm Probe.MayStand.zero
      ⟨f, hfn, fun hc => hc.1 hfree, Probe.distance_lt hfn hhome⟩
    obtain ⟨order', hg⟩ := hins.filling
    have hpend := hins.pending
    unfold HashmapBase.rehashChain
    simp only [putRobinHood, hrun, bind, Except.bind, pure, Except.pure]
    cases again with
    | false =>
      simp only [Bool.false_eq_true, if_false] at hpend ⊢
      refine ⟨g, n + 1, order', rfl, hins.same, hins.nEntries, ?_, ?_, ?_⟩
      · simpa only [Bool.false_eq_true] using hg
      · rw [hpend]
      · rw [hpend]
    | true =>
      simp only [if_true] at hpend ⊢
      obtain ⟨j, hj, hpend⟩ := hpend
      have hcard := Finset.card_erase_of_mem hj
      rw [← hpend] at hcard
      have hpos := Finset.card_pos.mpr ⟨j, hj⟩
      have hg' : Filling g True order' es := by simpa only using hg
      obtain ⟨h', n', order'', hrun', same, hn', hf', hsub, hcount⟩ :=
        hg'.rehashChain (n := n + 1) (hins.same.nBuckets.symm ▸ hle) (by omega : _ < fuel)
      refine ⟨h', n', order'', hrun', hins.same.trans same, hn'.trans hins.nEntries, hf', ?_, ?_⟩
      · exact hsub.trans (hpend ▸ Finset.erase_subset _ _)
      · omega

theorem Threads.setBucket (ht : Threads h order es) (hi : i ∉ order) (e : HashEntry) :
    Threads (h.setBucket i e) order es := by
  have hkeep : ∀ j ∈ order, (h.setBucket i e).bucket j = h.bucket j := fun j hj =>
    setBucket_of_ne (fun he : j = i => hi (he ▸ hj)) e
  refine ⟨ht.nodup, ht.slots, ?_, fun hto => ?_⟩
  · rw [← ht.entries]
    exact List.map_congr_left fun j hj => by
      rw [hkeep j hj]
      rfl
  · have hl := ht.linked hto
    exact ⟨hl.head, hl.tail, hl.chain.congr fun j hj => by rw [hkeep j hj]; exact ⟨rfl, rfl⟩⟩

theorem Filling.rehash_home (hf : Filling h False order es) (hi : idx < h.nBuckets)
    (hre : h.dibs idx = dibRawRehash) (hhome : h.bucketHash (h.bucket idx).key = idx) :
    Filling (h.setDib idx 0) False order es ∧
      (h.setDib idx 0).pending = h.pending.erase idx := by
  have hdib : (h.setDib idx 0).dibs = Function.update h.dibs idx (min 0 dibRawOverflow) := rfl
  refine ⟨hf.place (k := (h.bucket idx).key) setDib_same hi (fun i _ => ?_) hdib ?_
    Probe.MayStand.zero (fun hp => absurd hre hp.2) ?_
    (hf.threads.congr setDib_same rfl rfl rfl) fun i => ?_, ?_⟩
  · split_ifs with he
    · rw [he]
      rfl
    · rfl
  · rw [hhome]
    exact Probe.distance_self.symm
  · rw [if_neg]
    · rfl
    · intro hc
      exact absurd (hf.lowest hc.1 idx hi (by rw [hre]; decide)) (not_le_of_gt hc.2)
  · rw [hf.slots]
    refine or_congr (or_iff_right_of_imp ?_).symm Iff.rfl
    rintro rfl
    exact ⟨hi, by rw [hre]; decide⟩
  · ext i
    rw [Finset.mem_erase, mem_pending, mem_pending, noted_rehash hdib, and_left_comm]
    rfl

def takenUp (h : HashmapBase) (idx : Nat) : HashmapBase :=
  ((h.setDib idx dibRawFree).moved idx idxPut).setBucket idx .zero

theorem Filling.takeUp (hf : Filling h False order es) (hi : idx < h.nBuckets)
    (hre : h.dibs idx = dibRawRehash) :
    (h.setDib idx dibRawFree).bucketMoveEntry idx idxPut =
        .ok ((h.setDib idx dibRawFree).moved idx idxPut) ∧
      SameTable h (h.takenUp idx) ∧ (h.takenUp idx).nEntries = h.nEntries ∧
      (∃ order', Filling (h.takenUp idx) True order' es) ∧
      (h.takenUp idx).pending = h.pending.erase idx ∧
      ((h.takenUp idx).bucket idxPut).key = (h.bucket idx).key := by
  obtain ⟨hnp, -⟩ := hf.robin.lt_put hi
  have hidx : idx ∈ order := (hf.slots _).mpr (.inl ⟨hi, by rw [hre]; decide⟩)
  have hput : idxPut ∉ order := fun hm => ((hf.slots _).mp hm).elim
    (fun hc => (hf.robin.lt_put hc.1).1 rfl) fun hc => hc.1
  have ht : Threads (h.setDib idx dibRawFree) order es := hf.threads.congr setDib_same rfl rfl rfl
  obtain ⟨hmove, ht'⟩ := ht.move hf.robin.small hidx hput (.inr (.inl rfl))
  have s : SameTable h (h.takenUp idx) := setDib_same.trans (moved_same.trans (setBucket_same _))
  have hmc := @moved_counts (h.setDib idx dibRawFree) idx idxPut
  have hc : SameCounts (h.setDib idx dibRawFree) (h.takenUp idx) :=
    ⟨hmc.dibs, hmc.nEntries, hmc.idxLowestEntry⟩
  have hkey : ∀ i ≠ idx, ((h.takenUp idx).bucket i).key =
      (h.bucket (if i = idxPut then idx else i)).key := by
    intro i hne
    rw [takenUp, setBucket_of_ne hne, moved_key]
    split_ifs <;> rfl
  have hdibs : ∀ i ≠ idx, (h.takenUp idx).dibs i = h.dibs i := fun i hne => by
    rw [hc.dibs]
    exact Function.update_of_ne hne ..
  have hidxd : (h.takenUp idx).dibs idx = dibRawFree := by
    rw [hc.dibs]
    exact Function.update_self ..
  have hidx' : idx ∉ order.map (rename idx idxPut) := fun hm =>
    ((mem_rename hidx).mp hm).elim hnp fun hc => hc.2 rfl
  refine ⟨hmove, s, hc.nEntries, ⟨_, ?_, ht'.setBucket hidx' _, fun i => ?_, fun hind i hlt hnf => ?_⟩,
    ?_, by rw [hkey _ hnp.symm, if_pos rfl]⟩
  · refine hf.robin.congr s (fun i _ => ?_) fun i hlt hp => ?_
    · by_cases he : i = idx
      · rw [he, Placed, Placed, hidxd, hre]
        exact iff_of_false (fun hc => hc.1 rfl) fun hc => hc.2 rfl
      · rw [Placed, Placed, hdibs i he]
    · have he : i ≠ idx := fun he => hp.2 (he ▸ hre)
      exact ⟨hdibs i he, by rw [hkey i he, if_neg (hf.robin.lt_put hlt).1]⟩
  · rw [mem_rename hidx, hf.slots, s.nBuckets]
    by_cases he : i = idx
    · rw [he, hidxd]
      refine iff_of_false (fun hc => hc.elim hnp fun hc => hc.2 rfl) ?_
      exact fun hc => hc.elim (fun hc => hc.2 rfl) fun hc => hnp hc.2
    · rw [hdibs i he]
      simp only [false_and, or_false, true_and, he, ne_eq, not_false_eq_true, and_true]
      exact or_comm
  · rw [s.nBuckets] at hlt
    rw [s.hasIndirect] at hind
    have he : i ≠ idx := fun he => hnf (he ▸ hidxd)
    rw [hdibs i he] at hnf
    rw [hc.idxLowestEntry]
    exact hf.lowest hind i hlt hnf
  · ext i
    rw [Finset.mem_erase, mem_pending, mem_pending, s.nBuckets]
    by_cases he : i = idx
    · rw [he, hidxd]
      exact iff_of_false (fun hc => absurd hc.2 (by decide)) fun hc => hc.1 rfl
    · rw [hdibs i he]
      exact (and_iff_right he).symm

theorem Filling.rehashEntries : ∀ {left : Nat} {h : HashmapBase} {order : List Nat} {idx n : Nat},
    Filling h False order es → es.length ≤ h.nBuckets → h.nEntries = es.length →
    idx + left ≤ h.nBuckets → (∀ i ∈ h.pending, idx ≤ i ∧ i < idx + left) →
    ∃ h' order', rehashEntries left h idx n = .ok (h', n + h.pending.card) ∧ SameTable h h' ∧
      h'.nEntries = h.nEntries ∧ Filling h' False order' es ∧ h'.pending = ∅
  | 0, h, order, idx, n, hf, _, _, _, hpend => by
    have hempty : h.pending = ∅ := Finset.eq_empty_of_forall_notMem fun i hi => by
      obtain ⟨h1, h2⟩ := hpend i hi
      omega
    refine ⟨h, order, ?_, .refl h, rfl, hf, hempty⟩
    rw [hempty, Finset.card_empty]
    rfl
  | left + 1, h, order, idx, n, hf, hle, hne, hroom, hpend => by
    have hi : idx < h.nBuckets := by omega
    unfold HashmapBase.rehashEntries
    simp only [bind, Except.bind, dibAt_of_lt hi, bucketAt_of_lt hi]
    have hrest : ∀ {g : HashmapBase}, g.pending ⊆ h.pending → idx ∉ g.pending →
        ∀ i ∈ g.pending, idx + 1 ≤ i ∧ i < idx + 1 + left := by
      intro g hsub hnot i hig
      obtain ⟨h1, h2⟩ := hpend i (hsub hig)
      have hne : i ≠ idx := fun he => hnot (he ▸ hig)
      omega
    by_cases hre : h.dibs idx = dibRawRehash
    · have hmem : idx ∈ h.pending := mem_pending.mpr ⟨hi, hre⟩
      have hcard := Finset.card_erase_of_mem hmem
      have hpos := Finset.card_pos.mpr ⟨idx, hmem⟩
      rw [if_neg (not_not.mpr hre)]
      split_ifs with hhome
      · obtain ⟨hf', hpend'⟩ := hf.rehash_home hi hre hhome
        obtain ⟨h', order', hrun, same, hn', hf'', hdone⟩ :=
          hf'.rehashEntries (n := n + 1) hle hne (by omega : idx + 1 + left ≤ h.nBuckets)
            (hrest (hpend' ▸ Finset.erase_subset _ _) (hpend' ▸ Finset.notMem_erase _ _))
        refine ⟨h', order', ?_, setDib_same.trans same, hn', hf'', hdone⟩
        rw [hrun, hpend', hcard]
        congr 2
        omega
      · obtain ⟨hmove, s, hn₁, ⟨order₁, hf₁⟩, hpend₁, hkey⟩ := hf.takeUp hi hre
        have hzero : ((h.setDib idx dibRawFree).moved idx idxPut).modifyBucket idx
            (fun _ => .zero) = .ok (h.takenUp idx) := modifyBucket_of_lt (by
          rw [(setDib_same.trans moved_same).nBuckets]
          exact hi) _
        simp only [hmove, hzero]
        have hcard₁ : (h.takenUp idx).pending.card < (h.takenUp idx).nEntries + 1 := by
          rw [hn₁, hne]
          exact Nat.lt_succ_of_le hf₁.pending_card_le
        obtain ⟨g, n', order₂, hrun, s', hn', hf₂, hsub, hcount⟩ :=
          hf₁.rehashChain (n := n) (s.nBuckets.symm ▸ hle) hcard₁
        rw [hkey, s.bucketHash] at hrun
        simp only [hrun]
        rw [hpend₁] at hsub hcount
        have hg := (s.trans s').nBuckets
        obtain ⟨h', order', hrun', same, hn'', hf'', hdone⟩ :=
          hf₂.rehashEntries (n := n') (hg.symm ▸ hle) (hn'.trans (hn₁.trans hne))
            (by omega : idx + 1 + left ≤ g.nBuckets)
            (hrest (hsub.trans (Finset.erase_subset _ _))
              fun hm => Finset.notMem_erase _ _ (hsub hm))
        refine ⟨h', order', ?_, (s.trans s').trans same, hn''.trans (hn'.trans hn₁), hf'', hdone⟩
        rw [hrun']
        congr 2
        omega
    · rw [if_pos hre]
      obtain ⟨h', order', hrun, same, hn', hf', hdone⟩ :=
        hf.rehashEntries (n := n) hle hne (by omega : idx + 1 + left ≤ h.nBuckets)
          (hrest (Finset.Subset.refl _) fun hm => hre (mem_pending.mp hm).2)
      exact ⟨h', order', hrun, same, hn', hf', hdone⟩

structure Valid (h : HashmapBase) (es : List (Ptr × Ptr)) : Prop where
  filling : ∃ order, Filling h False order es
  settled : h.pending = ∅
  stop : h.Stop
  nEntries : h.nEntries = es.length
  bounded : h.nBuckets * (h.type.entrySize + 1) ≤ 2 ^ 31
  distinct : es.Pairwise fun a b => h.hashOps.compare a.1 b.1 ≠ 0

def bucketsWanted (m : Nat) : Nat := m + m / (invKeepFree - 1)

/-- Growing for one more entry takes more than `2 ^ 31` bytes, though few enough to be counted. -/
def Overgrown (h : HashmapBase) : Prop :=
  h.nBuckets < bucketsWanted (h.nEntries + 1) ∧
    2 ^ 31 < bucketsWanted (h.nEntries + 1) * (h.type.entrySize + 1) ∧
    bucketsWanted (h.nEntries + 1) ≤ uint32Max / (h.type.entrySize + 1)

instance (h : HashmapBase) : Decidable h.Overgrown := inferInstanceAs (Decidable (_ ∧ _))

theorem log2uRoundUp_lt {x k : Nat} (hx : 1 < x) : log2uRoundUp x < k + 1 ↔ x ≤ 2 ^ k := by
  rw [log2uRoundUp, if_neg hx.ne', Nat.succ_lt_succ_iff, Nat.log2_lt (by omega)]
  omega

theorem le_two_pow_log2uRoundUp {x : Nat} (hx : 1 < x) : x ≤ 2 ^ log2uRoundUp x :=
  (log2uRoundUp_lt hx).mp (Nat.lt_succ_self _)

theorem entrySize_pos (t : HashmapType) : 8 ≤ t.entrySize := by cases t <;> decide

theorem Filling.grow (hf : Filling h False order es) {shift : Nat} (key : HashKey)
    (hn : h.nBuckets ≤ 2 ^ shift / (h.type.entrySize + 1)) (hs : shift < 32) :
    Filling (h.grown shift key) False order es ∧ (h.grown shift key).pending.card = es.length ∧
      ∀ i ∈ (h.grown shift key).pending, i < h.nBuckets := by
  have hmem : ∀ i, i ∈ order ↔ i < h.nBuckets ∧ h.dibs i ≠ dibRawFree := fun i =>
    (hf.slots i).trans (or_iff_left fun hc => hc.1)
  have hdibs : ∀ i, (h.grown shift key).dibs i =
      if i < h.nBuckets ∧ h.dibs i ≠ dibRawFree then dibRawRehash else dibRawFree := fun _ => rfl
  have hfree : ∀ i, (h.grown shift key).dibs i ≠ dibRawFree ↔ i ∈ order := by
    intro i
    rw [hdibs, hmem]
    split_ifs with hc
    · exact iff_of_true (by decide) hc
    · exact iff_of_false (fun hc => hc rfl) hc
  have hpending : ∀ i, i ∈ (h.grown shift key).pending ↔ i ∈ order := by
    intro i
    rw [mem_pending, hdibs, hmem]
    split_ifs with hc
    · exact iff_of_true ⟨hc.1.trans_le hn, rfl⟩ hc
    · exact iff_of_false (fun hc => absurd hc.2 (by decide)) hc
  have hunplaced : ∀ i, ¬ (h.grown shift key).Placed i := by
    intro i hp
    have hd := hdibs i
    split_ifs at hd with hc
    · exact hp.2 hd
    · exact hp.1 hd
  have hkeep : ∀ i ∈ order, (h.grown shift key).bucket i = h.bucket i := fun i hi =>
    if_pos ((hmem i).mp hi).1
  refine ⟨⟨⟨lt_of_lt_of_le hf.robin.pos hn, ?_, fun i _ hp => absurd hp (hunplaced i),
    fun i _ hp => absurd hp (hunplaced i)⟩, ⟨hf.threads.nodup, fun i hi => ?_, ?_, fun hto => ?_⟩,
    fun i => ?_, fun hind i hlt hnf => ?_⟩, ?_, fun i hi => ((hmem i).mp ((hpending i).mp hi)).1⟩
  · have hsize : 2 ^ shift ≤ 2 ^ 31 := Nat.pow_le_pow_right (by decide) (by omega)
    calc 2 ^ shift / (h.type.entrySize + 1) ≤ 2 ^ shift := Nat.div_le_self _ _
      _ ≤ 2 ^ 31 := hsize
      _ ≤ idxSwapBegin := by decide
  · exact .inl (((hmem i).mp hi).1.trans_le hn)
  · rw [← hf.threads.entries]
    exact List.map_congr_left fun i hi => by
      rw [hkeep i hi]
      rfl
  · have hl := hf.threads.linked hto
    exact ⟨hl.head, hl.tail, hl.chain.congr fun i hi => by rw [hkeep i hi]; exact ⟨rfl, rfl⟩⟩
  · rw [hfree]
    refine ⟨fun hi => .inl ⟨((hmem i).mp hi).1.trans_le hn, hi⟩, fun hc => ?_⟩
    exact hc.elim (fun hc => hc.2) fun hc => absurd hc.1 id
  · have hi := (hfree i).mp hnf
    change (if h.hasIndirect then h.idxLowestEntry else 0) ≤ i
    split_ifs with hold
    · exact hf.lowest hold i ((hmem i).mp hi).1 ((hmem i).mp hi).2
    · exact Nat.zero_le i
  · rw [← hf.threads.length_eq, ← List.toFinset_card_of_nodup hf.threads.nodup]
    congr 1
    ext i
    rw [hpending, List.mem_toFinset]

/-- Growing for one more entry needs storage that is not granted, or takes too many buckets. -/
def Refuses (h : HashmapBase) (a : Resizing) : Prop :=
  h.nBuckets < bucketsWanted (h.nEntries + 1) ∧ (a.granted = false ∨
    uint32Max / (h.type.entrySize + 1) < bucketsWanted (h.nEntries + 1))

inductive Resized (h : HashmapBase) (es : List (Ptr × Ptr)) (a : Resizing) :
    Except Errno Nat × HashmapBase → Prop
  | kept (hroom : es.length < h.nBuckets) : Resized h es a (.ok 0, h)
  | grown (g : HashmapBase) (hv : Valid g es) (hroom : es.length < g.nBuckets)
      (hops : g.hashOps = h.hashOps) (htype : g.type = h.type)
      (hshared : g.sharedHashKey = h.sharedHashKey) : Resized h es a (.ok 1, g)
  | refused (hno : h.Refuses a) : Resized h es a (.error .enomem, h)

theorem Filling.length_le (hf : Filling h False order es) : es.length ≤ h.nBuckets := by
  by_contra hlt
  have hsub := (hf.threads.nodup.subperm fun i hi => List.mem_range.mpr
    (((hf.slots i).mp hi).elim (fun hc => hc.1) fun hc => absurd hc.1 id)).length_le
  rw [List.length_range, hf.threads.length_eq] at hsub
  omega

theorem Valid.wanted_lt (hv : Valid h es) :
    h.nEntries + 1 < 2 ^ 32 ∧ bucketsWanted (h.nEntries + 1) < 2 ^ 32 := by
  obtain ⟨order, hf⟩ := hv.filling
  have hle := hf.length_le
  have hb := hv.bounded
  have he := entrySize_pos h.type
  have hn : h.nBuckets * 9 ≤ 2 ^ 31 :=
    (Nat.mul_le_mul_left _ (Nat.succ_le_succ he)).trans hb
  rw [hv.nEntries, bucketsWanted, invKeepFree]
  omega

theorem nDirectBuckets_le (t : HashmapType) : t.nDirectBuckets ≤ 4 ∧ t.entrySize ≤ 24 := by
  cases t <;> decide

theorem Valid.indirect_of_overgrown (hv : Valid h es) (ho : h.Overgrown) :
    h.hasIndirect = true := by
  by_contra hd
  obtain ⟨order, hf⟩ := hv.filling
  have hle := hf.length_le
  obtain ⟨h1, h2⟩ := nDirectBuckets_le h.type
  have hbig := ho.2.1
  rw [nBuckets, if_neg hd] at hle
  have hw : bucketsWanted (h.nEntries + 1) ≤ 6 := by
    rw [hv.nEntries, bucketsWanted, invKeepFree]
    omega
  have hm : bucketsWanted (h.nEntries + 1) * (h.type.entrySize + 1) ≤ 6 * (24 + 1) :=
    Nat.mul_le_mul hw (Nat.succ_le_succ h2)
  omega

theorem Valid.nBuckets_le (hv : Valid h es) : h.nBuckets ≤ uint32Max / (h.type.entrySize + 1) :=
  (Nat.le_div_iff_mul_le (Nat.succ_pos _)).mpr (hv.bounded.trans (by decide))

theorem Valid.resize (hv : Valid h es) (a : Resizing) :
    (h.Overgrown → h.resizeBuckets 1 a = .error .undefined) ∧
      (¬ h.Overgrown → ∃ r, h.resizeBuckets 1 a = .ok r ∧ Resized h es a r) := by
  obtain ⟨order, hf⟩ := hv.filling
  obtain ⟨hm, hw⟩ := hv.wanted_lt
  have hle : h.nEntries + 1 ≤ bucketsWanted (h.nEntries + 1) := Nat.le_add_right _ _
  have hdef : bucketsWanted (h.nEntries + 1) =
    h.nEntries + 1 + (h.nEntries + 1) / (invKeepFree - 1) := rfl
  have hone : 1 < max (bucketsWanted (h.nEntries + 1) * (h.type.entrySize + 1))
      (2 * sizeofDirectStorage) := lt_of_lt_of_le (by decide) (le_max_right _ _)
  have hshift := log2uRoundUp_lt (k := 31) hone
  have hog : h.Overgrown ↔ h.nBuckets < bucketsWanted (h.nEntries + 1) ∧
      2 ^ 31 < bucketsWanted (h.nEntries + 1) * (h.type.entrySize + 1) ∧
      bucketsWanted (h.nEntries + 1) ≤ uint32Max / (h.type.entrySize + 1) := Iff.rfl
  have hrefuse : h.Refuses a ↔ h.nBuckets < bucketsWanted (h.nEntries + 1) ∧ (a.granted = false ∨
      uint32Max / (h.type.entrySize + 1) < bucketsWanted (h.nEntries + 1)) := Iff.rfl
  have hno := fun ho => @Resized.refused h es a (hrefuse.mpr ho)
  have hind := hv.indirect_of_overgrown
  rw [hog] at hind ⊢
  unfold resizeBuckets
  simp only [bind, Except.bind, pure, Except.pure, Nat.mod_eq_of_lt hm]
  rw [if_neg (by omega : ¬ h.nEntries + 1 < 1), ← hdef, Nat.mod_eq_of_lt hw,
    if_neg (by omega : ¬ bucketsWanted (h.nEntries + 1) < h.nEntries + 1)]
  generalize bucketsWanted (h.nEntries + 1) = w at *
  by_cases hdirect : h.hasIndirect = false ∧ h.nEntries + 1 ≤ h.type.nDirectBuckets
  · rw [if_pos hdirect]
    refine ⟨fun ho => ?_, fun _ => ⟨_, rfl, .kept ?_⟩⟩
    · exact absurd (hind ho) (by rw [hdirect.1]; decide)
    · rw [nBuckets, hdirect.1, ← hv.nEntries]
      exact hdirect.2
  rw [if_neg hdirect]
  by_cases hmax : w > uint32Max / (h.type.entrySize + 1)
  · rw [if_pos hmax]
    exact ⟨fun ho => absurd ho.2.2 (not_le_of_gt hmax),
      fun _ => ⟨_, rfl, hno ⟨hv.nBuckets_le.trans_lt hmax, .inr hmax⟩⟩⟩
  rw [if_neg hmax]
  by_cases hfit : w ≤ h.nBuckets
  · rw [if_pos hfit]
    refine ⟨fun ho => absurd ho.1 (not_lt_of_ge hfit), fun _ => ⟨_, rfl, .kept ?_⟩⟩
    rw [← hv.nEntries]
    omega
  rw [if_neg hfit]
  by_cases hbig : 2 ^ 31 < w * (h.type.entrySize + 1)
  · have h32 : 32 ≤ log2uRoundUp (max (w * (h.type.entrySize + 1)) (2 * sizeofDirectStorage)) :=
      Nat.le_of_not_lt fun hlt =>
        absurd ((le_max_left _ _).trans (hshift.mp hlt)) (not_le_of_gt hbig)
    rw [if_pos h32]
    exact ⟨fun _ => rfl, fun ho => absurd ⟨Nat.lt_of_not_le hfit, hbig, Nat.le_of_not_lt hmax⟩ ho⟩
  have hlt : log2uRoundUp (max (w * (h.type.entrySize + 1)) (2 * sizeofDirectStorage)) < 32 :=
    hshift.mpr (max_le (Nat.le_of_not_lt hbig) (by decide))
  have hroom := (le_max_left _ _).trans (le_two_pow_log2uRoundUp hone)
  refine ⟨fun ho => absurd ho.2.1 hbig, fun _ => ?_⟩
  rw [if_neg (not_le_of_gt hlt)]
  generalize log2uRoundUp (max (w * (h.type.entrySize + 1)) (2 * sizeofDirectStorage)) = shift at *
  split_ifs with hgrant hre
  · exact ⟨_, rfl, hno ⟨Nat.lt_of_not_le hfit, .inl hgrant⟩⟩
  · obtain ⟨i, hi, hre⟩ := hre
    exact absurd (mem_pending.mpr ⟨hi, hre⟩) (by rw [hv.settled]; exact Finset.notMem_empty i)
  have hnew : w ≤ 2 ^ shift / (h.type.entrySize + 1) :=
    (Nat.le_div_iff_mul_le (Nat.succ_pos _)).mpr hroom
  have hold : h.nBuckets ≤ 2 ^ shift / (h.type.entrySize + 1) :=
    (Nat.le_of_not_le hfit).trans hnew
  obtain ⟨hg, hcard, hbelow⟩ := hf.grow a.hashKey hold hlt
  have hcount : es.length < (h.grown shift a.hashKey).nBuckets := by
    change es.length < 2 ^ shift / (h.type.entrySize + 1)
    rw [← hv.nEntries]
    omega
  obtain ⟨g, order', hrun, same, hne, hf', hdone⟩ :=
    hg.rehashEntries (n := 0) hcount.le hv.nEntries
      ((Nat.zero_add h.nBuckets).symm ▸ hold : 0 + h.nBuckets ≤ _) fun i hi => ⟨Nat.zero_le i, by
        rw [Nat.zero_add]
        exact hbelow i hi⟩
  simp only [hrun, Nat.zero_add]
  have hgn := hne.trans hv.nEntries
  rw [if_neg (not_not.mpr (hcard.trans hgn.symm))]
  refine ⟨_, rfl, .grown g ⟨⟨order', hf'⟩, hdone, ?_, hgn, ?_, ?_⟩ ?_ same.hashOps same.type
    same.sharedHashKey⟩
  · obtain ⟨f, hfn, hfree⟩ := hf'.exists_free (.inl (same.nBuckets.symm ▸ hcount))
    exact ⟨f, hfn, fun hp => absurd hfree hp.1⟩
  · rw [same.nBuckets, same.type]
    exact (Nat.div_mul_le_self _ _).trans (Nat.pow_le_pow_right (by decide) (by omega))
  · rw [same.hashOps]
    exact hv.distinct
  · exact same.nBuckets.symm ▸ hcount

end HashmapBase
end Basu
