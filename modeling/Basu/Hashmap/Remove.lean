import Basu.Hashmap.Shift

/-! Removal: the entry is unlinked, those behind it are shifted, and the last bucket is given up. -/

namespace Basu

open Lib

namespace HashmapBase

variable {h g : HashmapBase} {i idx d j n : Nat} {order as bs : List Nat}
  {es : List (Ptr × Ptr)} {key : Ptr}

def unlinked (h : HashmapBase) (le : HashEntry) : HashmapBase :=
  { (h.touch le.iterateNext (pointBack le.iteratePrevious)).touch le.iteratePrevious
      (pointOn le.iterateNext) with
    iterateListTail := if le.iterateNext ≠ idxNil then h.iterateListTail else le.iteratePrevious
    iterateListHead := if le.iteratePrevious ≠ idxNil then h.iterateListHead else le.iterateNext }

theorem unlinked_same (le : HashEntry) : SameTable h (h.unlinked le) := by
  have s : SameTable h ((h.touch le.iterateNext (pointBack le.iteratePrevious)).touch
    le.iteratePrevious (pointOn le.iterateNext)) := (touch_same _).trans (touch_same _)
  exact ⟨s.hashOps, s.type, s.hasIndirect, s.sharedHashKey, s.indirectHashKey,
    s.indirectNBuckets⟩

theorem unlinked_counts (le : HashEntry) : SameCounts h (h.unlinked le) := by
  unfold unlinked touch
  split_ifs <;> exact ⟨rfl, rfl, rfl⟩

theorem unlinked_pair (le : HashEntry) (i : Nat) :
    (h.unlinked le).pair ((h.unlinked le).bucket i) = h.pair (h.bucket i) :=
  (touch_pair pair_pointOn i).trans (touch_pair pair_pointBack i)

theorem Filling.unlinked_linked (hf : Filling h False (as ++ idx :: bs) es)
    (hto : h.type = .ordered) : (h.unlinked (h.bucket idx)).Linked (as ++ bs) := by
  have hl := hf.threads.linked hto
  have hnil := hf.threads.nil_notMem hf.robin.small
  have hnd := hf.threads.nodup
  obtain ⟨hprev, hnext⟩ := hl.chain.split
  have hidx : idx ∈ as ++ idx :: bs := List.mem_append_right _ (List.mem_cons_self ..)
  have hsub : ∀ i ∈ as ++ bs, i ∈ as ++ idx :: bs := fun i hi =>
    (List.mem_append.mp hi).elim (List.mem_append_left _) fun hi =>
      List.mem_append_right _ (List.mem_cons_of_mem _ hi)
  have hmem0 : ∀ i ∈ as ++ bs, i ≠ idxNil := fun i hi he => hnil (he ▸ hsub i hi)
  refine ⟨?_, ?_, ?_⟩
  · change (if (h.bucket idx).iteratePrevious ≠ idxNil then h.iterateListHead
      else (h.bucket idx).iterateNext) = _
    cases as with
    | nil =>
      have hp0 : (h.bucket idx).iteratePrevious = idxNil := hprev
      rw [if_neg (not_not.mpr hp0), hnext, List.nil_append]
    | cons a as =>
      have hin : as.getLastD a ∈ a :: as := List.getLastD_mem_cons
      rw [hprev, List.getLastD_cons, if_pos (hmem0 _ (List.mem_append_left _ hin)), hl.head]
      rfl
  · change (if (h.bucket idx).iterateNext ≠ idxNil then h.iterateListTail
      else (h.bucket idx).iteratePrevious) = _
    cases bs with
    | nil =>
      have hn0 : (h.bucket idx).iterateNext = idxNil := hnext
      rw [if_neg (not_not.mpr hn0), hprev, List.append_nil]
    | cons b bs =>
      have hb : b ≠ idxNil := hmem0 b (List.mem_append_right _ (List.mem_cons_self ..))
      have hnb : (h.bucket idx).iterateNext = b := hnext
      rw [hnb, if_pos hb, hl.tail, Chained.getLastD_append_cons, Chained.getLastD_append_cons,
        List.getLastD_cons]
  · refine hl.chain.unlink hnd (fun he => hnil (he ▸ hidx)) (fun he => hnil (he ▸ hidx))
      fun j hj => ?_
    have hj' := hsub j hj
    have hnx := hl.chain.next_eq_iff hnd hnil hnil hj' hidx
    have hpv := hl.chain.next_eq_iff hnd hnil hnil hidx hj'
    have hiff₁ : (j = (h.bucket idx).iteratePrevious ∧ (h.bucket idx).iteratePrevious ≠ idxNil) ↔
        (h.bucket j).iterateNext = idx :=
      ⟨fun hc => hnx.mpr hc.1.symm, fun he => ⟨(hnx.mp he).symm, hnx.mp he ▸ hmem0 j hj⟩⟩
    have hiff₂ : (j = (h.bucket idx).iterateNext ∧ (h.bucket idx).iterateNext ≠ idxNil) ↔
        (h.bucket j).iteratePrevious = idx :=
      ⟨fun hc => hpv.mp hc.1.symm, fun he => ⟨(hpv.mpr he).symm, hpv.mpr he ▸ hmem0 j hj⟩⟩
    refine ⟨touch_pointOn.1.trans ?_, touch_pointOn.2.trans (touch_pointBack.1.trans ?_)⟩
    · simp only [hiff₁, touch_pointBack.2]
    · simp only [hiff₂]

theorem unlinkNext_eq {le : HashEntry} (hn : le.iterateNext ≠ idxNil → le.iterateNext < h.nBuckets) :
    h.unlinkNext le = .ok { h.touch le.iterateNext (pointBack le.iteratePrevious) with
      iterateListTail :=
        if le.iterateNext ≠ idxNil then h.iterateListTail else le.iteratePrevious } := by
  unfold unlinkNext touch
  split_ifs with h0
  · exact modifyBucket_of_lt (hn h0) _
  · rfl

theorem unlinkPrevious_eq {le : HashEntry}
    (hp : le.iteratePrevious ≠ idxNil → le.iteratePrevious < h.nBuckets) :
    h.unlinkPrevious le = .ok { h.touch le.iteratePrevious (pointOn le.iterateNext) with
      iterateListHead :=
        if le.iteratePrevious ≠ idxNil then h.iterateListHead else le.iterateNext } := by
  unfold unlinkPrevious touch
  split_ifs with h0
  · exact modifyBucket_of_lt (hp h0) _
  · rfl

theorem Filling.unlinkEntry_eq (hf : Filling h False order es) (hto : h.type = .ordered)
    (hidx : idx ∈ order) : h.unlinkEntry idx = .ok (h.unlinked (h.bucket idx)) := by
  have hl := hf.threads.linked hto
  have hlt : ∀ i ∈ order, i < h.nBuckets := fun i hi =>
    (((hf.slots i).mp hi).resolve_right fun hc => hc.1).1
  have hnext := fun h0 => hlt _ (hl.neighbour hidx (.inl rfl) h0)
  have hprev := fun h0 => hlt _ (hl.neighbour hidx (.inr rfl) h0)
  -- the entry behind is in another bucket, so the removed one is read twice alike
  have hne : idx ≠ (h.bucket idx).iterateNext := fun he =>
    hl.chain.next_ne hf.threads.nodup (hf.threads.nil_notMem hf.robin.small) hidx he.symm
  have ht : SameTable h (h.touch (h.bucket idx).iterateNext
    (pointBack (h.bucket idx).iteratePrevious)) := touch_same _
  have hn := ht.nBuckets
  have hb := touch_of_ne (h := h) hne (pointBack (h.bucket idx).iteratePrevious)
  unfold HashmapBase.unlinkEntry
  rw [if_pos hto, bucketAt_of_lt (hlt idx hidx)]
  simp only [bind, Except.bind, unlinkNext_eq hnext]
  rw [bucketAt_of_lt (hn.symm ▸ hlt idx hidx)]
  simp only [hb]
  rw [unlinkPrevious_eq fun h0 => hn.symm ▸ hprev h0]
  unfold unlinked touch
  split_ifs <;> rfl

theorem Filling.unlinkEntry (hf : Filling h False order es) (hidx : idx ∈ order) :
    ∃ u, h.unlinkEntry idx = .ok u ∧ SameTable h u ∧ SameCounts h u ∧
      (∀ i, u.pair (u.bucket i) = h.pair (h.bucket i)) ∧
      Threads u (order.erase idx) ((order.erase idx).map fun i => h.pair (h.bucket i)) := by
  have hslots : ∀ i ∈ order.erase idx, h.Slot i := fun i hi =>
    hf.threads.slots i (List.mem_of_mem_erase hi)
  have hnd := hf.threads.nodup.erase idx
  by_cases hto : h.type = .ordered
  · have s : SameTable h (h.unlinked (h.bucket idx)) := unlinked_same _
    refine ⟨_, hf.unlinkEntry_eq hto hidx, s, unlinked_counts _, unlinked_pair _, hnd,
      fun i hi => s.slot_iff.mpr (hslots i hi), ?_, fun _ => ?_⟩
    · exact List.map_congr_left fun i _ => unlinked_pair _ i
    · obtain ⟨as, bs, rfl⟩ := List.append_of_mem hidx
      have hnot : idx ∉ as := fun hm =>
        (List.nodup_append.mp hf.threads.nodup).2.2 idx hm idx (List.mem_cons_self ..) rfl
      rw [List.erase_append_right _ hnot, List.erase_cons_head]
      exact hf.unlinked_linked hto
  · exact ⟨h, if_neg hto, .refl h, ⟨rfl, rfl, rfl⟩, fun _ => rfl, hnd, hslots, rfl,
      fun ht => absurd ht hto⟩

theorem Valid.others {h : HashmapBase} (hf : Filling h False order es) :
    h.Others idx (order.erase idx) := by
  intro i
  rw [hf.threads.nodup.mem_erase_iff, hf.slots, or_iff_left fun hc => hc.1]
  exact ⟨fun hc => ⟨hc.2.1, hc.2.2, hc.1⟩, fun hc => ⟨hc.2.2, hc.1, hc.2.1⟩⟩

theorem back_zero : Probe.back n idx 0 i = i := if_neg fun hc => by omega

theorem Filling.shifting {u : HashmapBase} (hf : Filling h False order es) (s : SameTable h u)
    (c : SameCounts h u) (hpair : ∀ i, u.pair (u.bucket i) = h.pair (h.bucket i))
    {order' : List Nat} {es' : List (Ptr × Ptr)} (ht : Threads u order' es') :
    Shifting h u idx 0 order' es' := by
  have hplaced : ∀ i, u.Placed i ↔ h.Placed i := fun i => by rw [Placed, Placed, c.dibs]
  refine ⟨s, c.nEntries, c.idxLowestEntry, ?_, hplaced, fun m _ => ?_, fun m _ _ => ?_, ?_⟩
  · exact hf.robin.congr s (fun i _ => hplaced i) fun i _ _ =>
      ⟨by rw [c.dibs], congrArg Prod.fst (hpair i)⟩
  · rw [hpair, if_neg (Nat.not_lt_zero m)]
  · rw [c.dibs]
  · have hid : order'.map (Probe.back h.nBuckets idx 0) = order' := by
      rw [List.map_congr_left fun i _ => back_zero, List.map_id']
    rwa [hid]

theorem Shifting.dibs_iff (sh : Shifting h g idx j order es) (hs : h.ShiftsFor idx d)
    (hi : idx < h.nBuckets) (hset : ∀ i < h.nBuckets, h.dibs i ≠ dibRawRehash)
    (hocc : h.Placed idx) (hj : j ≤ d) {i : Nat} (hlt : i < h.nBuckets) {x : Nat}
    (hx : x = dibRawFree ∨ x = dibRawRehash) : g.dibs i = x ↔ h.dibs i = x := by
  have hm := Probe.add_distance hlt hi
  have hmlt := Probe.distance_lt hlt hi
  generalize Probe.distance h.nBuckets i idx = m at hm hmlt
  rcases Nat.lt_or_ge m j with hmj | hmj
  · have hp : h.Placed i := by
      rcases Nat.eq_zero_or_pos m with h0 | h1
      · rw [h0, Nat.add_zero, Nat.mod_eq_of_lt hi] at hm
        exact hm ▸ hocc
      · have hsh := hs.shifts m h1 (by omega)
        rw [hm] at hsh
        exact ⟨hsh.2, hset i hlt⟩
    have hpg := (sh.placed i).mpr hp
    rcases hx with rfl | rfl
    · exact iff_of_false hpg.1 hp.1
    · exact iff_of_false hpg.2 hp.2
  · rw [← hm, sh.later m hmlt hmj]

theorem Shifting.far_right (sh : Shifting h g idx d order es) (hr : h.Robin)
    (hs : h.ShiftsFor idx d) (hi : idx < h.nBuckets)
    (hset : ∀ i < h.nBuckets, h.dibs i ≠ dibRawRehash) (hocc : h.Placed idx)
    (hp : g.Placed ((idx + (d + 1)) % h.nBuckets)) : g.far ((idx + (d + 1)) % h.nBuckets) = 0 := by
  have hpos : 0 < h.nBuckets := by omega
  have hlt : (idx + (d + 1)) % h.nBuckets < h.nBuckets := Nat.mod_lt _ hpos
  have hgn := sh.same.nBuckets
  have hstop : h.dibs ((idx + (d + 1)) % h.nBuckets) = 0 := by
    by_contra h0
    exact hs.stop ⟨h0, ((sh.placed _).mp hp).1⟩
  rcases Nat.lt_or_ge (d + 1) h.nBuckets with hd | hd
  · rw [sh.robin.far_eq_zero (hgn.symm ▸ hlt) hp, sh.later _ hd (Nat.le_succ d), hstop]
  · -- the shift has come round to the removed entry
    have hd1 : d + 1 = h.nBuckets := Nat.le_antisymm hs.lt hd
    rw [hd1, Nat.add_mod_right, Nat.mod_eq_of_lt hi] at hp hstop ⊢
    rcases Nat.eq_zero_or_pos d with h0 | h1
    · have hfar := far_lt sh.robin.pos (hgn.symm ▸ hi)
      omega
    · have hnext : h.nextIdx idx = (idx + 1) % h.nBuckets := rfl
      have hnlt : h.nextIdx idx < h.nBuckets := Probe.next_lt hi
      have hsh := hs.shifts 1 le_rfl h1
      rw [← hnext] at hsh
      have hpn : h.Placed (h.nextIdx idx) := ⟨hsh.2, hset _ hnlt⟩
      have hn0 : h.far (h.nextIdx idx) ≠ 0 := fun h0 => hsh.1 ((hr.far_eq_zero hnlt hpn).mp h0)
      have hle := (hr.orderly _ hnlt hpn (Nat.pos_of_ne_zero hn0)).2
      rw [nextIdx, Probe.prev_next hi, (hr.far_eq_zero hi hocc).mpr hstop] at hle
      have hkey := congrArg Prod.fst (sh.pairs 0 hpos)
      rw [if_pos h1, Nat.zero_add, ← hnext, Nat.add_zero, Nat.mod_eq_of_lt hi] at hkey
      have hk : (g.bucket idx).key = (h.bucket (h.nextIdx idx)).key := hkey
      have hback := Probe.distance_prev hnlt (bucketHash_lt hpos (h.bucket (h.nextIdx idx)).key) hn0
      rw [nextIdx, Probe.prev_next hi] at hback
      rw [far, hk, sh.same.bucketHash, bucketDistance, hgn, nextIdx]
      rw [far, bucketDistance] at hle
      omega

theorem Robin.erase (hr : g.Robin) (hi : i < g.nBuckets)
    (hstop : g.Placed (g.nextIdx i) → g.far (g.nextIdx i) = 0) (s : SameTable g h)
    (hk : ∀ j ≠ i, (h.bucket j).key = (g.bucket j).key)
    (hd : h.dibs = Function.update g.dibs i dibRawFree) : h.Robin := by
  have hplaced : ∀ j, h.Placed j ↔ j ≠ i ∧ g.Placed j := by
    intro j
    rw [Placed, hd]
    by_cases he : j = i
    · rw [he, Function.update_self]
      exact iff_of_false (fun hc => hc.1 rfl) fun hc => hc.1 rfl
    · rw [Function.update_of_ne he]
      exact (and_iff_right he).symm
  refine ⟨s.nBuckets ▸ hr.pos, s.small hr.small, fun j hj hp => ?_, ?_⟩
  · obtain ⟨hne, hp⟩ := (hplaced j).mp hp
    rw [s.nBuckets] at hj
    rw [hd, Function.update_of_ne hne, s.far (hk j hne)]
    exact hr.exact j hj hp
  · rw [s.nBuckets]
    exact (hr.orderly.erase hi hstop).congr (fun j _ => hplaced j) fun j _ hp => s.far (hk j hp.1)

structure Removed (h h' : HashmapBase) (idx d : Nat) : Prop where
  same : SameTable h h'
  shifts : h.ShiftsFor idx d
  freed : h'.bucket ((idx + d) % h.nBuckets) = .zero
  pairs : ∀ m < h.nBuckets, m ≠ d → h'.pair (h'.bucket ((idx + m) % h.nBuckets)) =
    h.pair (h.bucket ((idx + if m < d then m + 1 else m) % h.nBuckets))
  free : ∀ i < h.nBuckets,
    h'.dibs i = dibRawFree ↔ i = (idx + d) % h.nBuckets ∨ h.dibs i = dibRawFree
  moved : ∀ order es, Filling h False order es → Filling h' False
    ((order.erase idx).map (Probe.back h.nBuckets idx d))
    ((order.erase idx).map fun i => h.pair (h.bucket i))

theorem Others.mem_back (ho : h.Others idx order) (hs : h.ShiftsFor idx d) (hi : idx < h.nBuckets)
    (hocc : h.dibs idx ≠ dibRawFree) :
    i ∈ order.map (Probe.back h.nBuckets idx d) ↔
      i < h.nBuckets ∧ i ≠ (idx + d) % h.nBuckets ∧ h.dibs i ≠ dibRawFree := by
  have hpos : 0 < h.nBuckets := by omega
  rw [List.mem_map]
  constructor
  · rintro ⟨k, hk, rfl⟩
    have hkocc := ((ho k).mp hk).2.1
    obtain ⟨m, h1, hm, rfl⟩ := ho.exists_add hi hk
    rw [Probe.back_add hi hm]
    split_ifs with hc
    · refine ⟨Nat.mod_lt _ hpos, fun he => ?_, ?_⟩
      · have := Probe.add_inj hi (by omega) hs.lt he
        omega
      · rcases Nat.eq_zero_or_pos (m - 1) with h0 | h1
        · rwa [h0, Nat.add_zero, Nat.mod_eq_of_lt hi]
        · exact (hs.shifts _ h1 (by omega)).2
    · refine ⟨Nat.mod_lt _ hpos, fun he => ?_, hkocc⟩
      have := Probe.add_inj hi hm hs.lt he
      omega
  · rintro ⟨hlt, hne, hfree⟩
    have hm := Probe.add_distance hlt hi
    have hmlt := Probe.distance_lt hlt hi
    generalize Probe.distance h.nBuckets i idx = m at hm hmlt
    subst hm
    have hmd : m ≠ d := fun he => hne (he ▸ rfl)
    rcases Nat.lt_or_ge m d with hlt' | hge
    · have hnext := hs.shifts (m + 1) (Nat.succ_pos m) hlt'
      refine ⟨(idx + (m + 1)) % h.nBuckets, (ho _).mpr ⟨Nat.mod_lt _ hpos, hnext.2,
        hs.ne hi (Nat.succ_pos m) hlt'⟩, ?_⟩
      rw [Probe.back_add hi (Nat.lt_of_le_of_lt hlt' hs.lt), if_pos ⟨Nat.succ_pos m, hlt'⟩]
      rfl
    · have hdm : d < m := lt_of_le_of_ne hge hmd.symm
      refine ⟨(idx + m) % h.nBuckets, (ho _).mpr ⟨hlt, hfree, fun he => ?_⟩, ?_⟩
      · have hmm := Probe.distance_add hi hmlt
        rw [he, Probe.distance_self] at hmm
        omega
      · rw [Probe.back_add hi hmlt, if_neg (by omega)]

def emptied (h : HashmapBase) (i : Nat) : HashmapBase :=
  { (h.setBucket i .zero).setDib i dibRawFree with nEntries := h.nEntries - 1 }

theorem bucketMarkFree_eq (hi : i < h.nBuckets) :
    h.bucketMarkFree i = .ok ((h.setBucket i .zero).setDib i dibRawFree) := by
  have hi' : i < (h.setBucket i .zero).nBuckets := hi
  unfold bucketMarkFree
  rw [modifyBucket_of_lt hi]
  simp only [bind, Except.bind]
  rw [bucketSetDib, if_pos hi', if_neg (not_not.mpr rfl)]

theorem emptied_same : SameTable h (h.emptied i) := ⟨rfl, rfl, rfl, rfl, rfl, rfl⟩

theorem emptied_of_ne (hne : j ≠ i) : (h.emptied i).bucket j = h.bucket j := setBucket_of_ne hne _

theorem emptied_dibs : (h.emptied i).dibs = Function.update h.dibs i dibRawFree := rfl

theorem Shifting.filling (hf : Filling h False order es)
    (sh : Shifting h g idx d (order.erase idx) ((order.erase idx).map fun i => h.pair (h.bucket i)))
    (hs : h.ShiftsFor idx d) (hi : idx < h.nBuckets)
    (hset : ∀ i < h.nBuckets, h.dibs i ≠ dibRawRehash) (hocc : h.Placed idx) :
    Filling (g.emptied ((idx + d) % h.nBuckets)) False
      ((order.erase idx).map (Probe.back h.nBuckets idx d))
      ((order.erase idx).map fun i => h.pair (h.bucket i)) := by
  have hgn := sh.same.nBuckets
  have hlast : (idx + d) % h.nBuckets < g.nBuckets := by
    rw [hgn]
    exact Nat.mod_lt _ (by omega)
  have hmem := fun i => (Valid.others hf).mem_back (i := i) hs hi hocc.1
  have hdibs : ∀ i < h.nBuckets, (g.emptied ((idx + d) % h.nBuckets)).dibs i ≠ dibRawFree ↔
      i ≠ (idx + d) % h.nBuckets ∧ h.dibs i ≠ dibRawFree := by
    intro i hlt
    rw [emptied_dibs]
    by_cases he : i = (idx + d) % h.nBuckets
    · rw [he, Function.update_self]
      exact iff_of_false (fun hc => hc rfl) fun hc => hc.1 rfl
    · rw [Function.update_of_ne he, ne_eq, sh.dibs_iff hs hi hset hocc le_rfl hlt (.inl rfl)]
      exact (and_iff_right he).symm
  refine ⟨?_, ⟨sh.threads.nodup, sh.threads.slots, ?_, fun hto => ?_⟩, fun i => ?_,
    fun hind i hlt hnf => ?_⟩
  · refine sh.robin.erase hlast (fun hp => ?_) emptied_same (fun j hj => ?_) rfl
    · rw [nextIdx, hgn, Probe.next_add] at hp ⊢
      exact sh.far_right hf.robin hs hi hset hocc hp
    · rw [emptied_of_ne hj]
  · refine Eq.trans (List.map_congr_left fun i hm => ?_) sh.threads.entries
    rw [emptied_of_ne ((hmem i).mp hm).2.1]
    exact emptied_same.pair _
  · have hl := sh.threads.linked hto
    refine ⟨hl.head, hl.tail, hl.chain.congr fun i hm => ?_⟩
    rw [emptied_of_ne ((hmem i).mp hm).2.1]
    exact ⟨rfl, rfl⟩
  · rw [hmem, emptied_same.nBuckets, hgn, or_iff_left fun hc => hc.1]
    exact and_congr_right fun hlt => (hdibs i hlt).symm
  · rw [emptied_same.nBuckets, hgn] at hlt
    change g.idxLowestEntry ≤ i
    rw [sh.idxLowestEntry]
    rw [emptied_same.hasIndirect, sh.same.hasIndirect] at hind
    exact hf.lowest hind i hlt ((hdibs i hlt).mp hnf).2

theorem Valid.baseRemoveEntry (hv : Valid h es) (hi : idx < h.nBuckets) (hocc : h.Placed idx) :
    ∃ h' d, h.baseRemoveEntry idx = .ok h' ∧ Removed h h' idx d ∧
      h'.nEntries = h.nEntries - 1 ∧ h'.pending = ∅ ∧ h'.Stop := by
  obtain ⟨d, hs⟩ := hv.exists_shifts hi
  have hpos : 0 < h.nBuckets := by omega
  have hset : ∀ i < h.nBuckets, h.dibs i ≠ dibRawRehash := fun i hlt hre => by
    have hm := mem_pending.mpr ⟨hlt, hre⟩
    rw [hv.settled] at hm
    exact Finset.notMem_empty i hm
  have hidx : (idx + 0) % h.nBuckets = idx := Nat.mod_eq_of_lt hi
  have hright : h.findRight idx h.nBuckets (h.nextIdx idx) =
      .ok ((idx + (d + 1)) % h.nBuckets) :=
    hs.findRight hi le_rfl (by omega) (by have := hs.lt; omega)
  have hlast : (idx + d) % h.nBuckets < h.nBuckets := Nat.mod_lt _ hpos
  -- the run, for the order of the entries in any list of the table
  have hrun : ∀ order es, Filling h False order es → ∃ u g, h.unlinkEntry idx = .ok u ∧
      shiftBack ((idx + (d + 1)) % h.nBuckets) u.nBuckets u idx (u.nextIdx idx) =
        .ok (g, (idx + d) % h.nBuckets) ∧
      Shifting h g idx d (order.erase idx)
        ((order.erase idx).map fun i => h.pair (h.bucket i)) := by
    intro order es hf
    have hmem := (hf.slots idx).mpr (.inl ⟨hi, hocc.1⟩)
    obtain ⟨u, hu, s, c, hpair, ht⟩ := hf.unlinkEntry hmem
    have hfuel : d < 0 + u.nBuckets := by
      rw [s.nBuckets, Nat.zero_add]
      exact hs.lt
    obtain ⟨g, hshift, sh⟩ := Shifting.loop (Valid.others hf) hs hi hset hocc
      (hf.shifting s c hpair ht) (Nat.zero_le d) hfuel
    rw [hidx] at hshift
    have hnext : u.nextIdx idx = (idx + (0 + 1)) % h.nBuckets := by
      rw [nextIdx, s.nBuckets]
      rfl
    exact ⟨u, g, hu, hnext ▸ hshift, sh⟩
  obtain ⟨order, hf⟩ := hv.filling
  obtain ⟨u, g, hu, hshift, sh⟩ := hrun order es hf
  have hgn := sh.same.nBuckets
  have hgn := sh.same.nBuckets
  have hlast' : (idx + d) % h.nBuckets < g.nBuckets := hgn.symm ▸ hlast
  have hremove : h.baseRemoveEntry idx = .ok (g.emptied ((idx + d) % h.nBuckets)) := by
    unfold HashmapBase.baseRemoveEntry
    simp only [bind, Except.bind, pure, Except.pure, dibAt_of_lt hi, if_neg hocc.1, hright, hu,
      hshift, bucketMarkFree_eq hlast']
    rfl
  have hfree : ∀ i < h.nBuckets, ∀ x, x = dibRawFree ∨ x = dibRawRehash →
      (g.dibs i = x ↔ h.dibs i = x) := fun i hlt x hx =>
    sh.dibs_iff hs hi hset hocc le_rfl hlt hx
  refine ⟨_, d, hremove, ⟨sh.same.trans emptied_same, hs, setBucket_self _, fun m hm hmd => ?_,
    fun i hlt => ?_, fun order' es' hf' => ?_⟩, ?_, ?_, ?_⟩
  · rw [emptied_of_ne fun he => hmd (Probe.add_inj hi hm hs.lt he)]
    exact (emptied_same.pair _).trans (sh.pairs m hm)
  · rw [emptied_dibs]
    by_cases he : i = (idx + d) % h.nBuckets
    · rw [he, Function.update_self]
      exact iff_of_true rfl (.inl rfl)
    · rw [Function.update_of_ne he, hfree i hlt _ (.inl rfl)]
      exact (or_iff_right he).symm
  · obtain ⟨u', g', hu', hshift', sh'⟩ := hrun order' es' hf'
    obtain rfl := Except.ok.inj (hu'.symm.trans hu)
    obtain rfl := (Prod.ext_iff.mp (Except.ok.inj (hshift'.symm.trans hshift))).1
    exact sh'.filling hf' hs hi hset hocc
  · change g.nEntries - 1 = _
    rw [sh.nEntries]
  · refine Finset.eq_empty_of_forall_notMem fun i hm => ?_
    obtain ⟨hlt, hre⟩ := mem_pending.mp hm
    rw [emptied_same.nBuckets, hgn] at hlt
    rw [emptied_dibs] at hre
    by_cases he : i = (idx + d) % h.nBuckets
    · rw [he, Function.update_self] at hre
      exact absurd hre (by decide)
    · rw [Function.update_of_ne he] at hre
      exact hset i hlt ((hfree i hlt _ (.inr rfl)).mp hre)
  · refine ⟨(idx + d) % h.nBuckets, hlast', fun hp => absurd ?_ hp.1⟩
    exact Function.update_self ..

def without (ops : HashOps) (es : List (Ptr × Ptr)) (key : Ptr) : List (Ptr × Ptr) :=
  es.filter fun e => ops.compare e.1 key ≠ 0

theorem nodup_of_distinct (ops : HashOps)
    (hd : es.Pairwise fun a b => ops.compare a.1 b.1 ≠ 0) : es.Nodup :=
  hd.imp fun {a b} hne he => hne (by rw [he]; exact ops.compare_self _)

theorem erase_map (ops : HashOps) {f : Nat → Ptr × Ptr} (hn : order.Nodup) (hidx : idx ∈ order)
    (hd : (order.map f).Pairwise fun a b => ops.compare a.1 b.1 ≠ 0) :
    (order.erase idx).map f = without ops (order.map f) (f idx).1 := by
  rw [without, List.filter_map, hn.erase_eq_filter]
  congr 1
  refine List.filter_congr fun i hi => ?_
  rw [Function.comp_apply, Bool.eq_iff_iff, bne_iff_ne, decide_eq_true_eq]
  refine not_congr ⟨fun he => he ▸ ops.compare_self _, fun hc => ?_⟩
  have heq := eq_of_distinct ops hd (List.mem_map_of_mem hi) (List.mem_map_of_mem hidx) hc
  exact List.inj_on_of_nodup_map (nodup_of_distinct ops hd) hi hidx heq

theorem without_congr (ops : HashOps) {a b : Ptr} (hab : ops.compare a b = 0) :
    without ops es a = without ops es b := by
  refine List.filter_congr fun e _ => decide_eq_decide.mpr (not_congr ⟨fun h => ?_, fun h => ?_⟩)
  · exact ops.compare_trans h hab
  · exact ops.compare_trans h (ops.compare_symm hab)

theorem without_of_none (ops : HashOps) (hl : lookup ops es key = none) :
    without ops es key = es :=
  List.filter_eq_self.mpr fun e he => decide_eq_true ((lookup_eq_none ops).mp hl e he)

theorem Removed.valid (hr : Removed h g idx d) (hv : Valid h es) (hi : idx < h.nBuckets)
    (hocc : h.Placed idx) (hn : g.nEntries = h.nEntries - 1) (hp : g.pending = ∅) (hs : g.Stop) :
    Valid g (without h.hashOps es (h.bucket idx).key) := by
  obtain ⟨order, hf⟩ := hv.filling
  have hmem := (hf.slots idx).mpr (.inl ⟨hi, hocc.1⟩)
  have hmap := hf.threads.entries
  have hrest : (order.erase idx).map (fun i => h.pair (h.bucket i)) =
      without h.hashOps es (h.bucket idx).key := by
    have he := erase_map h.hashOps (f := fun i => h.pair (h.bucket i)) hf.threads.nodup hmem
      (hmap ▸ hv.distinct)
    rwa [hmap] at he
  refine ⟨⟨_, hrest ▸ hr.moved order es hf⟩, hp, hs, ?_, ?_, ?_⟩
  · rw [hn, hv.nEntries, ← hrest, ← hmap, List.length_map, List.length_map,
      List.length_erase_of_mem hmem]
  · rw [hr.same.nBuckets, hr.same.type]
    exact hv.bounded
  · rw [hr.same.hashOps]
    exact hv.distinct.sublist List.filter_sublist

theorem Valid.remove (hv : Valid h es) (key : Ptr) :
    ∃ h', h.internalHashmapRemove key = .ok ((lookup h.hashOps es key).getD 0, h') ∧
      SameTable h h' ∧ Valid h' (without h.hashOps es key) := by
  obtain ⟨r, hr, hfound⟩ := hv.scan key
  unfold internalHashmapRemove
  simp only [hr, bind, Except.bind, pure, Except.pure]
  rcases hv.found hfound with ⟨rfl, hl⟩ | ⟨hne, hh, -, hl⟩
  · rw [if_pos rfl, hl, without_of_none _ hl]
    exact ⟨h, rfl, .refl h, hv⟩
  · obtain ⟨h', d, hrun, hrem, hn, hp, hs⟩ := hv.baseRemoveEntry hh.1 hh.2.1
    have hv' := hrem.valid hv hh.1 hh.2.1 hn hp hs
    rw [without_congr _ hh.2.2] at hv'
    rw [if_neg hne, bucketAt_of_lt hh.1, hl]
    simp only [hrun]
    exact ⟨h', rfl, hrem.same, hv'⟩

theorem Valid.empty (hd : ∀ i, h.dibs i = dibRawFree) (hind : h.hasIndirect = false)
    (hn : h.nEntries = 0)
    (hl : h.type = .ordered → h.iterateListHead = idxNil ∧ h.iterateListTail = idxNil) :
    Valid h [] := by
  have hnb : h.nBuckets = h.type.nDirectBuckets := by
    rw [nBuckets, hind]
    rfl
  have hpos : 0 < h.nBuckets := by
    rw [hnb]
    cases h.type <;> decide
  have hle := nDirectBuckets_le h.type
  have hno : ∀ i, ¬ h.Placed i := fun i hp => hp.1 (hd i)
  refine ⟨⟨[], ⟨hpos, ?_, fun i _ hp => absurd hp (hno i), fun i _ hp => absurd hp (hno i)⟩,
    ⟨List.nodup_nil, fun i hi => absurd hi List.not_mem_nil, rfl, fun hto => ?_⟩, fun i => ?_,
    fun hc => ?_⟩, ?_, ⟨0, hpos, fun hp => absurd hp (hno 0)⟩, hn, ?_, List.Pairwise.nil⟩
  · rw [Small, hnb]
    exact hle.1.trans (by decide)
  · exact ⟨(hl hto).1, (hl hto).2, trivial⟩
  · refine iff_of_false List.not_mem_nil fun hc => ?_
    exact hc.elim (fun hc => hc.2 (hd i)) fun hc => hc.1
  · rw [hind] at hc
    exact absurd hc Bool.false_ne_true
  · refine Finset.eq_empty_of_forall_notMem fun i hm => ?_
    have hre := (mem_pending.mp hm).2
    rw [hd i] at hre
    exact absurd hre (by decide)
  · rw [hnb]
    exact (Nat.mul_le_mul hle.1 (Nat.succ_le_succ hle.2)).trans (by decide)

theorem Valid.new (ops : HashOps) (type : HashmapType) (shared : HashKey) :
    Valid (hashmapBaseNew ops type shared) [] :=
  .empty (fun _ => rfl) rfl rfl fun _ => ⟨rfl, rfl⟩

theorem Valid.clear : Valid h.internalHashmapClear [] :=
  .empty (fun _ => rfl) rfl rfl fun hto => ⟨if_pos hto, if_pos hto⟩

end HashmapBase
end Basu
