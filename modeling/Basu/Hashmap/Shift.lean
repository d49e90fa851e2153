import Basu.Hashmap.Store

/-! The shift of a removal: the entries behind a bucket that are not at home move back by one. -/

namespace Basu

open Lib

namespace HashmapBase

variable {h g : HashmapBase} {i idx d j n : Nat} {order as bs : List Nat}
  {es : List (Ptr × Ptr)} {key : Ptr}

def Shifts (h : HashmapBase) (i : Nat) : Prop := h.dibs i ≠ 0 ∧ h.dibs i ≠ dibRawFree

instance (h : HashmapBase) (i : Nat) : Decidable (h.Shifts i) := inferInstanceAs (Decidable (_ ∧ _))

structure ShiftsFor (h : HashmapBase) (idx d : Nat) : Prop where
  lt : d < h.nBuckets
  shifts : ∀ j, 1 ≤ j → j ≤ d → h.Shifts ((idx + j) % h.nBuckets)
  stop : ¬ h.Shifts ((idx + (d + 1)) % h.nBuckets)

theorem Robin.far_eq_zero (hr : h.Robin) (hi : i < h.nBuckets) (hp : h.Placed i) :
    h.far i = 0 ↔ h.dibs i = 0 := by
  rw [hr.exact i hi hp]
  unfold dibRawOverflow
  omega

theorem Valid.exists_shifts (hv : Valid h es) (hi : idx < h.nBuckets) :
    ∃ d, h.ShiftsFor idx d := by
  obtain ⟨order, hf⟩ := hv.filling
  obtain ⟨i, hlt, hstop⟩ := hv.stop
  have hex : ∃ m, 1 ≤ m ∧ m ≤ h.nBuckets ∧ ¬ h.Shifts ((idx + m) % h.nBuckets) := by
    have hno : ¬ h.Shifts i := fun hs => by
      have hp := (hv.placed_iff hlt).mpr hs.2
      exact hs.1 ((hf.robin.far_eq_zero hlt hp).mp (hstop hp))
    by_cases he : i = idx
    · refine ⟨h.nBuckets, hf.robin.pos, le_rfl, ?_⟩
      rwa [Nat.add_mod_right, Nat.mod_eq_of_lt hi, ← he]
    · refine ⟨Probe.distance h.nBuckets i idx, ?_, (Probe.distance_lt hlt hi).le, ?_⟩
      · exact Nat.pos_of_ne_zero fun h0 => he ((Probe.distance_eq_zero hi).mp h0)
      · rwa [Probe.add_distance hlt hi]
  classical
  obtain ⟨h1, hn, hno⟩ := Nat.find_spec hex
  have hmin := fun m hm => Nat.find_min hex (m := m) hm
  generalize Nat.find hex = m at *
  obtain ⟨d, rfl⟩ : ∃ d, m = d + 1 := ⟨m - 1, by omega⟩
  refine ⟨d, hn, fun j hj hjd => ?_, hno⟩
  by_contra hs
  exact hmin j (by omega) ⟨hj, by omega, hs⟩

theorem ShiftsFor.ne (hs : h.ShiftsFor idx d) (hi : idx < h.nBuckets) (h1 : 1 ≤ j) (hj : j ≤ d) :
    (idx + j) % h.nBuckets ≠ idx := by
  intro he
  have hdist := Probe.distance_add hi (show j < h.nBuckets from hj.trans_lt hs.lt)
  rw [he, Probe.distance_self] at hdist
  omega

theorem ShiftsFor.findRight (hs : h.ShiftsFor idx d) (hi : idx < h.nBuckets) :
    ∀ {fuel j : Nat}, 1 ≤ j → j ≤ d + 1 → d + 2 ≤ j + fuel →
    h.findRight idx fuel ((idx + j) % h.nBuckets) = .ok ((idx + (d + 1)) % h.nBuckets) := by
  intro fuel
  induction fuel with
  | zero =>
    intro j h1 hj hfuel
    omega
  | succ fuel ih =>
    intro j h1 hj hfuel
    have hlt : (idx + j) % h.nBuckets < h.nBuckets := Nat.mod_lt _ (by omega)
    unfold HashmapBase.findRight
    simp only [bind, Except.bind, pure, Except.pure, dibAt_of_lt hlt]
    by_cases he : j = d + 1
    · rw [he, if_pos]
      have hno := hs.stop
      rw [Shifts, not_and_or, not_not, not_not] at hno
      exact hno
    · have hsh := hs.shifts j h1 (by omega)
      have hnext : h.nextIdx ((idx + j) % h.nBuckets) = (idx + (j + 1)) % h.nBuckets :=
        Probe.next_add ..
      rw [if_neg fun hc => hc.elim hsh.1 hsh.2, if_neg (hs.ne hi h1 (by omega)).symm, hnext]
      exact ih (by omega) (by omega) (by omega)

def shifted (h : HashmapBase) (i : Nat) : HashmapBase :=
  (h.moved (h.nextIdx i) i).setDib i (min (h.far (h.nextIdx i) - 1) dibRawOverflow)

theorem shifted_same : SameTable h (h.shifted i) := moved_same.trans setDib_same

theorem shifted_pair : (h.shifted i).pair ((h.shifted i).bucket j) =
    h.pair (h.bucket (if j = i then h.nextIdx i else j)) := by
  have hm := @moved_pair h (h.nextIdx i) i j
  refine (hm : (h.shifted i).pair ((h.shifted i).bucket j) = _).trans ?_
  split_ifs <;> rfl

theorem shifted_dibs : (h.shifted i).dibs =
    Function.update h.dibs i (min (h.far (h.nextIdx i) - 1) dibRawOverflow) := by
  have hm := @moved_counts h (h.nextIdx i) i
  rw [shifted, setDib, hm.dibs]

theorem Robin.shift (hr : h.Robin) (hi : i < h.nBuckets) (hp : h.Placed i)
    (hpn : h.Placed (h.nextIdx i)) (h0 : h.far (h.nextIdx i) ≠ 0) : (h.shifted i).Robin := by
  have s : SameTable h (h.shifted i) := shifted_same
  have hnext : h.nextIdx i < h.nBuckets := Probe.next_lt hi
  have hplaced : ∀ j, (h.shifted i).Placed j ↔ h.Placed j := by
    intro j
    rw [Placed, shifted_dibs]
    by_cases he : j = i
    · rw [he, Function.update_self]
      exact iff_of_true (min_overflow_ne _) hp
    · rw [Function.update_of_ne he]
      rfl
  have hfar : ∀ j < h.nBuckets, (h.shifted i).far j =
      Function.update h.far i (h.far (h.nextIdx i) - 1) j := by
    intro j hj
    have hkey := congrArg Prod.fst (shifted_pair (h := h) (i := i) (j := j))
    by_cases he : j = i
    · rw [if_pos he, he] at hkey
      have hback := Probe.distance_prev hnext (bucketHash_lt hr.pos (h.bucket (h.nextIdx i)).key) h0
      rw [nextIdx, Probe.prev_next hi] at hback
      have hk : ((h.shifted i).bucket i).key = (h.bucket (h.nextIdx i)).key := hkey
      rw [he, Function.update_self, far, hk, s.bucketHash, bucketDistance, s.nBuckets]
      exact Nat.eq_sub_of_add_eq hback
    · rw [if_neg he] at hkey
      rw [Function.update_of_ne he, s.far hkey]
  refine ⟨s.nBuckets ▸ hr.pos, s.small_iff.mpr hr.small, fun j hj hpj => ?_, ?_⟩
  · rw [s.nBuckets] at hj
    rw [hfar j hj, shifted_dibs]
    by_cases he : j = i
    · rw [he, Function.update_self, Function.update_self]
    · rw [Function.update_of_ne he, Function.update_of_ne he]
      exact hr.exact j hj ((hplaced j).mp hpj)
  · rw [s.nBuckets]
    exact (hr.orderly.shift hi hp hpn).congr (fun j _ => hplaced j) fun j hj _ => hfar j hj

/-- The table after the `j` entries behind the bucket `idx` have been moved: the bucket of the last
of them keeps a copy. -/
structure Shifting (h g : HashmapBase) (idx j : Nat) (order : List Nat) (es : List (Ptr × Ptr)) :
    Prop where
  same : SameTable h g
  nEntries : g.nEntries = h.nEntries
  idxLowestEntry : g.idxLowestEntry = h.idxLowestEntry
  robin : g.Robin
  placed : ∀ i, g.Placed i ↔ h.Placed i
  pairs : ∀ m < h.nBuckets, g.pair (g.bucket ((idx + m) % h.nBuckets)) =
    h.pair (h.bucket ((idx + if m < j then m + 1 else m) % h.nBuckets))
  later : ∀ m < h.nBuckets, j ≤ m →
    g.dibs ((idx + m) % h.nBuckets) = h.dibs ((idx + m) % h.nBuckets)
  threads : Threads g (order.map (Probe.back h.nBuckets idx j)) es

def Others (h : HashmapBase) (idx : Nat) (order : List Nat) : Prop :=
  ∀ i, i ∈ order ↔ i < h.nBuckets ∧ h.dibs i ≠ dibRawFree ∧ i ≠ idx

theorem Others.exists_add (ho : h.Others idx order) (hi : idx < h.nBuckets) (hm : i ∈ order) :
    ∃ m, 1 ≤ m ∧ m < h.nBuckets ∧ i = (idx + m) % h.nBuckets := by
  obtain ⟨hlt, -, hne⟩ := (ho i).mp hm
  refine ⟨Probe.distance h.nBuckets i idx, Nat.pos_of_ne_zero fun h0 => ?_,
    Probe.distance_lt hlt hi, (Probe.add_distance hlt hi).symm⟩
  exact hne ((Probe.distance_eq_zero hi).mp h0)

theorem Shifting.step (sh : Shifting h g idx j order es) (ho : h.Others idx order)
    (hs : h.ShiftsFor idx d) (hi : idx < h.nBuckets) (hset : ∀ i < h.nBuckets, h.dibs i ≠ dibRawRehash)
    (hocc : h.Placed idx) (hj : j < d) :
    let i := (idx + j) % h.nBuckets
    g.bucketCalculateDib (h.nextIdx i) (g.dibs (h.nextIdx i)) = .ok (g.far (h.nextIdx i)) ∧
      g.far (h.nextIdx i) ≠ 0 ∧
      g.bucketMoveEntry (h.nextIdx i) i = .ok (g.moved (h.nextIdx i) i) ∧
      (g.moved (h.nextIdx i) i).bucketSetDib i (g.far (h.nextIdx i) - 1) = .ok (g.shifted i) ∧
      Shifting h (g.shifted i) idx (j + 1) order es := by
  intro i
  have hpos : 0 < h.nBuckets := by omega
  have hjn : j + 1 < h.nBuckets := Nat.lt_of_le_of_lt hj hs.lt
  have hilt : i < h.nBuckets := Nat.mod_lt _ hpos
  have hin : h.nextIdx i = (idx + (j + 1)) % h.nBuckets := Probe.next_add ..
  have hnlt : h.nextIdx i < h.nBuckets := Probe.next_lt hilt
  have hgn := sh.same.nBuckets
  have hgnext : g.nextIdx i = h.nextIdx i := congrArg (Probe.next · i) hgn
  have hsh := hs.shifts (j + 1) (Nat.succ_pos j) hj
  rw [← hin] at hsh
  have hpn : g.Placed (h.nextIdx i) := (sh.placed _).mpr ⟨hsh.2, hset _ hnlt⟩
  have hdib : g.dibs (h.nextIdx i) = h.dibs (h.nextIdx i) := by
    rw [hin]
    exact sh.later _ hjn (Nat.le_succ j)
  have hfar : g.far (h.nextIdx i) ≠ 0 := fun h0 =>
    hsh.1 (hdib ▸ (sh.robin.far_eq_zero (hgn.symm ▸ hnlt) hpn).mp h0)
  have hpi : g.Placed i := by
    refine (sh.placed i).mpr ?_
    rcases Nat.eq_zero_or_pos j with h0 | h1
    · have hii : i = idx := by
        change (idx + j) % h.nBuckets = idx
        rw [h0, Nat.add_zero, Nat.mod_eq_of_lt hi]
      exact hii ▸ hocc
    · exact ⟨(hs.shifts j h1 hj.le).2, hset _ hilt⟩
  have hmem : h.nextIdx i ∈ order.map (Probe.back h.nBuckets idx j) := by
    refine List.mem_map.mpr ⟨h.nextIdx i, (ho _).mpr ⟨hnlt, hsh.2, ?_⟩, ?_⟩
    · rw [hin]
      exact hs.ne hi (Nat.succ_pos j) hj
    · rw [hin, Probe.back_add hi hjn, if_neg fun hc => Nat.not_succ_le_self j hc.2]
  have hnot : i ∉ order.map (Probe.back h.nBuckets idx j) := by
    intro hm
    obtain ⟨k, hk, he⟩ := List.mem_map.mp hm
    obtain ⟨m, h1, hm, rfl⟩ := ho.exists_add hi hk
    rw [Probe.back_add hi hm] at he
    split_ifs at he with hc
    · have := Probe.add_inj hi (by omega) (by omega) he
      omega
    · have := Probe.add_inj hi hm (by omega) he
      omega
  obtain ⟨hmove, ht⟩ := sh.threads.move sh.robin.small hmem hnot (.inl (hgn.symm ▸ hilt))
  have hfarlt := far_lt sh.robin.pos (hgn.symm ▸ hnlt)
  have hseteq : (g.moved (h.nextIdx i) i).bucketSetDib i (g.far (h.nextIdx i) - 1) =
      .ok (g.shifted i) := by
    rw [shifted, hgnext]
    have s : SameTable g (g.moved (h.nextIdx i) i) := moved_same
    refine bucketSetDib_of_lt (s.small sh.robin.small) ?_ ?_
    · rw [s.nBuckets, hgn]
      exact hilt
    · rw [s.nBuckets]
      omega
  have hmap : (order.map (Probe.back h.nBuckets idx j)).map (rename (h.nextIdx i) i) =
      order.map (Probe.back h.nBuckets idx (j + 1)) := by
    rw [List.map_map]
    refine List.map_congr_left fun k hk => ?_
    obtain ⟨m, h1, hm, rfl⟩ := ho.exists_add hi hk
    rw [Function.comp_apply, Probe.back_add hi hm, Probe.back_add hi hm, hin]
    rcases Nat.lt_trichotomy m (j + 1) with hlt | rfl | hgt
    · rw [if_pos ⟨h1, by omega⟩, if_pos ⟨h1, by omega⟩, rename_of_ne]
      intro he
      have := Probe.add_inj hi (by omega) hjn he
      omega
    · rw [if_neg (by omega), if_pos ⟨h1, le_rfl⟩, rename_self]
      rfl
    · rw [if_neg (by omega), if_neg (by omega), rename_of_ne]
      intro he
      have := Probe.add_inj hi hm hjn he
      omega
  refine ⟨sh.robin.calculateDib (hgn.symm ▸ hnlt) hpn, hfar, hmove, hseteq, ?_⟩
  have s : SameTable g (g.shifted i) := shifted_same
  have hmc := @moved_counts g (g.nextIdx i) i
  refine ⟨sh.same.trans s, hmc.nEntries.trans sh.nEntries,
    hmc.idxLowestEntry.trans sh.idxLowestEntry, ?_, fun k => ?_, fun m hm => ?_, fun m hm hjm => ?_,
    ?_⟩
  · exact sh.robin.shift (hgn.symm ▸ hilt) hpi (hgnext.symm ▸ hpn) (hgnext.symm ▸ hfar)
  · rw [← sh.placed k, Placed, shifted_dibs]
    by_cases he : k = i
    · rw [he, Function.update_self]
      exact iff_of_true (min_overflow_ne _) hpi
    · rw [Function.update_of_ne he]
      rfl
  · rw [shifted_pair, hgnext]
    have hiff : (idx + m) % h.nBuckets = i ↔ m = j :=
      ⟨fun he => Probe.add_inj hi hm (by omega) he, fun he => he ▸ rfl⟩
    by_cases hmj : m = j
    · rw [if_pos (hiff.mpr hmj), hin, sh.pairs _ hjn, if_neg (by omega), if_pos (by omega), hmj]
    · rw [if_neg fun he => hmj (hiff.mp he), sh.pairs m hm]
      by_cases hlt : m < j
      · rw [if_pos hlt, if_pos (by omega)]
      · rw [if_neg hlt, if_neg (by omega)]
  · rw [shifted_dibs, Function.update_of_ne]
    · exact sh.later m hm (by omega)
    · intro he
      have := Probe.add_inj hi hm (by omega) he
      omega
  · have hsame : Threads (g.shifted i)
        ((order.map (Probe.back h.nBuckets idx j)).map (rename (h.nextIdx i) i)) es := by
      rw [shifted, hgnext]
      exact ht.congr setDib_same rfl rfl rfl
    rwa [hmap] at hsame

theorem Shifting.loop (ho : h.Others idx order) (hs : h.ShiftsFor idx d) (hi : idx < h.nBuckets)
    (hset : ∀ i < h.nBuckets, h.dibs i ≠ dibRawRehash) (hocc : h.Placed idx) :
    ∀ {fuel j : Nat} {g : HashmapBase}, Shifting h g idx j order es → j ≤ d → d < j + fuel →
    ∃ g', shiftBack ((idx + (d + 1)) % h.nBuckets) fuel g ((idx + j) % h.nBuckets)
        ((idx + (j + 1)) % h.nBuckets) = .ok (g', (idx + d) % h.nBuckets) ∧
      Shifting h g' idx d order es := by
  intro fuel
  induction fuel with
  | zero =>
    intro j g _ hj hlt
    omega
  | succ fuel ih =>
    intro j g sh hj hlt
    unfold shiftBack
    by_cases he : j = d
    · subst he
      rw [if_pos rfl]
      exact ⟨g, rfl, sh⟩
    · have hjd : j < d := lt_of_le_of_ne hj he
      have hne : (idx + (j + 1)) % h.nBuckets ≠ (idx + (d + 1)) % h.nBuckets := by
        intro heq
        have hdn := hs.lt
        rcases Nat.lt_or_ge (d + 1) h.nBuckets with hlt | hge
        · have := Probe.add_inj hi (by omega) hlt heq
          omega
        · rw [show d + 1 = h.nBuckets by omega, Nat.add_mod_right, Nat.mod_eq_of_lt hi] at heq
          exact hs.ne hi (Nat.succ_pos j) hjd heq
      obtain ⟨hdib, hfar, hmove, hseteq, sh'⟩ := sh.step ho hs hi hset hocc hjd
      have hin : h.nextIdx ((idx + j) % h.nBuckets) = (idx + (j + 1)) % h.nBuckets :=
        Probe.next_add ..
      rw [hin] at hdib hfar hmove hseteq
      have hlt' : (idx + (j + 1)) % h.nBuckets < g.nBuckets := by
        rw [sh.same.nBuckets]
        exact Nat.mod_lt _ (by omega)
      have hnext : (g.shifted ((idx + j) % h.nBuckets)).nextIdx ((idx + (j + 1)) % h.nBuckets) =
          (idx + (j + 1 + 1)) % h.nBuckets := by
        rw [nextIdx, sh'.same.nBuckets, Probe.next_add]
      rw [if_neg hne]
      simp only [bind, Except.bind, dibAt_of_lt hlt', hdib, if_neg hfar, hmove, hseteq, hnext]
      exact ih sh' hjd (by omega)

end HashmapBase
end Basu
