import Basu.Hashmap.Resize

/-! The search of `base_bucket_scan`. -/

namespace Basu

open Lib

namespace HashmapBase

variable {h h' : HashmapBase} {i idx d n : Nat} {order : List Nat} {es : List (Ptr × Ptr)}
  {key : Ptr}

theorem Valid.placed_iff (hv : Valid h es) (hi : i < h.nBuckets) :
    h.Placed i ↔ h.dibs i ≠ dibRawFree := by
  refine ⟨fun hp => hp.1, fun hf => ⟨hf, fun hre => ?_⟩⟩
  have hm : i ∈ h.pending := mem_pending.mpr ⟨hi, hre⟩
  rw [hv.settled] at hm
  exact Finset.notMem_empty i hm

def Holds (h : HashmapBase) (key : Ptr) (i : Nat) : Prop :=
  i < h.nBuckets ∧ h.Placed i ∧ h.hashOps.compare (h.bucket i).key key = 0

theorem Holds.far (hh : h.Holds key i) :
    h.far i = Probe.distance h.nBuckets i (h.bucketHash key) := by
  rw [HashmapBase.far, bucketDistance, bucketHash, bucketHash,
    h.hashOps.hash_eq h.hashKey hh.2.2]

def Passed (h : HashmapBase) (key : Ptr) (d : Nat) : Prop :=
  ∀ i, h.Holds key i → d ≤ h.far i

theorem Passed.next (hpass : h.Passed key d) (hpos : 0 < h.nBuckets)
    (hno : ¬ h.Holds key ((h.bucketHash key + d) % h.nBuckets)) : h.Passed key (d + 1) := by
  intro i hh
  refine Nat.lt_of_le_of_ne (hpass i hh) fun he => hno ?_
  rw [he, hh.far, Probe.add_distance hh.1 (bucketHash_lt hpos key)]
  exact hh

def Found (h : HashmapBase) (key : Ptr) (r : Nat) : Prop :=
  (r = idxNil ∧ ∀ i, ¬ h.Holds key i) ∨ h.Holds key r

theorem Valid.scan_loop (hv : Valid h es) : ∀ {fuel d : Nat}, d + fuel = h.nBuckets + 1 →
    d ≤ h.nBuckets → h.Passed key d →
    ∃ r, bucketScan.loop h key fuel ((h.bucketHash key + d) % h.nBuckets) d = .ok r ∧
      h.Found key r := by
  obtain ⟨order, hf⟩ := hv.filling
  have hpos := hf.robin.pos
  have hhash := bucketHash_lt hpos key
  -- an entry for the key leaves no gap before it
  have hstop : ∀ d, h.Passed key d → (¬ (h.Placed ((h.bucketHash key + d) % h.nBuckets) ∧
      d ≤ h.far ((h.bucketHash key + d) % h.nBuckets))) → ∀ i, ¬ h.Holds key i :=
    fun d hpass hno i hh =>
      hno (hf.robin.orderly.between hhash hh.1 hh.2.1 hh.far (hpass i hh))
  intro fuel
  induction fuel with
  | zero =>
    intro d hd hle
    omega
  | succ fuel ih =>
    intro d hd hle hpass
    have hi : (h.bucketHash key + d) % h.nBuckets < h.nBuckets := Nat.mod_lt _ hpos
    have hnext : h.nextIdx ((h.bucketHash key + d) % h.nBuckets) =
        (h.bucketHash key + (d + 1)) % h.nBuckets := Probe.next_add ..
    unfold bucketScan.loop
    simp only [bind, Except.bind, pure, Except.pure, dibAt_of_lt hi, bucketAt_of_lt hi, hnext]
    by_cases hfree : h.dibs ((h.bucketHash key + d) % h.nBuckets) = dibRawFree
    · rw [if_pos hfree]
      exact ⟨_, rfl, .inl ⟨rfl, hstop d hpass fun hc => hc.1.1 hfree⟩⟩
    have hp := (hv.placed_iff hi).mpr hfree
    rw [if_neg hfree, hf.robin.calculateDib hi hp]
    simp only
    by_cases hlt : h.far ((h.bucketHash key + d) % h.nBuckets) < d
    · rw [if_pos hlt]
      exact ⟨_, rfl, .inl ⟨rfl, hstop d hpass fun hc => absurd hc.2 (not_le_of_gt hlt)⟩⟩
    have hfar := far_lt hpos hi
    rw [if_neg hlt]
    by_cases heq : h.far ((h.bucketHash key + d) % h.nBuckets) = d
    · rw [if_pos heq]
      by_cases hcmp : h.hashOps.compare (h.bucket ((h.bucketHash key + d) % h.nBuckets)).key key = 0
      · rw [if_pos hcmp]
        exact ⟨_, rfl, .inr ⟨hi, hp, hcmp⟩⟩
      · rw [if_neg hcmp]
        exact ih (by omega) (by omega) (hpass.next hpos fun hh => hcmp hh.2.2)
    · rw [if_neg heq]
      refine ih (by omega) (by omega) (hpass.next hpos fun hh => heq ?_)
      rw [hh.far, Probe.distance_add hhash (by omega)]

theorem Valid.scan (hv : Valid h es) (key : Ptr) :
    ∃ r, h.bucketScan (h.bucketHash key) key = .ok r ∧ h.Found key r := by
  obtain ⟨order, hf⟩ := hv.filling
  have hhash := bucketHash_lt hf.robin.pos key
  rw [bucketScan, if_pos hhash]
  have hloop := hv.scan_loop (Nat.zero_add (h.nBuckets + 1)) (Nat.zero_le _)
    (fun i _ => Nat.zero_le _ : h.Passed key 0)
  have hstart : (h.bucketHash key + 0) % h.nBuckets = h.bucketHash key := Nat.mod_eq_of_lt hhash
  rwa [hstart] at hloop

def lookup (ops : HashOps) (es : List (Ptr × Ptr)) (key : Ptr) : Option Ptr :=
  (es.find? fun e => ops.compare e.1 key = 0).map Prod.snd

theorem Valid.mem_iff (hv : Valid h es) {e : Ptr × Ptr} :
    e ∈ es ↔ ∃ i < h.nBuckets, h.Placed i ∧ h.pair (h.bucket i) = e := by
  obtain ⟨order, hf⟩ := hv.filling
  rw [← hf.threads.entries, List.mem_map]
  constructor
  · rintro ⟨i, hi, rfl⟩
    have hc := ((hf.slots i).mp hi).resolve_right fun hc => hc.1
    exact ⟨i, hc.1, (hv.placed_iff hc.1).mpr hc.2, rfl⟩
  · rintro ⟨i, hi, hp, rfl⟩
    exact ⟨i, (hf.slots i).mpr (.inl ⟨hi, hp.1⟩), rfl⟩

theorem eq_of_distinct (ops : HashOps) {a b : Ptr × Ptr}
    (hd : es.Pairwise fun a b => ops.compare a.1 b.1 ≠ 0) (ha : a ∈ es) (hb : b ∈ es)
    (hab : ops.compare a.1 b.1 = 0) : a = b := by
  by_contra hne
  have : Std.Symm fun x y : Ptr × Ptr => ops.compare x.1 y.1 ≠ 0 :=
    ⟨fun x y hxy hyx => hxy (ops.compare_symm hyx)⟩
  exact hd.forall ha hb hne hab

theorem lookup_eq_some (ops : HashOps) (hd : es.Pairwise fun a b => ops.compare a.1 b.1 ≠ 0)
    {e : Ptr × Ptr} (he : e ∈ es) (hk : ops.compare e.1 key = 0) :
    lookup ops es key = some e.2 := by
  obtain ⟨x, hx⟩ : ∃ x, es.find? (fun e => ops.compare e.1 key = 0) = some x :=
    Option.isSome_iff_exists.mp (List.find?_isSome.mpr ⟨e, he, decide_eq_true hk⟩)
  have hfound := List.find?_some hx
  have hxk : ops.compare x.1 key = 0 := of_decide_eq_true hfound
  have hxe := eq_of_distinct ops hd (List.mem_of_find?_eq_some hx) he
    (ops.compare_trans hxk (ops.compare_symm hk))
  rw [lookup, hx, hxe]
  rfl

theorem lookup_eq_none (ops : HashOps) :
    lookup ops es key = none ↔ ∀ e ∈ es, ops.compare e.1 key ≠ 0 := by
  rw [lookup, Option.map_eq_none_iff, List.find?_eq_none]
  exact forall₂_congr fun e _ => by rw [decide_eq_true_eq]

theorem Valid.found (hv : Valid h es) {r : Nat} (hr : h.Found key r) :
    (r = idxNil ∧ lookup h.hashOps es key = none) ∨
      (r ≠ idxNil ∧ h.Holds key r ∧ h.pair (h.bucket r) ∈ es ∧
        lookup h.hashOps es key = some (h.entryValue (h.bucket r))) := by
  obtain ⟨order, hf⟩ := hv.filling
  rcases hr with ⟨hnil, hno⟩ | hh
  · refine .inl ⟨hnil, (lookup_eq_none _).mpr fun e he hk => ?_⟩
    obtain ⟨i, hi, hp, rfl⟩ := hv.mem_iff.mp he
    exact hno i ⟨hi, hp, hk⟩
  · have hm : h.pair (h.bucket r) ∈ es := hv.mem_iff.mpr ⟨r, hh.1, hh.2.1, rfl⟩
    exact .inr ⟨Slot.ne_nil (.inl hh.1) hf.robin.small, hh, hm,
      lookup_eq_some _ hv.distinct hm hh.2.2⟩

theorem Valid.get (hv : Valid h es) (key : Ptr) :
    h.internalHashmapGet key = .ok ((lookup h.hashOps es key).getD 0) := by
  obtain ⟨r, hr, hfound⟩ := hv.scan key
  unfold internalHashmapGet
  simp only [hr, bind, Except.bind, pure, Except.pure]
  rcases hv.found hfound with ⟨rfl, hl⟩ | ⟨hne, hh, -, hl⟩
  · rw [if_pos rfl, hl]
    rfl
  · rw [if_neg hne, bucketAt_of_lt hh.1, hl]
    rfl

theorem Valid.contains (hv : Valid h es) (key : Ptr) :
    h.internalHashmapContains key = .ok (lookup h.hashOps es key).isSome := by
  obtain ⟨r, hr, hfound⟩ := hv.scan key
  unfold internalHashmapContains
  simp only [hr, bind, Except.bind, pure, Except.pure]
  rcases hv.found hfound with ⟨rfl, hl⟩ | ⟨hne, hh, -, hl⟩
  · rw [hl]
    rfl
  · rw [hl, decide_eq_true hne]
    rfl

end HashmapBase
end Basu
