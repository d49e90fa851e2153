import Basu.Hashmap.Walk

/-! Iteration with removals: the shift moves what is left to visit by at most one bucket. -/

namespace Basu

open Lib

namespace HashmapBase

variable {h h' g : HashmapBase} {i b cur d p : Nat} {it : Iterator} {l order : List Nat}
  {es : List (Ptr × Ptr)} {remove : Ptr → Bool} {k key : Ptr}

theorem Removed.pair_back (hr : Removed h g cur d) (hi : cur < h.nBuckets) (hlt : b < h.nBuckets)
    (hne : b ≠ cur) : g.pair (g.bucket (Probe.back h.nBuckets cur d b)) = h.pair (h.bucket b) := by
  have hm := Probe.add_distance hlt hi
  have hmlt := Probe.distance_lt hlt hi
  have h1 : 1 ≤ Probe.distance h.nBuckets b cur :=
    Nat.pos_of_ne_zero fun h0 => hne ((Probe.distance_eq_zero hi).mp h0)
  generalize Probe.distance h.nBuckets b cur = m at hm hmlt h1
  rw [← hm, Probe.back_add hi hmlt]
  split_ifs with hc
  · have hp := hr.pairs (m - 1) (by omega) (by omega)
    rw [if_pos (by omega), Nat.sub_add_cancel h1] at hp
    exact hp
  · have hp := hr.pairs m hmlt (by omega)
    rw [if_neg (by omega)] at hp
    exact hp

theorem Valid.key_ne (hv : Valid h es) (hi : i < h.nBuckets) (hpi : h.dibs i ≠ dibRawFree)
    (hb : b < h.nBuckets) (hpb : h.dibs b ≠ dibRawFree) (hne : i ≠ b) :
    h.hashOps.compare (h.bucket i).key (h.bucket b).key ≠ 0 := by
  obtain ⟨order, hf⟩ := hv.filling
  have hmi := (hf.slots i).mpr (.inl ⟨hi, hpi⟩)
  have hmb := (hf.slots b).mpr (.inl ⟨hb, hpb⟩)
  have hent := hf.threads.entries
  intro hk
  have hin : ∀ {j}, j ∈ order → h.pair (h.bucket j) ∈ es := fun hj =>
    hent ▸ List.mem_map_of_mem hj
  have heq := eq_of_distinct h.hashOps hv.distinct (hin hmi) (hin hmb) hk
  have hnd := nodup_of_distinct h.hashOps hv.distinct
  rw [← hent] at hnd
  exact hne (List.inj_on_of_nodup_map hnd hmi hmb heq)

/-! ## The two ways an iteration can go wrong -/

/-- In a map that is visited by bucket, the shift passes the end of the table and puts an entry that
has been visited into the last bucket, with buckets left to visit. -/
def Wraps (h : HashmapBase) (cur : Nat) : Prop :=
  h.type ≠ .ordered ∧ cur + 1 < h.nBuckets ∧ ∃ d, h.ShiftsFor cur d ∧ h.nBuckets ≤ cur + d

/-- The entry to come has the null pointer as its key and is the last one shifted, so that its old
bucket, given up and zeroed, still matches. -/
def LosesNull (h : HashmapBase) (it : Iterator) (cur : Nat) : Prop :=
  it.idx ≠ idxNil ∧ it.nextKey = 0 ∧
    ∃ d, 1 ≤ d ∧ h.ShiftsFor cur d ∧ it.idx = (cur + d) % h.nBuckets

def SafeRemoval (h : HashmapBase) (it : Iterator) (key : Ptr) : Prop :=
  ∀ cur, h.bucketScan (h.bucketHash key) key = .ok cur → cur ≠ idxNil →
    ¬ h.Wraps cur ∧ ¬ h.LosesNull it cur

def Safe (remove : Ptr → Bool) : Nat → HashmapBase → Iterator → Prop
  | 0, _, _ => True
  | fuel + 1, h, it => ∀ h' it' e, h.internalHashmapIterate it = .ok (h', it', some e) →
      if remove e.1 then h'.SafeRemoval it' e.1 ∧
        ∀ v g, h'.internalHashmapRemove e.1 = .ok (v, g) → Safe remove fuel g it'
      else Safe remove fuel h' it'

theorem Removed.rest_ordered (hr : Removed h g cur d) (hto : h.type = .ordered)
    (hrest : h.Rest (cur :: l)) : g.Rest (l.map (Probe.back h.nBuckets cur d)) := by
  unfold Rest at *
  rw [if_pos hto] at hrest
  rw [if_pos (hr.same.type.trans hto)]
  obtain ⟨as, es, hf⟩ := hrest
  have hnot : cur ∉ as := fun hm =>
    (List.nodup_append.mp hf.threads.nodup).2.2 cur hm cur (List.mem_cons_self ..) rfl
  have hmoved := hr.moved _ _ hf
  rw [List.erase_append_right _ hnot, List.erase_cons_head, List.map_append] at hmoved
  exact ⟨_, _, hmoved⟩

theorem Removed.occupied (hr : Removed h g cur d) (hocc : h.dibs cur ≠ dibRawFree)
    (hd : cur + d < h.nBuckets) :
    g.occupied cur = (h.occupied (cur + 1)).map (Probe.back h.nBuckets cur d) := by
  have hi : cur < h.nBuckets := by omega
  have hmod : ∀ m, m ≤ d → (cur + m) % h.nBuckets = cur + m := fun m hm =>
    Nat.mod_eq_of_lt (by omega)
  have hfree : ∀ i < h.nBuckets, g.dibs i ≠ dibRawFree ↔ i ≠ cur + d ∧ h.dibs i ≠ dibRawFree := by
    intro i hlt
    rw [ne_eq, hr.free i hlt, hmod d le_rfl, not_or]
  have hshift : ∀ m, 1 ≤ m → m ≤ d → h.dibs (cur + m) ≠ dibRawFree := fun m h1 hm => by
    have hs := (hr.shifts.shifts m h1 hm).2
    rwa [hmod m hm] at hs
  -- both lists split at the bucket given up
  have hsplit : List.range' cur (g.nBuckets - cur) = List.range' cur d ++
      (cur + d) :: List.range' (cur + d + 1) (h.nBuckets - (cur + d + 1)) := by
    rw [hr.same.nBuckets, ← List.range'_succ, List.range'_append_1]
    congr 1
    omega
  have hsplit' : List.range' (cur + 1) (h.nBuckets - (cur + 1)) = List.range' (cur + 1) d ++
      List.range' (cur + d + 1) (h.nBuckets - (cur + d + 1)) := by
    rw [show cur + d + 1 = cur + 1 + d by omega, List.range'_append_1]
    congr 1
    omega
  have hfirst : (List.range' cur d).filter (fun i => g.dibs i ≠ dibRawFree) =
      List.range' cur d := by
    refine List.filter_eq_self.mpr fun i hm => ?_
    obtain ⟨hge, hlt⟩ := List.mem_range'_1.mp hm
    rw [decide_eq_true_eq, hfree i (by omega)]
    refine ⟨by omega, ?_⟩
    rcases Nat.eq_or_lt_of_le hge with rfl | hgt
    · exact hocc
    · have hs := hshift (i - cur) (by omega) (by omega)
      rwa [Nat.add_sub_cancel' hge] at hs
  have hsecond : (List.range' (cur + 1) d).filter (fun i => h.dibs i ≠ dibRawFree) =
      List.range' (cur + 1) d := by
    refine List.filter_eq_self.mpr fun i hm => ?_
    obtain ⟨hge, hlt⟩ := List.mem_range'_1.mp hm
    have hs := hshift (i - cur) (by omega) (by omega)
    rw [Nat.add_sub_cancel' (by omega : cur ≤ i)] at hs
    rw [decide_eq_true_eq]
    exact hs
  have hback : (List.range' (cur + 1) d).map (Probe.back h.nBuckets cur d) =
      List.range' cur d := by
    have hsub : (List.range' (cur + 1) d).map (fun x => x - 1) = List.range' (cur + 1 - 1) d :=
      List.map_sub_range' (Nat.le_add_left 1 cur) d
    rw [Nat.add_sub_cancel] at hsub
    rw [← hsub]
    refine List.map_congr_left fun i hm => ?_
    obtain ⟨hge, hlt⟩ := List.mem_range'_1.mp hm
    obtain ⟨m, rfl⟩ : ∃ m, i = cur + m := ⟨i - cur, by omega⟩
    have hb := Probe.back_add (j := d) hi (show m < h.nBuckets by omega)
    rw [hmod m (by omega), if_pos (by omega), hmod (m - 1) (by omega)] at hb
    rw [hb]
    omega
  have hlater : ((List.range' (cur + d + 1) (h.nBuckets - (cur + d + 1))).filter
      fun i => h.dibs i ≠ dibRawFree).map (Probe.back h.nBuckets cur d) =
      (List.range' (cur + d + 1) (h.nBuckets - (cur + d + 1))).filter
        fun i => g.dibs i ≠ dibRawFree := by
    have hsame : ((List.range' (cur + d + 1) (h.nBuckets - (cur + d + 1))).filter
        fun i => g.dibs i ≠ dibRawFree) =
        (List.range' (cur + d + 1) (h.nBuckets - (cur + d + 1))).filter
          fun i => h.dibs i ≠ dibRawFree := by
      refine List.filter_congr fun i hm => decide_eq_decide.mpr ?_
      obtain ⟨hge, hlt⟩ := List.mem_range'_1.mp hm
      rw [hfree i (by omega)]
      exact and_iff_right (by omega)
    rw [hsame]
    refine (List.map_congr_left fun i hm => ?_).trans (List.map_id _)
    obtain ⟨hge, hlt⟩ := List.mem_range'_1.mp (List.mem_of_mem_filter hm)
    have hdist : Probe.distance h.nBuckets i cur = i - cur := if_pos (by omega)
    rw [Probe.back, hdist, if_neg (by omega)]
    rfl
  have hgone : ¬ (g.dibs (cur + d) ≠ dibRawFree) := fun hc => ((hfree _ hd).mp hc).1 rfl
  rw [HashmapBase.occupied, HashmapBase.occupied, hsplit, hsplit', List.filter_append,
    List.filter_append, List.map_append, List.filter_cons, hfirst, hsecond, hback, hlater,
    if_neg (by rw [decide_eq_true_eq]; exact hgone)]

theorem Removed.rest (hr : Removed h g cur d) (hrest : h.Rest (cur :: l))
    (hwrap : ¬ h.Wraps cur) : g.Rest (l.map (Probe.back h.nBuckets cur d)) := by
  by_cases hto : h.type = .ordered
  · exact hr.rest_ordered hto hrest
  · obtain ⟨hlt, hocc, -, -⟩ := hrest.cons
    have hl := hrest.lt hto
    have hwhere : g.type ≠ .ordered := fun hc => hto (hr.same.type.symm.trans hc)
    unfold Rest
    rw [if_neg hwhere]
    rcases Nat.lt_or_ge (cur + d) h.nBuckets with hd | hd
    · rw [hl, ← hr.occupied hocc hd]
      exact .inr ⟨cur, rfl⟩
    · -- nothing is left behind the last bucket
      have hlast : ¬ cur + 1 < h.nBuckets := fun hc => hwrap ⟨hto, hc, d, hr.shifts, hd⟩
      have hnone : h.occupied (cur + 1) = [] := by
        rw [HashmapBase.occupied, Nat.sub_eq_zero_of_le (Nat.le_of_not_lt hlast)]
        rfl
      rw [hl, hnone]
      exact .inl rfl

theorem Removed.before (hr : Removed h g cur d) (hv : Valid h es) (hrest : h.Rest (cur :: l))
    (hnd : cur ∉ l) (hnull : ¬ h.LosesNull (h.setTo k l) cur) :
    Before g (h.setTo k l) (l.map (Probe.back h.nBuckets cur d)) := by
  obtain ⟨hi, -, -, hrl⟩ := hrest.cons
  cases hl : l with
  | nil => exact .done k
  | cons c l' =>
    rw [hl] at hrl hnd hnull
    obtain ⟨hc, hcocc, -, -⟩ := hrl.cons
    have hne : c ≠ cur := fun he => hnd (he ▸ List.mem_cons_self ..)
    have hgn := hr.same.nBuckets
    have h0 : g.type ≠ .ordered → c ≠ 0 := fun hto => by
      have hm : c ∈ h.occupied (cur + 1) := by
        rw [← hrest.lt fun ht => hto (hr.same.type.trans ht), hl]
        exact List.mem_cons_self ..
      have hge := (mem_occupied.mp hm).1
      omega
    have hpair := hr.pair_back hi hc hne
    have hm := Probe.add_distance hc hi
    have hmlt := Probe.distance_lt hc hi
    change Before g ⟨c, (h.bucket c).key⟩ (Probe.back h.nBuckets cur d c :: _)
    by_cases hback : 1 ≤ Probe.distance h.nBuckets c cur ∧ Probe.distance h.nBuckets c cur ≤ d
    · have hprev : Probe.back h.nBuckets cur d c = g.prevIdx c := by
        rw [Probe.back, if_pos hback, prevIdx, hgn]
      rw [hprev] at hpair ⊢
      have hkey : (g.bucket (g.prevIdx c)).key = (h.bucket c).key := congrArg Prod.fst hpair
      rw [← hkey]
      refine .back c _ (hgn.symm ▸ hc) h0 ?_
      rw [hkey]
      generalize Probe.distance h.nBuckets c cur = m at hm hmlt hback
      by_cases hmd : m = d
      · -- the old bucket is given up
        have hfreed : (g.bucket c).key = 0 := by
          rw [← hm, hmd, hr.freed]
          rfl
        rw [hfreed]
        intro hz
        have hcnil : c ≠ idxNil := by
          obtain ⟨order, hf⟩ := hv.filling
          exact Slot.ne_nil (.inl hc) hf.robin.small
        exact hnull ⟨hcnil, hz.symm, d, hmd ▸ hback.1, hr.shifts, hmd ▸ hm.symm⟩
      · -- the entry behind has come into the old bucket
        have hlt : m < d := lt_of_le_of_ne hback.2 hmd
        have hp := hr.pairs m hmlt hmd
        rw [if_pos hlt, hm] at hp
        have hk : (g.bucket c).key = (h.bucket ((cur + (m + 1)) % h.nBuckets)).key :=
          congrArg Prod.fst hp
        rw [hk]
        have hs := hr.shifts.shifts (m + 1) (Nat.succ_pos m) hlt
        have hd := hr.shifts.lt
        intro heq
        refine hv.key_ne (Nat.mod_lt _ (by omega)) hs.2 hc hcocc (fun he => ?_)
          (heq ▸ h.hashOps.compare_self _)
        have := Probe.add_inj hi (by omega) hmlt (he.trans hm.symm)
        omega
    · have hstay : Probe.back h.nBuckets cur d c = c := if_neg hback
      rw [hstay] at hpair ⊢
      have hkey : (g.bucket c).key = (h.bucket c).key := congrArg Prod.fst hpair
      rw [← hkey]
      exact .here c _ h0

theorem Valid.scan_key (hv : Valid h es) (hb : b < h.nBuckets) (hocc : h.dibs b ≠ dibRawFree) :
    h.bucketScan (h.bucketHash (h.bucket b).key) (h.bucket b).key = .ok b := by
  obtain ⟨r, hr, hfound⟩ := hv.scan (h.bucket b).key
  have hholds : h.Holds (h.bucket b).key b :=
    ⟨hb, (hv.placed_iff hb).mpr hocc, h.hashOps.compare_self _⟩
  rcases hfound with ⟨-, hno⟩ | hh
  · exact absurd hholds (hno b)
  · obtain rfl : r = b := by
      by_contra hne
      exact hv.key_ne hh.1 hh.2.1.1 hb hocc hne hh.2.2
    exact hr

theorem Rest.nodup : ∀ {l : List Nat}, h.Rest l → l.Nodup := by
  intro l hr
  unfold Rest at hr
  split_ifs at hr
  · obtain ⟨as, es, hf⟩ := hr
    exact (List.nodup_append.mp hf.threads.nodup).2.1
  · rcases hr with rfl | ⟨p, rfl⟩
    · exact List.nodup_nil
    · exact occupied_nodup

theorem Valid.remove_current (hv : Valid h es) (hrest : h.Rest (b :: l))
    (hsafe : h.SafeRemoval (h.setTo k l) (h.bucket b).key) :
    ∃ v g l', h.internalHashmapRemove (h.bucket b).key = .ok (v, g) ∧ SameTable h g ∧
      Valid g (without h.hashOps es (h.bucket b).key) ∧ Before g (h.setTo k l) l' ∧ g.Rest l' ∧
      l'.length = l.length ∧ l'.map (fun i => g.pair (g.bucket i)) =
        l.map fun i => h.pair (h.bucket i) := by
  obtain ⟨hb, hocc, -, hrl⟩ := hrest.cons
  have hp := (hv.placed_iff hb).mpr hocc
  have hscan := hv.scan_key hb hocc
  have hnd := (List.nodup_cons.mp hrest.nodup).1
  have hnil : b ≠ idxNil := by
    obtain ⟨order, hf⟩ := hv.filling
    exact Slot.ne_nil (.inl hb) hf.robin.small
  obtain ⟨hwrap, hnull⟩ := hsafe b hscan hnil
  obtain ⟨g, d, hrun, hr, hn, hpend, hstop⟩ := hv.baseRemoveEntry hb hp
  have hv' := hr.valid hv hb hp hn hpend hstop
  refine ⟨h.entryValue (h.bucket b), g, l.map (Probe.back h.nBuckets b d), ?_, hr.same, hv', hr.before hv hrest hnd hnull,
    hr.rest hrest hwrap, List.length_map _, ?_⟩
  · unfold internalHashmapRemove
    simp only [hscan, if_neg hnil, bucketAt_of_lt hb, hrun, bind, Except.bind, pure, Except.pure]
  · rw [List.map_map]
    refine List.map_congr_left fun c hc => ?_
    exact hr.pair_back hb (hrl.lt_nBuckets c hc) fun he => hnd (he ▸ hc)

/-! ## The whole iteration -/

theorem Turned.rest (ht : Turned h h') (hr : h.Rest l) : h'.Rest l :=
  ht.toSameEntries.rest hr ht.lowest

def leftOf (remove : Ptr → Bool) (es visited : List (Ptr × Ptr)) : List (Ptr × Ptr) :=
  es.filter fun e => ¬ (e ∈ visited ∧ remove e.1 = true)

theorem leftOf_cons_keep {e : Ptr × Ptr} {visited : List (Ptr × Ptr)} (hr : remove e.1 = false) :
    leftOf remove es (e :: visited) = leftOf remove es visited := by
  refine List.filter_congr fun x _ => decide_eq_decide.mpr (not_congr ?_)
  rw [List.mem_cons]
  constructor
  · rintro ⟨rfl | hm, hx⟩
    · rw [hr] at hx
      exact absurd hx Bool.false_ne_true
    · exact ⟨hm, hx⟩
  · rintro ⟨hm, hx⟩
    exact ⟨.inr hm, hx⟩

theorem leftOf_cons_remove (ops : HashOps) {e : Ptr × Ptr} {visited : List (Ptr × Ptr)}
    (hd : es.Pairwise fun a b => ops.compare a.1 b.1 ≠ 0) (he : e ∈ es) (hr : remove e.1 = true) :
    leftOf remove (without ops es e.1) visited = leftOf remove es (e :: visited) := by
  rw [leftOf, without, List.filter_filter]
  refine List.filter_congr fun x hx => ?_
  rw [Bool.eq_iff_iff, Bool.and_eq_true, decide_eq_true_eq, decide_eq_true_eq, decide_eq_true_eq,
    List.mem_cons]
  by_cases hxe : x = e
  · subst hxe
    refine iff_of_false (fun hc => hc.2 (ops.compare_self _)) fun hc => hc ⟨.inl rfl, hr⟩
  · have hne : ops.compare x.1 e.1 ≠ 0 := fun hc => hxe (eq_of_distinct ops hd hx he hc)
    constructor
    · rintro ⟨hno, -⟩ ⟨hm, hrx⟩
      exact hno ⟨hm.resolve_left hxe, hrx⟩
    · intro hno
      exact ⟨fun hc => hno ⟨.inr hc.1, hc.2⟩, hne⟩

theorem Before.foreach (remove : Ptr → Bool) : ∀ {fuel : Nat} {l : List Nat} {h : HashmapBase}
    {it : Iterator} {es : List (Ptr × Ptr)}, Valid h es → Before h it l → h.Rest l →
    l.length < fuel → Safe remove fuel h it →
    ∃ g, foreachRemove remove fuel h it = .ok (l.map fun i => h.pair (h.bucket i), g) ∧
      SameTable h g ∧ Valid g (leftOf remove es (l.map fun i => h.pair (h.bucket i)))
  | 0, _, _, _, _, _, _, _, hlt, _ => absurd hlt (Nat.not_lt_zero _)
  | fuel + 1, [], h, it, es, hv, hb, _, _, _ => by
    obtain ⟨h', it', hrun, ht⟩ := hb.iterate_nil hv
    have hnone : leftOf remove es [] = es :=
      List.filter_eq_self.mpr fun e _ => decide_eq_true fun hc => List.not_mem_nil hc.1
    refine ⟨h', ?_, ht.same, hnone.symm ▸ ht.valid hv⟩
    unfold foreachRemove
    simp only [hrun, bind, Except.bind, pure, Except.pure, List.map_nil]
  | fuel + 1, b :: l, h, it, es, hv, hb, hr, hlt, hsafe => by
    obtain ⟨h', hrun, ht⟩ := hb.iterate hr hv
    have hv' := ht.valid hv
    have hr' := ht.rest hr
    have hlen : l.length < fuel := Nat.lt_of_succ_lt_succ hlt
    have hset : h'.setTo it.nextKey l = h.setTo it.nextKey l := ht.setTo
    have hpair : ∀ i, h'.pair (h'.bucket i) = h.pair (h.bucket i) := fun i => by
      rw [ht.bucket, ht.same.pair]
    have hkey : (h'.bucket b).key = (h.pair (h.bucket b)).1 := congrArg Prod.fst (hpair b)
    have hstep := hsafe _ _ _ hrun
    unfold foreachRemove
    simp only [hrun, bind, Except.bind, pure, Except.pure, List.map_cons]
    by_cases hrem : remove (h.pair (h.bucket b)).1 = true
    · rw [if_pos hrem, ← hset, ← hkey] at hstep
      obtain ⟨v, g, l', hremove, hs, hvg, hbg, hrg, hlen', hmap⟩ :=
        hv'.remove_current hr' hstep.1
      obtain ⟨g', hrest, hs', hvg'⟩ := hbg.foreach remove hvg hrg (hlen' ▸ hlen)
        (hstep.2 v g hremove)
      have hmap' : l'.map (fun i => g.pair (g.bucket i)) = l.map fun i => h.pair (h.bucket i) :=
        hmap.trans (List.map_congr_left fun i _ => hpair i)
      have hmem : h.pair (h.bucket b) ∈ es :=
        hv.mem_iff.mpr ⟨b, hr.cons.1, (hv.placed_iff hr.cons.1).mpr hr.cons.2.1, rfl⟩
      rw [hset] at hrest
      rw [hmap'] at hrest hvg'
      rw [hkey] at hremove hvg'
      rw [ht.same.hashOps, leftOf_cons_remove _ hv.distinct hmem hrem] at hvg'
      refine ⟨g', ?_, ht.same.trans (hs.trans hs'), hvg'⟩
      simp only [if_pos hrem, hremove, hrest]
    · rw [if_neg hrem, ← hset] at hstep
      obtain ⟨h0, -, -, hrl⟩ := hr'.cons
      have hb' : Before h' (h'.setTo it.nextKey l) l := before_setTo fun hto c l' he => by
        have hm : c ∈ h'.occupied (b + 1) := by
          rw [← hr'.lt hto, he]
          exact List.mem_cons_self ..
        have hge := (mem_occupied.mp hm).1
        omega
      obtain ⟨g', hrest, hs', hvg'⟩ := hb'.foreach remove hv' hrl hlen hstep
      have hmap : l.map (fun i => h'.pair (h'.bucket i)) = l.map fun i => h.pair (h.bucket i) :=
        List.map_congr_left fun i _ => hpair i
      rw [hset] at hrest
      rw [hmap] at hrest hvg'
      refine ⟨g', ?_, ht.same.trans hs', ?_⟩
      · simp only [if_neg hrem, hrest]
      · rw [leftOf_cons_keep (Bool.eq_false_iff.mpr hrem)]
        exact hvg'

theorem Filling.perm_occupied (hf : Filling h False order es) : order.Perm (h.occupied 0) := by
  refine (List.perm_ext_iff_of_nodup hf.threads.nodup occupied_nodup).mpr fun i => ?_
  rw [hf.slots, mem_occupied, or_iff_left fun hc => hc.1]
  exact (and_iff_right (Nat.zero_le i)).symm

theorem Valid.entries_perm (hv : Valid h es) : es.Perm h.entries := by
  obtain ⟨order, hf⟩ := hv.filling
  rw [← hf.threads.entries]
  exact hf.perm_occupied.map _

theorem Valid.start (hv : Valid h es) : ∃ l, Before h iteratorFirst l ∧ h.Rest l ∧
    l.length = es.length ∧ (l.map fun i => h.pair (h.bucket i)).Perm es ∧
    (h.type = .ordered → (l.map fun i => h.pair (h.bucket i)) = es) := by
  obtain ⟨order, hf⟩ := hv.filling
  have hlen := hf.threads.length_eq
  by_cases hto : h.type = .ordered
  · refine ⟨order, .first _ (fun _ => (hf.threads.linked hto).head) fun hc => absurd hto hc, ?_,
      hlen, .of_eq hf.threads.entries, fun _ => hf.threads.entries⟩
    unfold Rest
    rw [if_pos hto]
    exact ⟨[], es, hf⟩
  · refine ⟨h.occupied 0, .first _ (fun hc => absurd hc hto) fun _ => rfl, ?_,
      hf.perm_occupied.length_eq.symm.trans hlen, hv.entries_perm.symm, fun hc => absurd hc hto⟩
    unfold Rest
    rw [if_neg hto]
    exact .inr ⟨0, rfl⟩

theorem Valid.foreach (hv : Valid h es) {fuel : Nat} (hfuel : h.nEntries < fuel)
    (hsafe : Safe remove fuel h iteratorFirst) : ∃ visited g,
      foreachRemove remove fuel h iteratorFirst = .ok (visited, g) ∧ visited.Perm es ∧
      (h.type = .ordered → visited = es) ∧ Valid g (es.filter fun e => !remove e.1) := by
  obtain ⟨l, hb, hr, hlen, hperm, hordered⟩ := hv.start
  obtain ⟨g, hrun, -, hvg⟩ := hb.foreach remove hv hr (hlen ▸ hv.nEntries ▸ hfuel) hsafe
  refine ⟨_, g, hrun, hperm, hordered, ?_⟩
  have hleft : leftOf remove es (l.map fun i => h.pair (h.bucket i)) =
      es.filter fun e => !remove e.1 := by
    refine List.filter_congr fun e he => ?_
    rw [Bool.eq_iff_iff, decide_eq_true_eq, Bool.not_eq_true', and_iff_right (hperm.mem_iff.mpr he),
      Bool.not_eq_true]
  exact hleft ▸ hvg

inductive Reached (ops : HashOps) (type : HashmapType) (shared : HashKey) : HashmapBase → Prop
  | new : Reached ops type shared (hashmapBaseNew ops type shared)
  | call {h h' : HashmapBase} {a : Answer} (op : Op) (hr : Reached ops type shared h)
      (hs : h.step op = .ok (a, h')) : Reached ops type shared h'

theorem Reached.valid {ops : HashOps} {type : HashmapType} {shared : HashKey}
    (hr : Reached ops type shared h) : ∃ es, Valid h es := by
  induction hr with
  | new => exact ⟨[], .new ops type shared⟩
  | @call h g a op _ hs ih =>
    obtain ⟨es, hv⟩ := ih
    obtain ⟨hbad, hgood⟩ := hv.step op
    by_cases hm : h.MeetsStep op
    · obtain ⟨b, g', es', hrun, -, hv', -⟩ := hgood hm
      obtain ⟨-, rfl⟩ := Prod.ext_iff.mp (Except.ok.inj (hs.symm.trans hrun))
      exact ⟨es', hv'⟩
    · obtain ⟨f, hf⟩ := hbad hm
      exact nomatch hf.symm.trans hs

theorem safe_of_none : ∀ {fuel : Nat} {h : HashmapBase} {it : Iterator},
    Safe (fun _ => false) fuel h it
  | 0, _, _ => trivial
  | _ + 1, _, _ => fun _ _ _ _ => safe_of_none

/-- The list of an ordered map runs through its occupied buckets, from both ends, and an iteration
yields the entries in this order. -/
structure InOrder (h : HashmapBase) (es : List (Ptr × Ptr)) : Prop where
  linked : ∃ order, h.Linked order ∧ order.Nodup ∧
    (∀ i, i ∈ order ↔ i < h.nBuckets ∧ h.dibs i ≠ dibRawFree) ∧
    order.map (fun i => h.pair (h.bucket i)) = es
  iterates : ∀ fuel, h.nEntries < fuel →
    ∃ g, foreachRemove (fun _ => false) fuel h iteratorFirst = .ok (es, g)

theorem Valid.inOrder (hv : Valid h es) (hto : h.type = .ordered) : InOrder h es := by
  refine ⟨?_, fun fuel hfuel => ?_⟩
  · obtain ⟨order, hf⟩ := hv.filling
    exact ⟨order, hf.threads.linked hto, hf.threads.nodup,
      fun i => (hf.slots i).trans (or_iff_left fun hc => hc.1), hf.threads.entries⟩
  · obtain ⟨visited, g, hrun, -, hordered, -⟩ := hv.foreach hfuel safe_of_none
    exact ⟨g, hordered hto ▸ hrun⟩

/-- An ordered map keeps its entries in the order of their first insertion. -/
theorem follows_insertion_order (ops : HashOps) (shared : HashKey) (l : List Op) :
    Follows InOrder (Records ops .ordered) (hashmapBaseNew ops .ordered shared) [] l ↔
      Meets (hashmapBaseNew ops .ordered shared) l :=
  follows_iff (I := Keeps ops .ordered) (fun _ _ hk => hk.valid.inOrder hk.type)
    (fun _ _ op hk => hk.step op) (Keeps.new ops .ordered shared)

theorem not_follows_insertion_order : ¬ Follows InOrder (Records trivialOps .ordered)
    (hashmapBaseNew trivialOps .ordered []) [] (puts 1 (2 ^ 28)) := fun hf =>
  not_meets_puts .ordered ((follows_iff (I := Keeps trivialOps .ordered)
    (fun _ _ hk => hk.valid.inOrder hk.type) (fun _ _ op hk => hk.step op)
    (Keeps.new trivialOps .ordered [])).mp hf)

end HashmapBase
end Basu
