import Basu.Hashmap.Lookup

/-! Insertion of a new key: the entry comes behind all others. -/

namespace Basu

open Lib

namespace HashmapBase

variable {h h' : HashmapBase} {i idx d n : Nat} {order : List Nat} {es : List (Ptr × Ptr)}
  {key : Ptr}

theorem Filling.add {e : Ptr × Ptr} (hf : Filling h False order es) (s : SameTable h h')
    (c : SameCounts h h') (hkeep : ∀ i ≠ idxPut, h'.pair (h'.bucket i) = h.pair (h.bucket i))
    (hnew : h'.pair (h'.bucket idxPut) = e)
    (hl : h'.type = .ordered → h'.Linked (order ++ [idxPut])) :
    Filling h' True (order ++ [idxPut]) (es ++ [e]) := by
  have hput : idxPut ∉ order := fun hm => ((hf.slots _).mp hm).elim
    (fun hc => (hf.robin.lt_put hc.1).1 rfl) fun hc => hc.1
  refine ⟨?_, ⟨?_, fun i hi => ?_, ?_, hl⟩, fun i => ?_, fun hind i hlt hnf => ?_⟩
  · refine hf.robin.congr s (fun i _ => by rw [Placed, Placed, c.dibs]) fun i hi _ => ?_
    have hk := congrArg Prod.fst (hkeep i (hf.robin.lt_put hi).1)
    exact ⟨by rw [c.dibs], hk⟩
  · exact hf.threads.nodup.append (List.nodup_singleton _) (List.disjoint_singleton.mpr hput)
  · rw [s.slot_iff]
    rcases List.mem_append.mp hi with hi | hi
    · exact hf.threads.slots i hi
    · exact .inr (.inl (List.mem_singleton.mp hi))
  · rw [List.map_append, List.map_singleton, hnew, ← hf.threads.entries]
    congr 1
    exact List.map_congr_left fun i hi => hkeep i fun he => hput (he ▸ hi)
  · rw [List.mem_append, List.mem_singleton, hf.slots, true_and, c.dibs, s.nBuckets]
    exact or_congr_left (or_iff_left fun hc => hc.1)
  · rw [s.nBuckets] at hlt
    rw [s.hasIndirect] at hind
    rw [c.dibs] at hnf
    rw [c.idxLowestEntry]
    exact hf.lowest hind i hlt hnf

def newEntry (h : HashmapBase) (e : HashEntry) : HashEntry :=
  { e with iterateNext := idxNil, iteratePrevious := h.iterateListTail }

def linkedIn (h : HashmapBase) (e : HashEntry) : HashmapBase :=
  { (h.setBucket idxPut (h.newEntry e)).touch h.iterateListTail (pointOn idxPut) with
    iterateListTail := idxPut
    iterateListHead := if h.iterateListHead = idxNil then idxPut else h.iterateListHead }

theorem linkedIn_same (e : HashEntry) : SameTable h (h.linkedIn e) := by
  have s : SameTable h ((h.setBucket idxPut (h.newEntry e)).touch h.iterateListTail
    (pointOn idxPut)) := (setBucket_same _).trans (touch_same _)
  exact ⟨s.hashOps, s.type, s.hasIndirect, s.sharedHashKey, s.indirectHashKey,
    s.indirectNBuckets⟩

theorem linkedIn_counts (e : HashEntry) : SameCounts h (h.linkedIn e) := by
  unfold linkedIn touch
  split_ifs <;> exact ⟨rfl, rfl, rfl⟩

theorem linkedIn_pair (e : HashEntry) (i : Nat) :
    (h.linkedIn e).pair ((h.linkedIn e).bucket i) =
      h.pair (if i = idxPut then e else h.bucket i) := by
  have ht := touch_pair (h := h.setBucket idxPut (h.newEntry e)) (i := h.iterateListTail)
    (f := pointOn idxPut) pair_pointOn i
  have hs := setBucket_pair (h := h) (i := idxPut) (h.newEntry e) i
  refine (ht.trans hs : (h.linkedIn e).pair ((h.linkedIn e).bucket i) = _).trans ?_
  split_ifs <;> rfl

theorem Filling.linked_in (hf : Filling h False order es) (hto : h.type = .ordered)
    (e : HashEntry) : (h.linkedIn e).Linked (order ++ [idxPut]) := by
  have hput : idxPut ∉ order := fun hm => ((hf.slots _).mp hm).elim
    (fun hc => (hf.robin.lt_put hc.1).1 rfl) fun hc => hc.1
  have hl := hf.threads.linked hto
  have hnil := hf.threads.nil_notMem hf.robin.small
  have hput0 : idxPut ≠ idxNil := by decide
  have htail : h.iterateListTail ≠ idxPut := by
    rw [hl.tail]
    intro he
    rcases List.mem_cons.mp (he ▸ List.getLastD_mem_cons ..) with hc | hc
    · exact hput0 hc
    · exact hput hc
  have hold : ∀ i ∈ order, (h.setBucket idxPut (h.newEntry e)).bucket i = h.bucket i :=
    fun i hi => setBucket_of_ne (fun he : i = idxPut => hput (he ▸ hi)) _
  have hnew : (h.linkedIn e).bucket idxPut = h.newEntry e :=
    (touch_of_ne htail.symm _).trans (setBucket_self _)
  refine ⟨?_, ?_, ?_⟩
  · change (if h.iterateListHead = idxNil then idxPut else h.iterateListHead) = _
    rw [hl.head]
    cases order with
    | nil => rfl
    | cons a l => exact if_neg fun he : a = idxNil => hnil (he ▸ List.mem_cons_self ..)
  · change idxPut = _
    rw [Chained.getLastD_append_cons]
    rfl
  · refine hl.chain.push hnil (fun i hi => ?_) ?_
    · have htouch := touch_pointOn (h := h.setBucket idxPut (h.newEntry e)) (j := i)
        (k := h.iterateListTail) (d := idxPut)
      rw [hold i hi] at htouch
      refine ⟨htouch.1.trans ?_, htouch.2⟩
      have hend := hl.chain.next_eq_end hf.threads.nodup hnil hi
      rw [← hl.tail] at hend
      have hi0 : i ≠ idxNil := fun he => hnil (he ▸ hi)
      have hiff : (i = h.iterateListTail ∧ h.iterateListTail ≠ idxNil) ↔
          (h.bucket i).iterateNext = idxNil :=
        ⟨fun hc => hend.mpr hc.1, fun hc => ⟨hend.mp hc, hend.mp hc ▸ hi0⟩⟩
      simp only [hiff]
    · rw [hnew]
      exact ⟨hl.tail, rfl⟩

theorem Filling.linkEntry (hf : Filling h False order es) (hto : h.type = .ordered)
    (e : HashEntry) : h.linkEntry e = .ok (h.linkedIn e) := by
  have hput : idxPut ∉ order := fun hm => ((hf.slots _).mp hm).elim
    (fun hc => (hf.robin.lt_put hc.1).1 rfl) fun hc => hc.1
  have hl := hf.threads.linked hto
  have hnil := hf.threads.nil_notMem hf.robin.small
  have hnew : ({ e with iterateNext := idxNil, iteratePrevious := h.iterateListTail } :
    HashEntry) = h.newEntry e := rfl
  unfold HashmapBase.linkEntry linkedIn touch
  simp only [bind, Except.bind, pure, Except.pure, hnew]
  have hends : (h.setBucket idxPut (h.newEntry e)).iterateListTail = h.iterateListTail ∧
    (h.setBucket idxPut (h.newEntry e)).iterateListHead = h.iterateListHead := ⟨rfl, rfl⟩
  rw [hends.1]
  by_cases h0 : h.iterateListTail = idxNil
  · rw [if_neg (not_not.mpr h0), if_neg (not_not.mpr h0)]
    rfl
  · -- the last entry is in a bucket, and has none behind it
    have hmem : h.iterateListTail ∈ order := by
      rw [hl.tail] at h0 ⊢
      exact (List.mem_cons.mp List.getLastD_mem_cons).resolve_left h0
    have hlt := (((hf.slots _).mp hmem).resolve_right fun hc => hc.1).1
    have hlast := (hl.chain.next_eq_end hf.threads.nodup hnil hmem).mpr hl.tail
    have hne : h.iterateListTail ≠ idxPut := fun he => hput (he ▸ hmem)
    have hlt' : h.iterateListTail < (h.setBucket idxPut (h.newEntry e)).nBuckets := hlt
    rw [if_pos h0, if_pos h0, bucketAt_of_lt hlt', setBucket_of_ne hne]
    simp only
    rw [if_neg (not_not.mpr hlast), modifyBucket_of_lt hlt', setBucket_of_ne hne]
    rfl

theorem Filling.link (hf : Filling h False order es) (e : HashEntry) :
    ∃ g, h.handEntry e = .ok g ∧ SameTable h g ∧ SameCounts h g ∧
      Filling g True (order ++ [idxPut]) (es ++ [h.pair e]) ∧
      (g.bucket idxPut).key = e.key := by
  by_cases hto : h.type = .ordered
  · have s : SameTable h (h.linkedIn e) := linkedIn_same e
    have hpair := linkedIn_pair (h := h) e
    refine ⟨h.linkedIn e, (if_pos hto).trans (hf.linkEntry hto e), s, linkedIn_counts e,
      hf.add s (linkedIn_counts e) (fun i hi => ?_) ?_ fun _ => hf.linked_in hto e, ?_⟩
    · rw [hpair, if_neg hi]
    · rw [hpair, if_pos rfl]
    · have hk := congrArg Prod.fst (hpair idxPut)
      rwa [if_pos rfl] at hk
  · have s : SameTable h (h.setBucket idxPut e) := setBucket_same e
    have hpair := setBucket_pair (h := h) (i := idxPut) e
    refine ⟨h.setBucket idxPut e, if_neg hto, s, ⟨rfl, rfl, rfl⟩,
      hf.add s ⟨rfl, rfl, rfl⟩ (fun i hi => ?_) ?_ fun ht => absurd ht hto, ?_⟩
    · rw [hpair, if_neg hi]
    · rw [hpair, if_pos rfl]
    · rw [setBucket_self]

inductive Stored (h : HashmapBase) (es : List (Ptr × Ptr)) (e : Ptr × Ptr) (a : Resizing) :
    Except Errno Nat × HashmapBase → Prop
  | put (g : HashmapBase) (hv : Valid g (es ++ [e])) (hops : g.hashOps = h.hashOps)
      (htype : g.type = h.type) (hshared : g.sharedHashKey = h.sharedHashKey) :
      Stored h es e a (.ok 1, g)
  | refused (hno : h.Refuses a) : Stored h es e a (.error .enomem, h)

theorem Valid.placeEntry (hv : Valid h es) (e : HashEntry) (hroom : es.length < h.nBuckets)
    (hnew : ∀ x ∈ es, h.hashOps.compare x.1 e.key ≠ 0) :
    ∃ g, h.placeEntry (h.bucketHash e.key) e = .ok (.ok 1, g) ∧ SameTable h g ∧
      Valid g (es ++ [h.pair e]) := by
  obtain ⟨order, hf⟩ := hv.filling
  obtain ⟨g₁, hlink, s, c, hf₁, hkey⟩ := hf.link e
  have hpend₁ : g₁.pending = ∅ := by
    rw [← hv.settled]
    exact pending_congr s fun i => by rw [c.dibs]
  have hlen : (es ++ [h.pair e]).length ≤ g₁.nBuckets := by
    rw [List.length_append, List.length_singleton, s.nBuckets]
    exact hroom
  obtain ⟨f, hfn, hfree⟩ := hf₁.exists_free (.inr ⟨trivial, hlen⟩)
  have hhome := bucketHash_lt hf₁.robin.pos (g₁.bucket idxPut).key
  obtain ⟨again, g₂, hrun, hins⟩ := hf₁.insert_loop (d := 0) hhome
    (Probe.distance_self).symm Probe.MayStand.zero
    ⟨f, hfn, fun hc => hc.1 hfree, Probe.distance_lt hfn hhome⟩
  have hstay := hins.pending
  rw [hpend₁] at hstay
  obtain rfl : again = false := by
    cases again with
    | false => rfl
    | true =>
      obtain ⟨j, hj, -⟩ := hstay
      exact absurd hj (Finset.notMem_empty j)
  rw [hkey, s.bucketHash] at hrun
  have s₂ : SameTable h g₂ := s.trans hins.same
  obtain ⟨order₂, hf₂⟩ := hins.filling
  have hlt : h.nEntries < h.nBuckets := hv.nEntries ▸ hroom
  refine ⟨{ g₂ with nEntries := g₂.nEntries + 1 }, ?_, ⟨s₂.hashOps, s₂.type, s₂.hasIndirect,
    s₂.sharedHashKey, s₂.indirectHashKey, s₂.indirectNBuckets⟩, ⟨order₂, ?_⟩, hstay, hins.stop,
    ?_, ?_, ?_⟩
  · unfold HashmapBase.placeEntry
    rw [if_neg (not_not.mpr hlt)]
    simp only [hlink, putRobinHood, hrun, bind, Except.bind, pure, Except.pure]
    rfl
  · simp only [Bool.false_eq_true] at hf₂
    exact ⟨hf₂.robin.congr ⟨rfl, rfl, rfl, rfl, rfl, rfl⟩ (fun _ _ => Iff.rfl)
      fun _ _ _ => ⟨rfl, rfl⟩, hf₂.threads.congr ⟨rfl, rfl, rfl, rfl, rfl, rfl⟩ rfl rfl rfl,
      hf₂.slots, hf₂.lowest⟩
  · rw [List.length_append, List.length_singleton, ← hv.nEntries, ← c.nEntries,
      ← hins.nEntries]
  · have hb := hv.bounded
    rwa [← s₂.nBuckets, ← s₂.type] at hb
  · change List.Pairwise (fun a b : Ptr × Ptr => g₂.hashOps.compare a.1 b.1 ≠ 0) _
    rw [s₂.hashOps, List.pairwise_append]
    refine ⟨hv.distinct, List.pairwise_singleton .., fun x hx y hy => ?_⟩
    rw [List.mem_singleton.mp hy]
    exact hnew x hx

theorem Valid.putBoldly (hv : Valid h es) (e : HashEntry) (a : Resizing)
    (hnew : ∀ x ∈ es, h.hashOps.compare x.1 e.key ≠ 0) :
    (h.Overgrown → h.putBoldly (h.bucketHash e.key) e a = .error .undefined) ∧
      (¬ h.Overgrown → ∃ r, h.putBoldly (h.bucketHash e.key) e a = .ok r ∧
        Stored h es (h.pair e) a r) := by
  obtain ⟨order, hf⟩ := hv.filling
  obtain ⟨hbad, hgood⟩ := hv.resize a
  have hhash := bucketHash_lt hf.robin.pos e.key
  unfold HashmapBase.putBoldly
  rw [if_neg (not_not.mpr hhash)]
  refine ⟨fun ho => by rw [hbad ho]; rfl, fun ho => ?_⟩
  obtain ⟨r, hr, hres⟩ := hgood ho
  rw [hr]
  cases hres with
  | refused hno => exact ⟨_, rfl, .refused hno⟩
  | kept hroom =>
    obtain ⟨g, hrun, s, hv'⟩ := hv.placeEntry e hroom hnew
    exact ⟨_, hrun, .put _ hv' s.hashOps s.type s.sharedHashKey⟩
  | grown k hvk hroom hops htype hshared =>
    obtain ⟨g, hrun, s, hv'⟩ := hvk.placeEntry e hroom (hops ▸ hnew)
    have hpair : k.pair e = h.pair e := by rw [pair, pair, entryValue, entryValue, htype]
    exact ⟨_, hrun, .put _ (hpair ▸ hv') (s.hashOps.trans hops) (s.type.trans htype)
      (s.sharedHashKey.trans hshared)⟩

theorem Valid.hashmapPut (hv : Valid h es) (hset : h.type ≠ .set) (key value : Ptr)
    (a : Resizing) :
    (∀ v, lookup h.hashOps es key = some v →
      h.hashmapPut key value a = .ok (if v = value then .ok 0 else .error .eexist, h)) ∧
    (lookup h.hashOps es key = none →
      (h.Overgrown → h.hashmapPut key value a = .error .undefined) ∧
      (¬ h.Overgrown → ∃ r, h.hashmapPut key value a = .ok r ∧
        Stored h es (key, value) a r)) := by
  obtain ⟨r, hr, hfound⟩ := hv.scan key
  have hvalue : ∀ e : HashEntry, h.entryValue e = e.value := fun e => by
    cases ht : h.type with
    | set => exact absurd ht hset
    | plain => rw [entryValue, ht]
    | ordered => rw [entryValue, ht]
  unfold HashmapBase.hashmapPut
  simp only [hr, bind, Except.bind, pure, Except.pure]
  rcases hv.found hfound with ⟨rfl, hl⟩ | ⟨hne, hh, -, hl⟩
  · refine ⟨fun v hv' => absurd (hl.symm.trans hv') (Option.some_ne_none v).symm, fun _ => ?_⟩
    rw [if_neg (not_not.mpr rfl)]
    have hput := hv.putBoldly ⟨key, value, 0, 0⟩ a ((lookup_eq_none _).mp hl)
    have hpair : h.pair ⟨key, value, 0, 0⟩ = (key, value) := by rw [pair, hvalue]
    rw [hpair] at hput
    exact hput
  · refine ⟨fun v hv' => ?_, fun hn => absurd (hn.symm.trans hl) (Option.some_ne_none _).symm⟩
    rw [if_pos hne, bucketAt_of_lt hh.1]
    obtain rfl : (h.bucket r).value = v := by
      rw [← hvalue]
      exact Option.some.inj (hl.symm.trans hv')
    rfl

theorem Valid.setPut (hv : Valid h es) (hset : h.type = .set) (key : Ptr) (a : Resizing) :
    (∀ v, lookup h.hashOps es key = some v → h.setPut key a = .ok (.ok 0, h)) ∧
    (lookup h.hashOps es key = none →
      (h.Overgrown → h.setPut key a = .error .undefined) ∧
      (¬ h.Overgrown → ∃ r, h.setPut key a = .ok r ∧ Stored h es (key, key) a r)) := by
  obtain ⟨r, hr, hfound⟩ := hv.scan key
  unfold HashmapBase.setPut
  simp only [hr, bind, Except.bind, pure, Except.pure]
  rcases hv.found hfound with ⟨rfl, hl⟩ | ⟨hne, hh, -, hl⟩
  · refine ⟨fun v hv' => absurd (hl.symm.trans hv') (Option.some_ne_none v).symm, fun _ => ?_⟩
    rw [if_neg (not_not.mpr rfl)]
    have hput := hv.putBoldly ⟨key, 0, 0, 0⟩ a ((lookup_eq_none _).mp hl)
    have hpair : h.pair ⟨key, 0, 0, 0⟩ = (key, key) := by rw [pair, entryValue, hset]
    rw [hpair] at hput
    exact hput
  · refine ⟨fun v _ => if_pos hne, fun hn => ?_⟩
    exact absurd (hn.symm.trans hl) (Option.some_ne_none _).symm

end HashmapBase
end Basu
