import Basu.Hashmap.Run

/-! Iteration: what is left to visit, and where the iterator finds it. -/

namespace Basu

open Lib

namespace HashmapBase

variable {h h' : HashmapBase} {i b cur d p : Nat} {it : Iterator} {todo l order as : List Nat}
  {es : List (Ptr × Ptr)} {remove : Ptr → Bool}

def occupied (h : HashmapBase) (p : Nat) : List Nat :=
  (List.range' p (h.nBuckets - p)).filter fun i => h.dibs i ≠ dibRawFree

def entries (h : HashmapBase) : List (Ptr × Ptr) :=
  (h.occupied 0).map fun i => h.pair (h.bucket i)

theorem mem_occupied : i ∈ h.occupied p ↔ p ≤ i ∧ i < h.nBuckets ∧ h.dibs i ≠ dibRawFree := by
  rw [occupied, List.mem_filter, List.mem_range'_1, decide_eq_true_eq]
  omega

theorem occupied_nodup : (h.occupied p).Nodup := List.Nodup.filter _ List.nodup_range'

theorem occupied_cons (hp : p < h.nBuckets) : h.occupied p =
    if h.dibs p ≠ dibRawFree then p :: h.occupied (p + 1) else h.occupied (p + 1) := by
  obtain ⟨m, hm⟩ : ∃ m, h.nBuckets - p = m + 1 := ⟨h.nBuckets - p - 1, by omega⟩
  have hm' : h.nBuckets - (p + 1) = m := by omega
  rw [occupied, occupied, hm, hm', List.range'_succ, List.filter_cons]
  simp only [decide_eq_true_eq]

theorem skipFreeBuckets_loop : ∀ left idx, skipFreeBuckets.loop h left idx =
    ((List.range' idx left).filter fun i => h.dibs i ≠ dibRawFree).headD idxNil
  | 0, _ => rfl
  | left + 1, idx => by
    rw [skipFreeBuckets.loop, skipFreeBuckets_loop left, List.range'_succ, List.filter_cons]
    simp only [decide_eq_true_eq]
    split_ifs <;> rfl

theorem skipFreeBuckets_eq : h.skipFreeBuckets p = (h.occupied p).headD idxNil :=
  skipFreeBuckets_loop ..

theorem occupied_of_cons : ∀ {m p : Nat}, h.nBuckets = p + m → h.occupied p = b :: l →
    l = h.occupied (b + 1)
  | 0, p, hm, he => by
    rw [occupied, hm, Nat.add_zero, Nat.sub_self] at he
    exact nomatch he
  | m + 1, p, hm, he => by
    rw [occupied_cons (show p < h.nBuckets by omega)] at he
    split_ifs at he with hf
    · obtain ⟨rfl, rfl⟩ := List.cons.inj he
      rfl
    · have hm' : h.nBuckets = p + 1 + m := by omega
      exact occupied_of_cons hm' he

def after (h : HashmapBase) (b : Nat) : Nat :=
  if h.type = .ordered then (h.bucket b).iterateNext else h.skipFreeBuckets (b + 1)

def Rest (h : HashmapBase) (l : List Nat) : Prop :=
  if h.type = .ordered then ∃ as es, Filling h False (as ++ l) es
  else l = [] ∨ ∃ p, l = h.occupied p

theorem Rest.cons (hr : h.Rest (b :: l)) :
    b < h.nBuckets ∧ h.dibs b ≠ dibRawFree ∧ h.after b = l.headD idxNil ∧ h.Rest l := by
  unfold Rest after at *
  split_ifs at hr ⊢ with hto
  · obtain ⟨as, es, hf⟩ := hr
    have hb := ((hf.slots b).mp (List.mem_append_right _ (List.mem_cons_self ..))).resolve_right
      fun hc => hc.1
    refine ⟨hb.1, hb.2, (hf.threads.linked hto).chain.split.2, as ++ [b], es, ?_⟩
    rwa [List.append_assoc, List.singleton_append]
  · obtain ⟨p, he⟩ := hr.resolve_left (fun hc => nomatch hc)
    obtain ⟨-, hlt, hocc⟩ := mem_occupied.mp (he ▸ List.mem_cons_self ..)
    have hp : h.nBuckets = p + (h.nBuckets - p) := by
      have hle := (mem_occupied.mp (he ▸ List.mem_cons_self ..)).1
      omega
    have hl := occupied_of_cons hp he.symm
    rw [skipFreeBuckets_eq, ← hl]
    exact ⟨hlt, hocc, rfl, .inr ⟨_, hl⟩⟩

theorem Rest.lt (hr : h.Rest (b :: l)) (hto : h.type ≠ .ordered) : l = h.occupied (b + 1) := by
  unfold Rest at hr
  rw [if_neg hto] at hr
  obtain ⟨p, he⟩ := hr.resolve_left (fun hc => nomatch hc)
  have hp : h.nBuckets = p + (h.nBuckets - p) := by
    obtain ⟨hle, hlt, -⟩ := mem_occupied.mp (he ▸ List.mem_cons_self ..)
    omega
  exact occupied_of_cons hp he.symm

/-- The iterator is before these buckets: it names the first one, or the one behind it when a
removal has moved the entry back by one. -/
inductive Before (h : HashmapBase) : Iterator → List Nat → Prop
  | first (l : List Nat) (hordered : h.type = .ordered → h.iterateListHead = l.headD idxNil)
      (hinternal : h.type ≠ .ordered → l = h.occupied 0) : Before h iteratorFirst l
  | done (k : Ptr) : Before h ⟨idxNil, k⟩ []
  | here (b : Nat) (l : List Nat) (h0 : h.type ≠ .ordered → b ≠ 0) :
      Before h ⟨b, (h.bucket b).key⟩ (b :: l)
  | back (i : Nat) (l : List Nat) (hi : i < h.nBuckets) (h0 : h.type ≠ .ordered → i ≠ 0)
      (hne : (h.bucket i).key ≠ (h.bucket (h.prevIdx i)).key) :
      Before h ⟨i, (h.bucket (h.prevIdx i)).key⟩ (h.prevIdx i :: l)

def setTo (h : HashmapBase) (k : Ptr) : List Nat → Iterator
  | [] => ⟨idxNil, k⟩
  | b :: _ => ⟨b, (h.bucket b).key⟩

structure SameEntries (h h' : HashmapBase) : Prop where
  same : SameTable h h'
  bucket : h'.bucket = h.bucket
  dibs : h'.dibs = h.dibs
  nEntries : h'.nEntries = h.nEntries
  head : h'.iterateListHead = h.iterateListHead
  tail : h'.iterateListTail = h.iterateListTail

theorem SameEntries.refl (h : HashmapBase) : SameEntries h h := ⟨.refl h, rfl, rfl, rfl, rfl, rfl⟩

theorem SameEntries.occupied (s : SameEntries h h') : h'.occupied p = h.occupied p := by
  rw [HashmapBase.occupied, HashmapBase.occupied, s.same.nBuckets, s.dibs]

theorem SameEntries.skip (s : SameEntries h h') : h'.skipFreeBuckets p = h.skipFreeBuckets p := by
  rw [skipFreeBuckets_eq, skipFreeBuckets_eq, s.occupied]

theorem SameEntries.setTo {k : Ptr} (s : SameEntries h h') : h'.setTo k l = h.setTo k l := by
  cases l with
  | nil => rfl
  | cons b l => rw [HashmapBase.setTo, HashmapBase.setTo, s.bucket]

theorem SameEntries.filling (s : SameEntries h h') (hf : Filling h False order es)
    (hlow : h'.hasIndirect = true → ∀ i < h'.nBuckets, h'.dibs i ≠ dibRawFree →
      h'.idxLowestEntry ≤ i) : Filling h' False order es := by
  refine ⟨?_, hf.threads.congr s.same s.bucket s.head s.tail, fun i => ?_, hlow⟩
  · exact hf.robin.congr s.same (fun i _ => by rw [Placed, Placed, s.dibs]) fun i _ _ =>
      ⟨by rw [s.dibs], by rw [s.bucket]⟩
  · rw [hf.slots, s.same.nBuckets, s.dibs]

theorem SameEntries.rest (s : SameEntries h h') (hr : h.Rest l)
    (hlow : h'.hasIndirect = true → ∀ i < h'.nBuckets, h'.dibs i ≠ dibRawFree →
      h'.idxLowestEntry ≤ i) : h'.Rest l := by
  unfold Rest at *
  rw [s.same.type]
  split_ifs at hr ⊢
  · obtain ⟨as, es, hf⟩ := hr
    exact ⟨as, es, s.filling hf hlow⟩
  · refine hr.imp_right fun ⟨p, hp⟩ => ⟨p, ?_⟩
    rw [s.occupied, hp]

theorem before_setTo {k : Ptr} (h0 : h.type ≠ .ordered → ∀ b l', l = b :: l' → b ≠ 0) :
    Before h (h.setTo k l) l := by
  cases l with
  | nil => exact .done k
  | cons b l => exact .here b l fun ht => h0 ht b l rfl

theorem Before.position (hb : Before h it (b :: l)) (hlt : b < h.nBuckets) (hs : h.Small)
    (hne : it.idx ≠ idxFirst) :
    it.idx ≠ idxNil ∧ (h.type = .ordered → h.insertionPosition it = .ok b) ∧
      (h.type ≠ .ordered → h.internalPosition it = .ok b) := by
  have hnil : ∀ {i}, i < h.nBuckets → i ≠ idxNil := fun hi => Slot.ne_nil (.inl hi) hs
  cases hb with
  | first => exact absurd rfl hne
  | here _ _ h0 =>
    refine ⟨hnil hlt, fun _ => ?_, fun hto => ?_⟩
    · unfold insertionPosition
      rw [if_neg hne, bucketAt_of_lt hlt]
      exact if_neg (not_not.mpr rfl)
    · unfold internalPosition
      rw [if_neg (h0 hto), bucketAt_of_lt hlt]
      exact if_neg (not_not.mpr rfl)
  | back i _ hi h0 hk =>
    have hlt' : h.prevIdx i < h.nBuckets := Probe.prev_lt hi
    refine ⟨hnil hi, fun _ => ?_, fun hto => ?_⟩
    · unfold insertionPosition
      simp only [if_neg hne, bucketAt_of_lt hi, bucketAt_of_lt hlt', bind, Except.bind, pure,
        Except.pure]
      rw [if_pos hk, if_neg (not_not.mpr rfl)]
    · have hp : i - 1 = h.prevIdx i := by
        rw [prevIdx, Probe.prev_eq hi, if_neg (h0 hto)]
      unfold internalPosition
      simp only [if_neg (h0 hto), bucketAt_of_lt hi, hp, bucketAt_of_lt hlt', bind, Except.bind,
        pure, Except.pure]
      rw [if_pos hk, if_neg (not_not.mpr rfl)]

theorem internalAdvance_eq (hafter : h.skipFreeBuckets (b + 1) = l.headD idxNil)
    (hl : ∀ c ∈ l, c < h.nBuckets) (hs : h.Small) :
    h.internalAdvance it b = .ok (h.setTo it.nextKey l, b) := by
  unfold internalAdvance
  rw [hafter]
  cases l with
  | nil => exact if_neg (not_not.mpr rfl)
  | cons c l =>
    have hc := hl c (List.mem_cons_self ..)
    have hne : (c :: l).headD idxNil ≠ idxNil := Slot.ne_nil (.inl hc) hs
    rw [if_pos hne]
    change (h.bucketAt c >>= fun e => pure ((⟨c, e.key⟩ : Iterator), b)) = _
    rw [bucketAt_of_lt hc]
    rfl

theorem insertionAdvance_eq (hto : h.type = .ordered) (hpos : h.insertionPosition it = .ok b)
    (hi : it.idx ≠ idxNil) (hf : it.idx = idxFirst → h.iterateListHead ≠ idxNil)
    (hlt : b < h.nBuckets) (hafter : h.after b = l.headD idxNil) (hl : ∀ c ∈ l, c < h.nBuckets)
    (hs : h.Small) :
    h.hashmapIterateInInsertionOrder it = .ok (h.setTo it.nextKey l, b) := by
  have hgo : ¬ (it.idx = idxNil ∨ (it.idx = idxFirst ∧ h.iterateListHead = idxNil)) :=
    fun hc => hc.elim hi fun hc => hf hc.1 hc.2
  have hnext : (h.bucket b).iterateNext = l.headD idxNil := by
    rwa [after, if_pos hto] at hafter
  unfold hashmapIterateInInsertionOrder
  simp only [if_neg hgo, hpos, bucketAt_of_lt hlt, hnext, bind, Except.bind, pure, Except.pure]
  cases l with
  | nil => exact if_neg (not_not.mpr rfl)
  | cons c l =>
    have hc := hl c (List.mem_cons_self ..)
    have hne : (c :: l).headD idxNil ≠ idxNil := Slot.ne_nil (.inl hc) hs
    have hat : h.bucketAt ((c :: l).headD idxNil) = .ok (h.bucket c) := bucketAt_of_lt hc
    rw [if_pos hne, hat]
    rfl

theorem occupied_lowest {q : Nat}
    (hlow : ∀ i < h.nBuckets, h.dibs i ≠ dibRawFree → q ≤ i) : h.occupied q = h.occupied 0 := by
  induction q with
  | zero => rfl
  | succ q ih =>
    have hq := ih fun i hi hocc => (Nat.le_succ q).trans (hlow i hi hocc)
    rw [← hq]
    rcases Nat.lt_or_ge q h.nBuckets with hlt | hge
    · rw [occupied_cons hlt, if_neg]
      exact fun hocc => Nat.not_succ_le_self q (hlow q hlt hocc)
    · rw [occupied, occupied, Nat.sub_eq_zero_of_le hge, Nat.sub_eq_zero_of_le (hge.trans q.le_succ)]
      rfl

def raised (h : HashmapBase) (first : Nat) : HashmapBase :=
  if h.hasIndirect then { h with idxLowestEntry := first } else h

theorem raised_entries (first : Nat) : SameEntries h (h.raised first) := by
  unfold raised
  split_ifs
  · exact ⟨⟨rfl, rfl, rfl, rfl, rfl, rfl⟩, rfl, rfl, rfl, rfl, rfl⟩
  · exact .refl h

structure Turned (h h' : HashmapBase) : Prop extends SameEntries h h' where
  lowest : h'.hasIndirect = true → ∀ i < h'.nBuckets, h'.dibs i ≠ dibRawFree →
    h'.idxLowestEntry ≤ i

theorem Valid.turned_self (hv : Valid h es) : Turned h h := by
  obtain ⟨order, hf⟩ := hv.filling
  exact ⟨.refl h, hf.lowest⟩

theorem turned_noted (hl : h.occupied 0 = l) : Turned h (h.raised (l.headD idxNil)) := by
  refine ⟨raised_entries _, fun hind i hi hocc => ?_⟩
  have s := raised_entries (h := h) (l.headD idxNil)
  rw [s.same.hasIndirect] at hind
  rw [s.same.nBuckets] at hi
  rw [s.dibs] at hocc
  have hm : i ∈ l := hl ▸ mem_occupied.mpr ⟨Nat.zero_le i, hi, hocc⟩
  have hmark : (h.raised (l.headD idxNil)).idxLowestEntry = l.headD idxNil := by
    unfold raised
    rw [if_pos hind]
  rw [hmark]
  have hsorted : l.Pairwise (· ≤ ·) := hl ▸ (List.pairwise_le_range' ..).filter _
  cases l with
  | nil => exact absurd hm List.not_mem_nil
  | cons c l =>
    rcases List.mem_cons.mp hm with rfl | hm
    · exact le_rfl
    · exact (List.pairwise_cons.mp hsorted).1 i hm

theorem Valid.internal_first (hv : Valid h es) (hl : h.occupied 0 = l) :
    h.skipFreeBuckets (if h.hasIndirect then h.idxLowestEntry else 0) = l.headD idxNil := by
  obtain ⟨order, hf⟩ := hv.filling
  rw [skipFreeBuckets_eq]
  split_ifs with hind
  · rw [occupied_lowest (hf.lowest hind), hl]
  · rw [hl]

theorem Rest.lt_nBuckets : ∀ {l : List Nat}, h.Rest l → ∀ c ∈ l, c < h.nBuckets
  | [], _, _, hc => absurd hc List.not_mem_nil
  | b :: l, hr, c, hc => by
    obtain ⟨hb, -, -, hr⟩ := hr.cons
    rcases List.mem_cons.mp hc with rfl | hc
    · exact hb
    · exact hr.lt_nBuckets c hc

theorem Before.iterateEntry (hb : Before h it (b :: l)) (hr : h.Rest (b :: l)) (hv : Valid h es) :
    ∃ h', h.hashmapIterateEntry it = .ok (h', h.setTo it.nextKey l, b) ∧ Turned h h' := by
  obtain ⟨order, hf⟩ := hv.filling
  obtain ⟨hlt, hocc, hafter, hrest⟩ := hr.cons
  have hs := hf.robin.small
  have hbelow := hrest.lt_nBuckets
  have hnil : b ≠ idxNil := Slot.ne_nil (.inl hlt) hs
  have hfirst : it.idx = idxFirst → it = iteratorFirst ∧
      (h.type = .ordered → h.iterateListHead = b) ∧ (h.type ≠ .ordered → h.occupied 0 = b :: l) := by
    intro he
    cases hb with
    | first _ hordered hinternal => exact ⟨rfl, hordered, fun ht => (hinternal ht).symm⟩
    | here =>
      exact absurd he fun he : b = idxFirst => by
        have hsm : h.nBuckets ≤ idxSwapBegin := hs
        unfold idxFirst idxSwapBegin uint32Max at *
        omega
    | back i _ hi =>
      exact absurd he fun he : i = idxFirst => by
        have hsm : h.nBuckets ≤ idxSwapBegin := hs
        unfold idxFirst idxSwapBegin uint32Max at *
        omega
  unfold hashmapIterateEntry
  by_cases hto : h.type = .ordered
  · rw [if_pos hto]
    have hgo : h.insertionPosition it = .ok b ∧ it.idx ≠ idxNil ∧
        (it.idx = idxFirst → h.iterateListHead ≠ idxNil) := by
      by_cases he : it.idx = idxFirst
      · obtain ⟨rfl, hhead, -⟩ := hfirst he
        refine ⟨(if_pos rfl).trans (congrArg _ (hhead hto)), by decide, fun _ => ?_⟩
        rwa [hhead hto]
      · obtain ⟨hi, hpos, -⟩ := hb.position hlt hs he
        exact ⟨hpos hto, hi, fun hc => absurd hc he⟩
    have hadv := insertionAdvance_eq hto hgo.1 hgo.2.1 hgo.2.2 hlt hafter hbelow hs
    simp only [hadv, bind, Except.bind, pure, Except.pure]
    exact ⟨h, rfl, hv.turned_self⟩
  · rw [if_neg hto]
    rw [after, if_neg hto] at hafter
    have hadv : h.internalAdvance it _ = _ := internalAdvance_eq hafter hbelow hs
    unfold hashmapIterateInInternalOrder
    by_cases he : it.idx = idxFirst
    · obtain ⟨rfl, -, hwalk⟩ := hfirst he
      have hskip := hv.internal_first (hwalk hto)
      have s := raised_entries (h := h) b
      have hadv' : (h.raised b).internalAdvance iteratorFirst b =
          .ok (h.setTo iteratorFirst.nextKey l, b) := by
        rw [← s.setTo]
        refine internalAdvance_eq (s.skip.trans hafter) (fun c hc => ?_) (s.same.small hs)
        rw [s.same.nBuckets]
        exact hbelow c hc
      refine ⟨h.raised b, ?_, turned_noted (hwalk hto)⟩
      rw [if_neg (by decide), if_pos he, hskip]
      simp only [List.headD_cons]
      refine (if_neg hnil).trans ?_
      change ((h.raised b).internalAdvance iteratorFirst b >>= fun r => pure (h.raised b, r)) = _
      rw [hadv']
      rfl
    · obtain ⟨hi, -, hpos⟩ := hb.position hlt hs he
      rw [if_neg hi, if_neg he]
      simp only [hpos hto, hadv, bind, Except.bind, pure, Except.pure]
      exact ⟨h, rfl, hv.turned_self⟩

theorem iterateEntry_done (k : Ptr) :
    h.hashmapIterateEntry ⟨idxNil, k⟩ = .ok (h, ⟨idxNil, k⟩, idxNil) := by
  unfold hashmapIterateEntry
  split_ifs
  · unfold hashmapIterateInInsertionOrder
    rw [if_pos (.inl rfl)]
    rfl
  · exact if_pos rfl

theorem Before.iterateEntry_nil (hb : Before h it []) (hv : Valid h es) :
    ∃ h' it', h.hashmapIterateEntry it = .ok (h', it', idxNil) ∧ Turned h h' := by
  cases hb with
  | done k => exact ⟨h, ⟨idxNil, k⟩, iterateEntry_done k, hv.turned_self⟩
  | first _ hordered hinternal =>
    unfold hashmapIterateEntry
    by_cases hto : h.type = .ordered
    · refine ⟨h, ⟨idxNil, 0⟩, ?_, hv.turned_self⟩
      rw [if_pos hto]
      unfold hashmapIterateInInsertionOrder
      rw [if_pos (.inr ⟨rfl, hordered hto⟩)]
      rfl
    · have hwalk : h.occupied 0 = [] := (hinternal hto).symm
      refine ⟨h.raised idxNil, ⟨idxNil, 0⟩, ?_, turned_noted hwalk⟩
      rw [if_neg hto]
      unfold hashmapIterateInInternalOrder
      have he : iteratorFirst.idx = idxFirst := rfl
      rw [if_neg (by decide), if_pos he, hv.internal_first hwalk]
      exact if_pos rfl

theorem Before.iterate (hb : Before h it (b :: l)) (hr : h.Rest (b :: l)) (hv : Valid h es) :
    ∃ h', h.internalHashmapIterate it =
      .ok (h', h.setTo it.nextKey l, some (h.pair (h.bucket b))) ∧ Turned h h' := by
  obtain ⟨order, hf⟩ := hv.filling
  have hlt := hr.cons.1
  obtain ⟨h', hrun, ht⟩ := hb.iterateEntry hr hv
  have hnil : b ≠ idxNil := Slot.ne_nil (.inl hlt) hf.robin.small
  have hlt' : b < h'.nBuckets := ht.same.nBuckets.symm ▸ hlt
  refine ⟨h', ?_, ht⟩
  unfold internalHashmapIterate
  simp only [hrun, if_neg hnil, bucketAt_of_lt hlt', ht.bucket, ht.same.entryValue, bind,
    Except.bind, pure, Except.pure]
  rfl

theorem Before.iterate_nil (hb : Before h it []) (hv : Valid h es) :
    ∃ h' it', h.internalHashmapIterate it = .ok (h', it', none) ∧ Turned h h' := by
  obtain ⟨h', it', hrun, ht⟩ := hb.iterateEntry_nil hv
  refine ⟨h', it', ?_, ht⟩
  unfold internalHashmapIterate
  simp only [hrun, if_true, bind, Except.bind, pure, Except.pure]

theorem Turned.valid (ht : Turned h h') (hv : Valid h es) : Valid h' es := by
  obtain ⟨order, hf⟩ := hv.filling
  have hplaced : ∀ i, h'.Placed i ↔ h.Placed i := fun i => by rw [Placed, Placed, ht.dibs]
  refine ⟨⟨order, ht.filling hf ht.lowest⟩, ?_, ?_, ht.nEntries.trans hv.nEntries, ?_, ?_⟩
  · rw [pending_congr ht.same fun i => by rw [ht.dibs], hv.settled]
  · obtain ⟨i, hi, hstop⟩ := hv.stop
    refine ⟨i, ht.same.nBuckets.symm ▸ hi, fun hp => ?_⟩
    rw [ht.same.far (congrArg HashEntry.key (congrFun ht.bucket i))]
    exact hstop ((hplaced i).mp hp)
  · rw [ht.same.nBuckets, ht.same.type]
    exact hv.bounded
  · rw [ht.same.hashOps]
    exact hv.distinct

end HashmapBase
end Basu
