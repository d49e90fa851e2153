import Basu.Hashmap.Iterate
import Basu.Lib.Chain

/-! The entries of a table in the order of their insertion, through all moves between buckets. -/

namespace Basu

open Lib

namespace HashmapBase

variable {h h' : HashmapBase} {i src dst : Nat} {order : List Nat} {es : List (Ptr × Ptr)}

def Slot (h : HashmapBase) (i : Nat) : Prop := i < h.nBuckets ∨ i = idxPut ∨ i = idxTmp

def Small (h : HashmapBase) : Prop := h.nBuckets ≤ idxSwapBegin

theorem Slot.ne_nil (hi : h.Slot i) (hs : h.Small) : i ≠ idxNil := by
  unfold Slot Small at *
  unfold idxPut idxTmp idxSwapBegin idxNil uint32Max at *
  omega

theorem bucketAt_of_lt (hi : i < h.nBuckets) : h.bucketAt i = .ok (h.bucket i) := if_pos hi

theorem dibAt_of_lt (hi : i < h.nBuckets) : h.dibAt i = .ok (h.dibs i) := if_pos hi

theorem modifyBucket_of_lt (hi : i < h.nBuckets) (f : HashEntry → HashEntry) :
    h.modifyBucket i f = .ok (h.setBucket i (f (h.bucket i))) := by
  unfold modifyBucket
  rw [bucketAt_of_lt hi]
  rfl

theorem bucketAtVirtual_of_slot (hs : h.Small) (hi : h.Slot i) :
    h.bucketAtVirtual i = .ok (h.bucket i) := by
  unfold bucketAtVirtual
  rcases hi with hi | hi
  · rw [if_pos (hi.trans_le hs), bucketAt_of_lt hi]
  · have hlo : ¬ i < idxSwapBegin := by rcases hi with rfl | rfl <;> decide
    have hhi : i < idxSwapEnd := by rcases hi with rfl | rfl <;> decide
    rw [if_neg hlo, if_pos hhi]

theorem modifyVirtual_of_slot (hs : h.Small) (hi : h.Slot i) (f : HashEntry → HashEntry) :
    h.modifyVirtual i f = .ok (h.setBucket i (f (h.bucket i))) := by
  unfold modifyVirtual
  rw [bucketAtVirtual_of_slot hs hi]
  rfl

theorem setBucket_bucket (e : HashEntry) :
    (h.setBucket i e).bucket = Function.update h.bucket i e := rfl

@[simp] theorem setBucket_self (e : HashEntry) : (h.setBucket i e).bucket i = e := by
  rw [setBucket_bucket, Function.update_self]

theorem setBucket_of_ne {j : Nat} (hij : j ≠ i) (e : HashEntry) :
    (h.setBucket i e).bucket j = h.bucket j := by
  rw [setBucket_bucket, Function.update_of_ne hij]

def touch (h : HashmapBase) (idx : Nat) (f : HashEntry → HashEntry) : HashmapBase :=
  if idx ≠ idxNil then h.setBucket idx (f (h.bucket idx)) else h

def moved (h : HashmapBase) (src dst : Nat) : HashmapBase :=
  let e := h.bucket src
  let h := h.setBucket dst e
  if h.type = .ordered then
    ((h.touch e.iterateNext (pointBack dst)).touch e.iteratePrevious (pointOn dst)).renameEnds
      src dst
  else h

def MoveOk (h : HashmapBase) (src dst : Nat) : Prop :=
  h.type = .ordered → ∀ n, n = (h.bucket src).iterateNext ∨ n = (h.bucket src).iteratePrevious →
    n ≠ idxNil → h.Slot n ∧ n ≠ dst

theorem modifyNeighbour_eq (hs : h.Small) (hi : i ≠ idxNil → h.Slot i)
    (f : HashEntry → HashEntry) : h.modifyNeighbour i f = .ok (h.touch i f) := by
  unfold modifyNeighbour touch
  split_ifs with hne
  · exact modifyVirtual_of_slot hs (hi hne) f
  · rfl

theorem touch_nil (f : HashEntry → HashEntry) : h.touch idxNil f = h :=
  if_neg (not_not.mpr rfl)

theorem touch_of_ne {j : Nat} (hij : j ≠ i) (f : HashEntry → HashEntry) :
    (h.touch i f).bucket j = h.bucket j := by
  unfold touch
  split_ifs
  · exact setBucket_of_ne hij _
  · rfl

structure SameTable (h h' : HashmapBase) : Prop where
  hashOps : h'.hashOps = h.hashOps
  type : h'.type = h.type
  hasIndirect : h'.hasIndirect = h.hasIndirect
  sharedHashKey : h'.sharedHashKey = h.sharedHashKey
  indirectHashKey : h'.indirectHashKey = h.indirectHashKey
  indirectNBuckets : h'.indirectNBuckets = h.indirectNBuckets

namespace SameTable

theorem refl (h : HashmapBase) : SameTable h h := ⟨rfl, rfl, rfl, rfl, rfl, rfl⟩

theorem trans {k : HashmapBase} (a : SameTable h h') (b : SameTable h' k) : SameTable h k :=
  ⟨b.hashOps.trans a.hashOps, b.type.trans a.type, b.hasIndirect.trans a.hasIndirect,
    b.sharedHashKey.trans a.sharedHashKey, b.indirectHashKey.trans a.indirectHashKey,
    b.indirectNBuckets.trans a.indirectNBuckets⟩

theorem nBuckets (s : SameTable h h') : h'.nBuckets = h.nBuckets := by
  rw [HashmapBase.nBuckets, HashmapBase.nBuckets, s.hasIndirect, s.indirectNBuckets, s.type]

theorem bucketHash (s : SameTable h h') (p : Ptr) : h'.bucketHash p = h.bucketHash p := by
  rw [HashmapBase.bucketHash, HashmapBase.bucketHash, s.nBuckets, s.hashOps, hashKey, hashKey,
    s.hasIndirect, s.sharedHashKey, s.indirectHashKey]

theorem slot_iff (s : SameTable h h') : h'.Slot i ↔ h.Slot i := by rw [Slot, Slot, s.nBuckets]

theorem small_iff (s : SameTable h h') : h'.Small ↔ h.Small := by rw [Small, Small, s.nBuckets]

theorem entryValue (s : SameTable h h') (e : HashEntry) : h'.entryValue e = h.entryValue e := by
  rw [HashmapBase.entryValue, HashmapBase.entryValue, s.type]

end SameTable

theorem setBucket_same (e : HashEntry) : SameTable h (h.setBucket i e) :=
  ⟨rfl, rfl, rfl, rfl, rfl, rfl⟩

theorem touch_same (f : HashEntry → HashEntry) : SameTable h (h.touch i f) := by
  unfold touch
  split_ifs
  · exact setBucket_same _
  · exact .refl h

theorem renameEnds_same (src dst : Nat) : SameTable h (h.renameEnds src dst) :=
  ⟨rfl, rfl, rfl, rfl, rfl, rfl⟩

theorem moved_same : SameTable h (h.moved src dst) := by
  unfold moved
  dsimp only
  split_ifs
  · exact (setBucket_same _).trans
      ((touch_same _).trans ((touch_same _).trans (renameEnds_same src dst)))
  · exact setBucket_same _

theorem bucketMoveEntry_eq (hs : h.Small) (hsrc : h.Slot src) (hdst : h.Slot dst)
    (hne : src ≠ dst) (hok : h.MoveOk src dst) :
    h.bucketMoveEntry src dst = .ok (h.moved src dst) := by
  have hs' : (h.setBucket dst (h.bucket src)).Small := hs
  unfold bucketMoveEntry moved
  rw [if_neg hne, bucketAtVirtual_of_slot hs hsrc]
  simp only [bind, Except.bind, pure, Except.pure, modifyVirtual_of_slot hs hdst]
  split_ifs with ht
  · have hslot : (h.setBucket dst (h.bucket src)).Slot dst := hdst
    have hn := hok ht (h.bucket src).iterateNext (.inl rfl)
    have hp := hok ht (h.bucket src).iteratePrevious (.inr rfl)
    rw [bucketAtVirtual_of_slot hs' hslot, setBucket_self]
    simp only
    rw [modifyNeighbour_eq hs' fun h0 => (hn h0).1]
    have hsame : SameTable h
        ((h.setBucket dst (h.bucket src)).touch (h.bucket src).iterateNext (pointBack dst)) :=
      (setBucket_same _).trans (touch_same _)
    -- the neighbour behind is another bucket, so the entry in the new one is as it was
    have hkept : ((h.setBucket dst (h.bucket src)).touch (h.bucket src).iterateNext
        (pointBack dst)).bucket dst = h.bucket src := by
      by_cases h0 : (h.bucket src).iterateNext = idxNil
      · rw [h0, touch_nil, setBucket_self]
      · rw [touch_of_ne (hn h0).2.symm, setBucket_self]
    have hsk := hsame.small_iff.mpr hs
    simp only
    rw [bucketAtVirtual_of_slot hsk (hsame.slot_iff.mpr hdst), hkept]
    simp only
    rw [modifyNeighbour_eq hsk fun h0 => hsame.slot_iff.mpr (hp h0).1]
  · rfl

structure SameCounts (h h' : HashmapBase) : Prop where
  dibs : h'.dibs = h.dibs
  nEntries : h'.nEntries = h.nEntries
  idxLowestEntry : h'.idxLowestEntry = h.idxLowestEntry

theorem SameCounts.trans {h₁ h₂ h₃ : HashmapBase} (s : SameCounts h₁ h₂) (s' : SameCounts h₂ h₃) :
    SameCounts h₁ h₃ :=
  ⟨s'.dibs.trans s.dibs, s'.nEntries.trans s.nEntries, s'.idxLowestEntry.trans s.idxLowestEntry⟩

theorem touch_counts (f : HashEntry → HashEntry) : SameCounts h (h.touch i f) := by
  unfold touch
  split <;> exact ⟨rfl, rfl, rfl⟩

theorem moved_counts : SameCounts h (h.moved src dst) := by
  have hset : SameCounts h (h.setBucket dst (h.bucket src)) := ⟨rfl, rfl, rfl⟩
  have hends : ∀ h' : HashmapBase, SameCounts h' (h'.renameEnds src dst) :=
    fun _ => ⟨rfl, rfl, rfl⟩
  unfold moved
  dsimp only
  split
  · exact hset.trans ((touch_counts _).trans ((touch_counts _).trans (hends _)))
  · exact hset

def pair (h : HashmapBase) (e : HashEntry) : Ptr × Ptr := (e.key, h.entryValue e)

theorem SameTable.pair (s : SameTable h h') (e : HashEntry) : h'.pair e = h.pair e := by
  rw [HashmapBase.pair, HashmapBase.pair, s.entryValue]

theorem setBucket_pair (e : HashEntry) (j : Nat) :
    (h.setBucket i e).pair ((h.setBucket i e).bucket j) =
      h.pair (if j = i then e else h.bucket j) := by
  split_ifs with hj
  · subst hj
    rw [setBucket_self]
    rfl
  · rw [setBucket_of_ne hj]
    rfl

theorem pair_pointBack (e : HashEntry) : h.pair (pointBack dst e) = h.pair e := rfl

theorem pair_pointOn (e : HashEntry) : h.pair (pointOn dst e) = h.pair e := rfl

theorem touch_pair {f : HashEntry → HashEntry} (hf : ∀ e, h.pair (f e) = h.pair e) (j : Nat) :
    (h.touch i f).pair ((h.touch i f).bucket j) = h.pair (h.bucket j) := by
  unfold touch
  split_ifs
  · rw [setBucket_pair]
    split_ifs with hj
    · rw [hf, hj]
    · rfl
  · rfl

theorem moved_pair (i : Nat) : (h.moved src dst).pair ((h.moved src dst).bucket i) =
    h.pair (if i = dst then h.bucket src else h.bucket i) := by
  rw [← setBucket_pair]
  unfold moved
  dsimp only
  split_ifs
  · exact (touch_pair pair_pointOn i).trans (touch_pair pair_pointBack i)
  · rfl

structure Linked (h : HashmapBase) (order : List Nat) : Prop where
  head : h.iterateListHead = order.headD idxNil
  tail : h.iterateListTail = order.getLastD idxNil
  chain : Chained (fun i => (h.bucket i).iterateNext) (fun i => (h.bucket i).iteratePrevious)
    idxNil order idxNil

structure Threads (h : HashmapBase) (order : List Nat) (es : List (Ptr × Ptr)) : Prop where
  nodup : order.Nodup
  slots : ∀ i ∈ order, h.Slot i
  entries : order.map (fun i => h.pair (h.bucket i)) = es
  linked : h.type = .ordered → h.Linked order

theorem Threads.nil_notMem (ht : Threads h order es) (hs : h.Small) : idxNil ∉ order :=
  fun hm => (ht.slots _ hm).ne_nil hs rfl

theorem Linked.neighbour (hl : h.Linked order) (hi : i ∈ order) {n : Nat}
    (hn : n = (h.bucket i).iterateNext ∨ n = (h.bucket i).iteratePrevious) (h0 : n ≠ idxNil) :
    n ∈ order := by
  rcases hn with rfl | rfl
  · exact (hl.chain.next_mem hi).resolve_right h0
  · exact (hl.chain.prev_mem hi).resolve_right h0

theorem Threads.moveOk (ht : Threads h order es) (hsrc : src ∈ order) (hdst : dst ∉ order) :
    h.MoveOk src dst := fun hto n hn h0 =>
  have hm := (ht.linked hto).neighbour hsrc hn h0
  ⟨ht.slots n hm, fun he => hdst (he ▸ hm)⟩

def rename (src dst i : Nat) : Nat := if i = src then dst else i

theorem rename_self : rename src dst src = dst := if_pos rfl

theorem rename_of_ne (hi : i ≠ src) : rename src dst i = i := if_neg hi

theorem touch_pointOn {j k d : Nat} : ((h.touch k (pointOn d)).bucket j).iterateNext =
      (if j = k ∧ k ≠ idxNil then d else (h.bucket j).iterateNext) ∧
    ((h.touch k (pointOn d)).bucket j).iteratePrevious = (h.bucket j).iteratePrevious := by
  unfold touch
  by_cases hk : k = idxNil
  · rw [if_neg (not_not.mpr hk), if_neg fun hc => hc.2 hk]
    exact ⟨rfl, rfl⟩
  · rw [if_pos hk]
    by_cases hj : j = k
    · subst hj
      rw [setBucket_self, if_pos ⟨rfl, hk⟩]
      exact ⟨rfl, rfl⟩
    · rw [setBucket_of_ne hj, if_neg fun hc => hj hc.1]
      exact ⟨rfl, rfl⟩

theorem touch_pointBack {j k d : Nat} : ((h.touch k (pointBack d)).bucket j).iteratePrevious =
      (if j = k ∧ k ≠ idxNil then d else (h.bucket j).iteratePrevious) ∧
    ((h.touch k (pointBack d)).bucket j).iterateNext = (h.bucket j).iterateNext := by
  unfold touch
  by_cases hk : k = idxNil
  · rw [if_neg (not_not.mpr hk), if_neg fun hc => hc.2 hk]
    exact ⟨rfl, rfl⟩
  · rw [if_pos hk]
    by_cases hj : j = k
    · subst hj
      rw [setBucket_self, if_pos ⟨rfl, hk⟩]
      exact ⟨rfl, rfl⟩
    · rw [setBucket_of_ne hj, if_neg fun hc => hj hc.1]
      exact ⟨rfl, rfl⟩

theorem moved_next (hto : h.type = .ordered) {j : Nat} (hj : j ≠ idxNil) :
    ((h.moved src dst).bucket j).iterateNext = if j = (h.bucket src).iteratePrevious then dst
      else (if j = dst then h.bucket src else h.bucket j).iterateNext := by
  have hset : (h.setBucket dst (h.bucket src)).bucket j =
      if j = dst then h.bucket src else h.bucket j := Function.update_apply ..
  have hne : (j = (h.bucket src).iteratePrevious ∧ (h.bucket src).iteratePrevious ≠ idxNil) ↔
      j = (h.bucket src).iteratePrevious := and_iff_left_of_imp fun he => he ▸ hj
  rw [moved, if_pos (show (h.setBucket dst (h.bucket src)).type = .ordered from hto)]
  exact touch_pointOn.1.trans (by rw [touch_pointBack.2, hset]; simp only [hne])

theorem moved_previous (hto : h.type = .ordered) {j : Nat} (hj : j ≠ idxNil) :
    ((h.moved src dst).bucket j).iteratePrevious = if j = (h.bucket src).iterateNext then dst
      else (if j = dst then h.bucket src else h.bucket j).iteratePrevious := by
  have hset : (h.setBucket dst (h.bucket src)).bucket j =
      if j = dst then h.bucket src else h.bucket j := Function.update_apply ..
  have hne : (j = (h.bucket src).iterateNext ∧ (h.bucket src).iterateNext ≠ idxNil) ↔
      j = (h.bucket src).iterateNext := and_iff_left_of_imp fun he => he ▸ hj
  rw [moved, if_pos (show (h.setBucket dst (h.bucket src)).type = .ordered from hto)]
  exact touch_pointOn.2.trans (touch_pointBack.1.trans (by rw [hset]; simp only [hne]))

theorem Linked.moved_links (hl : h.Linked order) (hto : h.type = .ordered) (hn : order.Nodup)
    (hnil : idxNil ∉ order) (hsrc : src ∈ order) (hdst : dst ∉ order) (hd : dst ≠ idxNil)
    (hi : i ∈ order) :
    ((h.moved src dst).bucket (rename src dst i)).iterateNext =
        rename src dst (h.bucket i).iterateNext ∧
      ((h.moved src dst).bucket (rename src dst i)).iteratePrevious =
        rename src dst (h.bucket i).iteratePrevious := by
  have hinil : i ≠ idxNil := fun he => hnil (he ▸ hi)
  by_cases his : i = src
  · subst his
    have hfar : ∀ n, n = (h.bucket i).iterateNext ∨ n = (h.bucket i).iteratePrevious → dst ≠ n := by
      intro n hc he
      exact hdst (he ▸ hl.neighbour hi hc (he ▸ hd))
    rw [rename_self, moved_next hto hd, moved_previous hto hd, if_neg (hfar _ (.inr rfl)),
      if_neg (hfar _ (.inl rfl)), if_pos rfl, rename_of_ne (hl.chain.next_ne hn hnil hi),
      rename_of_ne (hl.chain.prev_ne hn hnil hnil hi)]
    exact ⟨rfl, rfl⟩
  · have hid : i ≠ dst := fun he => hdst (he ▸ hi)
    have hnext := hl.chain.next_eq_iff hn hnil hnil hi hsrc
    have hprev := hl.chain.next_eq_iff hn hnil hnil hsrc hi
    rw [rename_of_ne his, moved_next hto hinil, moved_previous hto hinil, if_neg hid]
    refine ⟨?_, ?_⟩
    · simp only [rename, hnext, eq_comm]
    · simp only [rename, ← hprev, eq_comm]

theorem touch_ends (f : HashEntry → HashEntry) :
    (h.touch i f).iterateListHead = h.iterateListHead ∧
      (h.touch i f).iterateListTail = h.iterateListTail := by
  unfold touch
  split_ifs <;> exact ⟨rfl, rfl⟩

theorem moved_ends (hto : h.type = .ordered) :
    (h.moved src dst).iterateListHead = rename src dst h.iterateListHead ∧
      (h.moved src dst).iterateListTail = rename src dst h.iterateListTail := by
  rw [moved, if_pos (show (h.setBucket dst (h.bucket src)).type = .ordered from hto)]
  simp only [renameEnds, touch_ends]
  exact ⟨rfl, rfl⟩

theorem rename_injOn (hdst : dst ∉ order) : ∀ i ∈ order, ∀ j ∈ order,
    rename src dst i = rename src dst j → i = j := by
  intro i hi j hj he
  unfold rename at he
  split_ifs at he with h1 h2 h2
  · exact h1.trans h2.symm
  · exact absurd (he ▸ hj) hdst
  · exact absurd (he ▸ hi) hdst
  · exact he

theorem Threads.move (ht : Threads h order es) (hs : h.Small) (hsrc : src ∈ order)
    (hdst : dst ∉ order) (hd : h.Slot dst) :
    h.bucketMoveEntry src dst = .ok (h.moved src dst) ∧
      Threads (h.moved src dst) (order.map (rename src dst)) es := by
  have hne : src ≠ dst := fun he => hdst (he ▸ hsrc)
  have hd0 := hd.ne_nil hs
  refine ⟨bucketMoveEntry_eq hs (ht.slots _ hsrc) hd hne (ht.moveOk hsrc hdst), ?_, ?_, ?_, ?_⟩
  · exact ht.nodup.map_on (rename_injOn hdst)
  · intro i hi
    obtain ⟨j, hj, rfl⟩ := List.mem_map.mp hi
    rw [moved_same.slot_iff]
    unfold rename
    split_ifs
    · exact hd
    · exact ht.slots j hj
  · rw [List.map_map, ← ht.entries]
    refine List.map_congr_left fun i hi => ?_
    rw [Function.comp_apply, moved_pair]
    unfold rename
    by_cases his : i = src
    · rw [if_pos his, if_pos rfl, his]
    · have hid : i ≠ dst := fun he => hdst (he ▸ hi)
      rw [if_neg his, if_neg hid]
  · intro hto'
    have hto : h.type = .ordered := moved_same.type.symm.trans hto'
    have hl := ht.linked hto
    have hnil := ht.nil_notMem hs
    have hrnil : rename src dst idxNil = idxNil := rename_of_ne fun he => hnil (he ▸ hsrc)
    obtain ⟨hhead, htail⟩ := @moved_ends h src dst hto
    refine ⟨?_, ?_, ?_⟩
    · have hmap := List.headD_map (f := rename src dst) (l := order) (a := idxNil)
      rw [hhead, hl.head, ← hmap, hrnil]
    · have hmap := List.getLastD_map (f := rename src dst) (l := order) (a := idxNil)
      rw [htail, hl.tail, ← hmap, hrnil]
    · have hmap : Chained (fun i => ((h.moved src dst).bucket i).iterateNext)
          (fun i => ((h.moved src dst).bucket i).iteratePrevious) _ _ _ :=
        hl.chain.map (rename src dst) fun i hi =>
          hl.moved_links hto ht.nodup hnil hsrc hdst hd0 hi
      rwa [hrnil] at hmap

end HashmapBase
end Basu
