import Basu.Hashmap.Moves

/-! The distances a table records: they are exact up to the largest that fits, and the entries stand
in the order of Robin Hood. -/

namespace Basu

open Lib

namespace HashmapBase

variable {h h' : HashmapBase} {i idx d : Nat} {order : List Nat} {es : List (Ptr × Ptr)}

def far (h : HashmapBase) (i : Nat) : Nat := h.bucketDistance i (h.bucketHash (h.bucket i).key)

def Placed (h : HashmapBase) (i : Nat) : Prop :=
  h.dibs i ≠ dibRawFree ∧ h.dibs i ≠ dibRawRehash

structure Robin (h : HashmapBase) : Prop where
  pos : 0 < h.nBuckets
  small : h.Small
  exact : ∀ i < h.nBuckets, h.Placed i → h.dibs i = min (h.far i) dibRawOverflow
  orderly : Probe.Orderly h.nBuckets h.Placed h.far

theorem SameTable.far (s : SameTable h h') (hk : (h'.bucket i).key = (h.bucket i).key) :
    h'.far i = h.far i := by
  rw [HashmapBase.far, HashmapBase.far, hk, s.bucketHash, bucketDistance, bucketDistance,
    s.nBuckets]

theorem bucketHash_lt (hp : 0 < h.nBuckets) (p : Ptr) : h.bucketHash p < h.nBuckets :=
  Nat.mod_lt _ hp

theorem far_lt (hp : 0 < h.nBuckets) (hi : i < h.nBuckets) : h.far i < h.nBuckets :=
  Probe.distance_lt hi (bucketHash_lt hp _)

theorem Robin.calculateDib (hr : h.Robin) (hi : i < h.nBuckets) (hp : h.Placed i) :
    h.bucketCalculateDib i (h.dibs i) = .ok (h.far i) := by
  unfold bucketCalculateDib
  rw [if_neg hp.1]
  have he := hr.exact i hi hp
  split_ifs with hlt
  · rw [he, min_eq_left]
    rw [he] at hlt
    exact (lt_of_not_ge fun hge => absurd hlt (by rw [min_eq_right hge]; exact lt_irrefl _)).le
  · rw [bucketAt_of_lt hi]
    rfl

theorem bucketSetDib_of_lt (hs : h.Small) (hi : i < h.nBuckets) (hd : d < h.nBuckets) :
    h.bucketSetDib i d = .ok (h.setDib i (min d dibRawOverflow)) := by
  have hne : d ≠ dibFree := by
    unfold Small at hs
    unfold dibFree idxSwapBegin at *
    omega
  rw [bucketSetDib, if_pos hi, if_pos hne]

theorem Robin.congr (hr : h.Robin) (s : SameTable h h')
    (hp : ∀ i < h.nBuckets, h'.Placed i ↔ h.Placed i)
    (he : ∀ i < h.nBuckets, h.Placed i →
      h'.dibs i = h.dibs i ∧ (h'.bucket i).key = (h.bucket i).key) : h'.Robin := by
  refine ⟨s.nBuckets ▸ hr.pos, s.small_iff.mpr hr.small, fun i hi hpi => ?_, ?_⟩
  · rw [s.nBuckets] at hi
    have hpi' := (hp i hi).mp hpi
    obtain ⟨hd, hk⟩ := he i hi hpi'
    rw [hd, s.far hk]
    exact hr.exact i hi hpi'
  · rw [s.nBuckets]
    exact hr.orderly.congr hp fun i hi hpi => s.far (he i hi hpi).2

theorem Robin.set (hr : h.Robin) (s : SameTable h h') {k : Ptr} (hi : idx < h.nBuckets)
    (hkey : ∀ i < h.nBuckets, (h'.bucket i).key = if i = idx then k else (h.bucket i).key)
    (hdib : h'.dibs = Function.update h.dibs idx (min d dibRawOverflow))
    (hd : d = h.bucketDistance idx (h.bucketHash k))
    (hm : Probe.MayStand h.nBuckets h.Placed h.far idx d) (hle : h.Placed idx → h.far idx ≤ d) :
    h'.Robin ∧ (∀ i, h'.Placed i ↔ i = idx ∨ h.Placed i) ∧
      ∀ i < h.nBuckets, h'.far i = Function.update h.far idx d i := by
  have hfar : ∀ i < h.nBuckets, h'.far i = Function.update h.far idx d i := by
    intro i hlt
    have hk := hkey i hlt
    by_cases he : i = idx
    · subst he
      rw [if_pos rfl] at hk
      rw [Function.update_self, hd, far, hk, s.bucketHash, bucketDistance, bucketDistance,
        s.nBuckets]
    · rw [if_neg he] at hk
      rw [Function.update_of_ne he, s.far hk]
  have hplaced : ∀ i, h'.Placed i ↔ i = idx ∨ h.Placed i := by
    intro i
    by_cases he : i = idx
    · subst he
      have h1 : min d dibRawOverflow ≤ dibRawOverflow := min_le_right ..
      have h2 : min d dibRawOverflow ≠ dibRawFree ∧ min d dibRawOverflow ≠ dibRawRehash := by
        unfold dibRawOverflow dibRawFree dibRawRehash at *
        omega
      rw [Placed, hdib, Function.update_self]
      exact iff_of_true h2 (.inl rfl)
    · rw [Placed, hdib, Function.update_of_ne he]
      exact (or_iff_right he).symm
  refine ⟨⟨s.nBuckets ▸ hr.pos, s.small_iff.mpr hr.small, ?_, ?_⟩, hplaced, hfar⟩
  · intro i hlt hpl
    rw [s.nBuckets] at hlt
    rw [hdib, hfar i hlt]
    by_cases he : i = idx
    · subst he
      rw [Function.update_self, Function.update_self]
    · rw [Function.update_of_ne he, Function.update_of_ne he]
      exact hr.exact i hlt (((hplaced i).mp hpl).resolve_left he)
  · rw [s.nBuckets]
    exact (hr.orderly.set hi hm hle).congr (fun i _ => hplaced i) fun i hlt _ => hfar i hlt

end HashmapBase
end Basu
