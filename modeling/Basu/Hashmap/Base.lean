import Basu.Type
import Basu.Lib.Probe

/-! The tables of hashmap.c: their storage, the swap buckets, and how entries move. -/

namespace Basu

open Lib

abbrev Ptr := Nat

/-- What the code does not survive. -/
inductive Fault
  | assertion | outOfBounds | undefined | endless
  deriving DecidableEq, Repr

inductive HashmapType
  | plain | ordered | set
  deriving DecidableEq, Repr

def HashmapType.entrySize : HashmapType → Nat
  | .plain => 16
  | .ordered => 24
  | .set => 8

def sizeofDirectStorage : Nat := 39

def HashmapType.nDirectBuckets (t : HashmapType) : Nat := sizeofDirectStorage / (t.entrySize + 1)

def idxSwapBegin : Nat := uint32Max - 3
def idxPut : Nat := idxSwapBegin
def idxTmp : Nat := idxSwapBegin + 1
def idxSwapEnd : Nat := idxSwapBegin + 2
def idxFirst : Nat := uint32Max - 1
def idxNil : Nat := uint32Max

def dibRawOverflow : Nat := 0xfd
def dibRawRehash : Nat := 0xfe
def dibRawFree : Nat := 0xff
def dibFree : Nat := uint32Max

/-- `struct ordered_hashmap_entry`; the other kinds use its first members. -/
structure HashEntry where
  key : Ptr
  value : Ptr
  iterateNext : Nat
  iteratePrevious : Nat
  deriving DecidableEq, Repr

def HashEntry.zero : HashEntry := ⟨0, 0, 0, 0⟩

def pointBack (dst : Nat) (e : HashEntry) : HashEntry := { e with iteratePrevious := dst }

def pointOn (dst : Nat) (e : HashEntry) : HashEntry := { e with iterateNext := dst }

abbrev HashKey := Bytes

structure HashOps where
  hash : HashKey → Ptr → Nat
  compare : Ptr → Ptr → Int
  compare_self : ∀ a, compare a a = 0
  compare_symm : ∀ {a b}, compare a b = 0 → compare b a = 0
  compare_trans : ∀ {a b c}, compare a b = 0 → compare b c = 0 → compare a c = 0
  hash_eq : ∀ k {a b}, compare a b = 0 → hash k a = hash k b

/-- `struct HashmapBase`, and the list ends of `struct OrderedHashmap`. The buckets at the two swap
indices stand for the `struct swap_entries` of the functions that have one. -/
structure HashmapBase where
  hashOps : HashOps
  type : HashmapType
  hasIndirect : Bool
  sharedHashKey : HashKey
  indirectHashKey : HashKey
  nEntries : Nat
  indirectNBuckets : Nat
  idxLowestEntry : Nat
  bucket : Nat → HashEntry
  dibs : Nat → Nat
  iterateListHead : Nat
  iterateListTail : Nat

def hashmapBaseNew (ops : HashOps) (type : HashmapType) (shared : HashKey) : HashmapBase where
  hashOps := ops
  type := type
  hasIndirect := false
  sharedHashKey := shared
  indirectHashKey := []
  nEntries := 0
  indirectNBuckets := 0
  idxLowestEntry := 0
  bucket := fun _ => .zero
  dibs := fun _ => dibRawFree
  iterateListHead := idxNil
  iterateListTail := idxNil

namespace HashmapBase

variable (h : HashmapBase)

def nBuckets : Nat := if h.hasIndirect then h.indirectNBuckets else h.type.nDirectBuckets

def hashKey : HashKey := if h.hasIndirect then h.indirectHashKey else h.sharedHashKey

def bucketHash (p : Ptr) : Nat := h.hashOps.hash h.hashKey p % h.nBuckets

def nextIdx (idx : Nat) : Nat := Probe.next h.nBuckets idx

def prevIdx (idx : Nat) : Nat := Probe.prev h.nBuckets idx

def bucketDistance (idx start : Nat) : Nat := Probe.distance h.nBuckets idx start

def setBucket (idx : Nat) (e : HashEntry) : HashmapBase :=
  { h with bucket := Function.update h.bucket idx e }

def setDib (idx rawDib : Nat) : HashmapBase :=
  { h with dibs := Function.update h.dibs idx rawDib }

def bucketAt (idx : Nat) : Except Fault HashEntry :=
  if idx < h.nBuckets then .ok (h.bucket idx) else .error .outOfBounds

/-- A write through the pointer `bucket_at` returns. -/
def modifyBucket (idx : Nat) (f : HashEntry → HashEntry) : Except Fault HashmapBase := do
  let e ← h.bucketAt idx
  return h.setBucket idx (f e)

def bucketAtVirtual (idx : Nat) : Except Fault HashEntry :=
  if idx < idxSwapBegin then h.bucketAt idx
  else if idx < idxSwapEnd then .ok (h.bucket idx)
  else .error .assertion

/-- A write through the pointer `bucket_at_virtual` returns. -/
def modifyVirtual (idx : Nat) (f : HashEntry → HashEntry) : Except Fault HashmapBase := do
  let e ← h.bucketAtVirtual idx
  return h.setBucket idx (f e)

def dibAt (idx : Nat) : Except Fault Nat :=
  if idx < h.nBuckets then .ok (h.dibs idx) else .error .outOfBounds

def bucketCalculateDib (idx rawDib : Nat) : Except Fault Nat :=
  if rawDib = dibRawFree then .ok dibFree
  else if rawDib < dibRawOverflow then .ok rawDib
  else do
    let e ← h.bucketAt idx
    return h.bucketDistance idx (h.bucketHash e.key)

def bucketSetDib (idx dib : Nat) : Except Fault HashmapBase :=
  if idx < h.nBuckets then
    .ok (h.setDib idx (if dib ≠ dibFree then min dib dibRawOverflow else dibRawFree))
  else .error .outOfBounds

def skipFreeBuckets.loop : Nat → Nat → Nat
  | 0, _ => idxNil
  | left + 1, idx => if h.dibs idx ≠ dibRawFree then idx else loop left (idx + 1)

def skipFreeBuckets (idx : Nat) : Nat := skipFreeBuckets.loop h (h.nBuckets - idx) idx

def bucketMarkFree (idx : Nat) : Except Fault HashmapBase := do
  let h ← h.modifyBucket idx fun _ => .zero
  h.bucketSetDib idx dibFree

def modifyNeighbour (idx : Nat) (f : HashEntry → HashEntry) : Except Fault HashmapBase :=
  if idx ≠ idxNil then h.modifyVirtual idx f else .ok h

def renameEnds (src dst : Nat) : HashmapBase :=
  { h with
    iterateListHead := if h.iterateListHead = src then dst else h.iterateListHead
    iterateListTail := if h.iterateListTail = src then dst else h.iterateListTail }

def bucketMoveEntry (src dst : Nat) : Except Fault HashmapBase := do
  if src = dst then throw .assertion
  let e ← h.bucketAtVirtual src
  let h ← h.modifyVirtual dst fun _ => e
  if h.type = .ordered then
    let le ← h.bucketAtVirtual dst
    let h ← h.modifyNeighbour le.iterateNext (pointBack dst)
    let le ← h.bucketAtVirtual dst
    let h ← h.modifyNeighbour le.iteratePrevious (pointOn dst)
    return h.renameEnds src dst
  else return h

def entryValue (e : HashEntry) : Ptr :=
  match h.type with
  | .plain | .ordered => e.value
  | .set => e.key

/-- The search of `base_remove_entry` for the bucket to stop at: a free one or one with DIB 0. -/
def findRight (left : Nat) : Nat → Nat → Except Fault Nat
  | 0, _ => .error .endless
  | fuel + 1, right => do
    let rawDib ← h.dibAt right
    if rawDib = 0 ∨ rawDib = dibRawFree then return right
    else if left = right then throw .assertion
    else findRight left fuel (h.nextIdx right)

def unlinkNext (le : HashEntry) : Except Fault HashmapBase :=
  if le.iterateNext ≠ idxNil then h.modifyBucket le.iterateNext (pointBack le.iteratePrevious)
  else .ok { h with iterateListTail := le.iteratePrevious }

def unlinkPrevious (le : HashEntry) : Except Fault HashmapBase :=
  if le.iteratePrevious ≠ idxNil then h.modifyBucket le.iteratePrevious (pointOn le.iterateNext)
  else .ok { h with iterateListHead := le.iterateNext }

def unlinkEntry (idx : Nat) : Except Fault HashmapBase :=
  if h.type = .ordered then do
    let h ← h.unlinkNext (← h.bucketAt idx)
    h.unlinkPrevious (← h.bucketAt idx)
  else .ok h

def shiftBack (right : Nat) : Nat → HashmapBase → Nat → Nat → Except Fault (HashmapBase × Nat)
  | 0, _, _, _ => .error .endless
  | fuel + 1, h, prev, left =>
    if left = right then .ok (h, prev)
    else do
      let dib ← h.bucketCalculateDib left (← h.dibAt left)
      if dib = 0 then throw .assertion
      let h ← h.bucketMoveEntry left prev
      let h ← h.bucketSetDib prev (dib - 1)
      shiftBack right fuel h left (h.nextIdx left)

def baseRemoveEntry (idx : Nat) : Except Fault HashmapBase := do
  if (← h.dibAt idx) = dibRawFree then throw .assertion
  let right ← h.findRight idx h.nBuckets (h.nextIdx idx)
  let h ← h.unlinkEntry idx
  let (h, prev) ← shiftBack right h.nBuckets h idx (h.nextIdx idx)
  let h ← h.bucketMarkFree prev
  return { h with nEntries := h.nEntries - 1 }

end HashmapBase
end Basu
