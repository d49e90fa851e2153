import Basu.Hashmap.Base
import Mathlib.Data.Nat.Log

/-! The operations of hashmap.c on keys: lookup, insertion with its resizing, removal. -/

namespace Basu

open Lib

def invKeepFree : Nat := 5

structure Resizing where
  granted : Bool
  hashKey : HashKey

def log2uRoundUp (x : Nat) : Nat := if x = 1 then 0 else Nat.log2 (x - 1) + 1

namespace HashmapBase

variable (h : HashmapBase)

def noteLowest (idx : Nat) : HashmapBase :=
  { h with
    idxLowestEntry :=
      if h.hasIndirect ∧ h.idxLowestEntry > idx then idx else h.idxLowestEntry }

def putRobinHood.loop : Nat → HashmapBase → Nat → Nat → Except Fault (Bool × HashmapBase)
  | 0, _, _, _ => .error .endless
  | fuel + 1, h, idx, distance => do
    let rawDib ← h.dibAt idx
    if rawDib = dibRawFree ∨ rawDib = dibRawRehash then
      let h ← if rawDib = dibRawRehash then h.bucketMoveEntry idx idxTmp else pure h
      let h ← (h.noteLowest idx).bucketSetDib idx distance
      let h ← h.bucketMoveEntry idxPut idx
      if rawDib = dibRawRehash then
        return (true, ← h.bucketMoveEntry idxTmp idxPut)
      else return (false, h)
    else
      let dib ← h.bucketCalculateDib idx rawDib
      if dib < distance then
        let h ← h.bucketSetDib idx distance
        let h ← h.bucketMoveEntry idx idxTmp
        let h ← h.bucketMoveEntry idxPut idx
        let h ← h.bucketMoveEntry idxTmp idxPut
        loop fuel h (h.nextIdx idx) (dib + 1)
      else loop fuel h (h.nextIdx idx) (distance + 1)

def putRobinHood (idx : Nat) : Except Fault (Bool × HashmapBase) :=
  putRobinHood.loop h.nBuckets h idx 0

/-- The inner loop of `resize_buckets`: entries are put until none is displaced. The result counts
them on from `nRehashed`. -/
def rehashChain : Nat → HashmapBase → Nat → Nat → Except Fault (HashmapBase × Nat)
  | 0, _, _, _ => .error .endless
  | fuel + 1, h, optimalIdx, nRehashed => do
    let (rehashNext, h) ← h.putRobinHood optimalIdx
    if rehashNext then
      rehashChain fuel h (h.bucketHash (h.bucket idxPut).key) (nRehashed + 1)
    else return (h, nRehashed + 1)

def rehashEntries : Nat → HashmapBase → Nat → Nat → Except Fault (HashmapBase × Nat)
  | 0, h, _, nRehashed => .ok (h, nRehashed)
  | left + 1, h, idx, nRehashed => do
    if (← h.dibAt idx) ≠ dibRawRehash then rehashEntries left h (idx + 1) nRehashed
    else
      let e ← h.bucketAt idx
      let optimalIdx := h.bucketHash e.key
      if optimalIdx = idx then
        rehashEntries left (h.setDib idx 0) (idx + 1) (nRehashed + 1)
      else
        let h ← (h.setDib idx dibRawFree).bucketMoveEntry idx idxPut
        let h ← h.modifyBucket idx fun _ => .zero
        let (h, nRehashed) ← rehashChain (h.nEntries + 1) h optimalIdx nRehashed
        rehashEntries left h (idx + 1) nRehashed

def grown (newShift : Nat) (newKey : HashKey) : HashmapBase :=
  { h with
    hasIndirect := true
    indirectHashKey := newKey
    indirectNBuckets := 2 ^ newShift / (h.type.entrySize + 1)
    idxLowestEntry := if h.hasIndirect then h.idxLowestEntry else 0
    bucket := fun idx => if idx < h.nBuckets then h.bucket idx else .zero
    dibs := fun idx =>
      if idx < h.nBuckets ∧ h.dibs idx ≠ dibRawFree then dibRawRehash else dibRawFree }

def resizeBuckets (entriesAdd : Nat) (a : Resizing) :
    Except Fault (Except Errno Nat × HashmapBase) := do
  let newNEntries := (h.nEntries + entriesAdd) % 2 ^ 32
  if newNEntries < entriesAdd then return (.error .enomem, h)
  if h.hasIndirect = false ∧ newNEntries ≤ h.type.nDirectBuckets then return (.ok 0, h)
  let newNBuckets := (newNEntries + newNEntries / (invKeepFree - 1)) % 2 ^ 32
  if newNBuckets < newNEntries then return (.error .enomem, h)
  if newNBuckets > uint32Max / (h.type.entrySize + 1) then return (.error .enomem, h)
  let oldNBuckets := h.nBuckets
  if newNBuckets ≤ oldNBuckets then return (.ok 0, h)
  let newShift :=
    log2uRoundUp (max (newNBuckets * (h.type.entrySize + 1)) (2 * sizeofDirectStorage))
  if 32 ≤ newShift then throw .undefined
  if a.granted = false then return (.error .enomem, h)
  if ∃ idx < oldNBuckets, h.dibs idx = dibRawRehash then throw .assertion
  let (h, nRehashed) ← rehashEntries oldNBuckets (h.grown newShift a.hashKey) 0 0
  if nRehashed ≠ h.nEntries then throw .assertion
  return (.ok 1, h)

def bucketScan.loop (key : Ptr) : Nat → Nat → Nat → Except Fault Nat
  | 0, _, _ => .error .endless
  | fuel + 1, idx, distance => do
    let rawDib ← h.dibAt idx
    if rawDib = dibRawFree then return idxNil
    let dib ← h.bucketCalculateDib idx rawDib
    if dib < distance then return idxNil
    else if dib = distance then
      let e ← h.bucketAt idx
      if h.hashOps.compare e.key key = 0 then return idx
      else loop key fuel (h.nextIdx idx) (distance + 1)
    else loop key fuel (h.nextIdx idx) (distance + 1)

def bucketScan (idx : Nat) (key : Ptr) : Except Fault Nat :=
  if idx < h.nBuckets then bucketScan.loop h key (h.nBuckets + 1) idx 0 else .error .assertion

def internalHashmapGet (key : Ptr) : Except Fault Ptr := do
  let idx ← h.bucketScan (h.bucketHash key) key
  if idx = idxNil then return 0
  return h.entryValue (← h.bucketAt idx)

def internalHashmapContains (key : Ptr) : Except Fault Bool := do
  let idx ← h.bucketScan (h.bucketHash key) key
  return idx ≠ idxNil

def linkEntry (e : HashEntry) : Except Fault HashmapBase := do
  let new := { e with iterateNext := idxNil, iteratePrevious := h.iterateListTail }
  let h := h.setBucket idxPut new
  let h ← if h.iterateListTail ≠ idxNil then do
      let oldTail ← h.bucketAt h.iterateListTail
      if oldTail.iterateNext ≠ idxNil then throw .assertion
      h.modifyBucket h.iterateListTail (pointOn idxPut)
    else pure h
  return { h with
    iterateListTail := idxPut
    iterateListHead := if h.iterateListHead = idxNil then idxPut else h.iterateListHead }

def handEntry (e : HashEntry) : Except Fault HashmapBase :=
  if h.type = .ordered then h.linkEntry e else .ok (h.setBucket idxPut e)

def placeEntry (idx : Nat) (e : HashEntry) : Except Fault (Except Errno Nat × HashmapBase) := do
  if ¬ h.nEntries < h.nBuckets then throw .assertion
  let h ← h.handEntry e
  let (rehashNext, h) ← h.putRobinHood idx
  if rehashNext then throw .assertion
  return (.ok 1, { h with nEntries := h.nEntries + 1 })

/-- `hashmap_base_put_boldly`. The entry the caller has in its swap storage is the argument `e`, as
`resize_buckets` has swap storage of its own. -/
def putBoldly (idx : Nat) (e : HashEntry) (a : Resizing) :
    Except Fault (Except Errno Nat × HashmapBase) :=
  if ¬ idx < h.nBuckets then .error .assertion
  else do
    let (r, h) ← h.resizeBuckets 1 a
    match r with
    | .error err => return (.error err, h)
    | .ok r => h.placeEntry (if r > 0 then h.bucketHash e.key else idx) e

def hashmapPut (key value : Ptr) (a : Resizing) :
    Except Fault (Except Errno Nat × HashmapBase) := do
  let hash := h.bucketHash key
  let idx ← h.bucketScan hash key
  if idx ≠ idxNil then
    let e ← h.bucketAt idx
    return (if e.value = value then .ok 0 else .error .eexist, h)
  h.putBoldly hash { HashEntry.zero with key := key, value := value } a

def setPut (key : Ptr) (a : Resizing) : Except Fault (Except Errno Nat × HashmapBase) := do
  let hash := h.bucketHash key
  let idx ← h.bucketScan hash key
  if idx ≠ idxNil then return (.ok 0, h)
  h.putBoldly hash { HashEntry.zero with key := key } a

def internalHashmapRemove (key : Ptr) : Except Fault (Ptr × HashmapBase) := do
  let idx ← h.bucketScan (h.bucketHash key) key
  if idx = idxNil then return (0, h)
  let data := h.entryValue (← h.bucketAt idx)
  return (data, ← h.baseRemoveEntry idx)

def internalHashmapClear : HashmapBase :=
  { h with
    hasIndirect := false
    nEntries := 0
    bucket := fun _ => .zero
    dibs := fun _ => dibRawFree
    iterateListHead := if h.type = .ordered then idxNil else h.iterateListHead
    iterateListTail := if h.type = .ordered then idxNil else h.iterateListTail }

end HashmapBase
end Basu
