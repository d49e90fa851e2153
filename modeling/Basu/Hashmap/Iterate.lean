import Basu.Hashmap.Put

/-! Iteration over the tables of hashmap.c. -/

namespace Basu

structure Iterator where
  idx : Nat
  nextKey : Ptr
  deriving DecidableEq, Repr

def iteratorFirst : Iterator := ⟨idxFirst, 0⟩

namespace HashmapBase

variable (h : HashmapBase)

/-- The bucket `hashmap_iterate_in_insertion_order` finds for the entry to come: it may have moved
one bucket back. -/
def insertionPosition (i : Iterator) : Except Fault Nat :=
  if i.idx = idxFirst then .ok h.iterateListHead
  else do
    let e ← h.bucketAt i.idx
    if e.key ≠ i.nextKey then
      let e ← h.bucketAt (h.prevIdx i.idx)
      if e.key ≠ i.nextKey then throw .assertion
      return h.prevIdx i.idx
    else return i.idx

def hashmapIterateInInsertionOrder (i : Iterator) : Except Fault (Iterator × Nat) :=
  if i.idx = idxNil ∨ (i.idx = idxFirst ∧ h.iterateListHead = idxNil) then
    .ok ({ i with idx := idxNil }, idxNil)
  else do
    let idx ← h.insertionPosition i
    let e ← h.bucketAt idx
    if e.iterateNext ≠ idxNil then
      let n ← h.bucketAt e.iterateNext
      return (⟨e.iterateNext, n.key⟩, idx)
    else return ({ i with idx := idxNil }, idx)

def internalPosition (i : Iterator) : Except Fault Nat :=
  if i.idx = 0 then .error .assertion
  else do
    let e ← h.bucketAt i.idx
    if e.key ≠ i.nextKey then
      let e ← h.bucketAt (i.idx - 1)
      if e.key ≠ i.nextKey then throw .assertion
      return i.idx - 1
    else return i.idx

/-- The end of `hashmap_iterate_in_internal_order`: the iterator is set to the entry after `idx`. -/
def internalAdvance (i : Iterator) (idx : Nat) : Except Fault (Iterator × Nat) :=
  let next := h.skipFreeBuckets (idx + 1)
  if next ≠ idxNil then do
    let e ← h.bucketAt next
    return (⟨next, e.key⟩, idx)
  else .ok ({ i with idx := idxNil }, idx)

def hashmapIterateInInternalOrder (i : Iterator) : Except Fault (HashmapBase × Iterator × Nat) :=
  if i.idx = idxNil then .ok (h, i, idxNil)
  else if i.idx = idxFirst then
    let first := h.skipFreeBuckets (if h.hasIndirect then h.idxLowestEntry else 0)
    let h := if h.hasIndirect then { h with idxLowestEntry := first } else h
    if first = idxNil then .ok (h, { i with idx := idxNil }, idxNil)
    else do return (h, ← h.internalAdvance i first)
  else do
    let idx ← h.internalPosition i
    return (h, ← h.internalAdvance i idx)

def hashmapIterateEntry (i : Iterator) : Except Fault (HashmapBase × Iterator × Nat) :=
  if h.type = .ordered then do return (h, ← h.hashmapIterateInInsertionOrder i)
  else h.hashmapIterateInInternalOrder i

def internalHashmapIterate (i : Iterator) :
    Except Fault (HashmapBase × Iterator × Option (Ptr × Ptr)) := do
  let (h, i, idx) ← h.hashmapIterateEntry i
  if idx = idxNil then return (h, i, none)
  let e ← h.bucketAt idx
  return (h, i, some (e.key, h.entryValue e))

/-- `HASHMAP_FOREACH_KEY`, with a body that removes the entries whose keys are in `remove`: the
entries visited, and the map it leaves. -/
def foreachRemove (remove : Ptr → Bool) :
    Nat → HashmapBase → Iterator → Except Fault (List (Ptr × Ptr) × HashmapBase)
  | 0, _, _ => .error .endless
  | fuel + 1, h, i => do
    let (h, i, e) ← h.internalHashmapIterate i
    match e with
    | none => return ([], h)
    | some e =>
      let h ← if remove e.1 then do
          let (_, h) ← h.internalHashmapRemove e.1
          pure h
        else pure h
      let (es, h) ← foreachRemove remove fuel h i
      return (e :: es, h)

end HashmapBase
end Basu
