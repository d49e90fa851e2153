import Basu.GVariant.Message

/-! The read side of a sealed message of either version (`bus-message.c`), with the state that a
call leaves behind whether it succeeds or not. The body may have several parts. Allocations and
mappings of memory succeed. -/

namespace Basu.Reading
open Lib

/-- `struct bus_container`. The size of an array of version 1 is in the body, which cannot change
any more: the container holds the size in place of a pointer to it. -/
structure BusContainer extends GVariant.Container where
  arraySize : Nat := 0
  deriving DecidableEq, Repr

/-- What stays as it is while a sealed message is read. -/
structure Content where
  gvariant : Bool
  endian : Endian
  nativeEndian : Endian
  body : Bytes
  /-- The parts behind the first one. -/
  next : List Bytes := []
  userBodySize : Nat
  fds : List Nat := []
  deriving DecidableEq, Repr

structure SdBusMessage extends Content where
  /-- `message_get_last_container`. -/
  last : BusContainer
  /-- The containers around the last one, from the inside out. The root is the outermost. -/
  outer : List BusContainer := []
  rindex : Nat := 0
  deriving DecidableEq, Repr

/-- Why a call does not return what it is for. -/
inductive Stop
  | errno (r : Errno)
  /-- A string that is not there is copied, or an assertion fails. -/
  | crash
  /-- The bound on nested calls is reached. -/
  | running
  deriving DecidableEq, Repr

def BusContainer.rest (c : BusContainer) : Str := c.toContainer.rest

def BusContainer.cur (c : BusContainer) : UInt8 := charAt c.rest 0

def BusContainer.advance (c : BusContainer) (n : Nat) : BusContainer :=
  { c with toContainer := c.toContainer.advance n }

def messageEndOfSignature (m : SdBusMessage) : Bool := m.last.cur = 0

def messageEndOfArray (m : SdBusMessage) (index : Nat) : Bool :=
  m.last.enclosing = sdBusTypeArray &&
    (if m.gvariant then m.last.stop else m.last.begin + m.last.arraySize) ≤ index

/-- `find_part`, and the bytes at the pointer it returns. The search starts at the first part. -/
def findPart : List Bytes → Nat → Nat → Nat → Option Bytes
  | [], _, _, _ => none
  | part :: parts, begin, index, sz =>
    if index < begin then none
    else if index + sz ≤ begin + part.length then some (slice part (index - begin) sz)
    else findPart parts (begin + part.length) index sz

def messagePeekBody (d : Content) (rindex align nbytes : Nat) : Except Errno (Bytes × Nat) :=
  let start := alignUp rindex align
  let padding := start - rindex
  let stop := start + nbytes
  if d.userBodySize < stop then .error .ebadmsg
  else match findPart (d.body :: d.next) 0 rindex padding with
    | none => .error .ebadmsg
    | some q =>
      if q.any (· ≠ 0) then .error .ebadmsg
      else match findPart (d.body :: d.next) 0 start nbytes with
        | none => .error .ebadmsg
        | some q => .ok (q, stop)

theorem messagePeekBody_stop {d : Content} {ri align n stop : Nat} {q : Bytes}
    (h : messagePeekBody d ri align n = .ok (q, stop)) :
    stop = alignUp ri align + n ∧ stop ≤ d.userBodySize := by
  unfold messagePeekBody at h
  dsimp only at h
  split_ifs at h with hsize
  split at h
  · cases h
  split_ifs at h
  split at h
  · cases h
  cases h
  exact ⟨rfl, by omega⟩

def validateText (validate : Str → Bool) (q : Bytes) (l : Nat) : Bool :=
  validateNul q l && validate (q.take l)

/-- The text of `l` characters at an index, with the NUL behind it. -/
def peekText (d : Content) (validate : Str → Bool) (ri l : Nat) : Except Errno (Str × Nat) :=
  match messagePeekBody d ri 1 (l + 1) with
  | .error r => .error r
  | .ok (q, ri) => if validateText validate q l then .ok (q.take l, ri) else .error .ebadmsg

def peekWord (d : Content) (ri size : Nat) : Except Errno (Nat × Nat) :=
  match messagePeekBody d ri size size with
  | .error r => .error r
  | .ok (q, ri) => .ok (getWord d.endian q, ri)

def peekString (d : Content) (validate : Str → Bool) (ri : Nat) : Except Errno (Str × Nat) :=
  match peekWord d ri 4 with
  | .error r => .error r
  | .ok (l, ri) => if l = uint32Max then .error .ebadmsg else peekText d validate ri l

def peekSignature (d : Content) (ri : Nat) : Except Errno (Str × Nat) :=
  match messagePeekBody d ri 1 1 with
  | .error r => .error r
  | .ok (q, ri) =>
    let l := (charAt q 0).toNat
    if l = 255 then .error .ebadmsg else peekText d validSignature ri l

def resolveFd (d : Content) (j : Nat) : Except Errno BasicVal :=
  match d.fds[j]? with
  | none => .error .ebadmsg
  | some fd => .ok (.unixFd fd)

def readDbus1 (d : Content) (ri : Nat) : Basic → Except Errno (BasicVal × Nat)
  | .string => (peekString d utf8IsValid ri).map fun (s, ri) => (.string s, ri)
  | .objectPath => (peekString d objectPathIsValid ri).map fun (s, ri) => (.objectPath s, ri)
  | .signature => (peekSignature d ri).map fun (s, ri) => (.signature s, ri)
  | .boolean => (peekWord d ri 4).map fun (w, ri) => (.boolean (w ≠ 0), ri)
  | .num t => (peekWord d ri t.size).map fun (w, ri) => (.num t (BitVec.ofNat _ w), ri)
  | .unixFd =>
    match peekWord d ri 4 with
    | .error r => .error r
    | .ok (j, ri) => (resolveFd d j).map fun v => (v, ri)

def readText (d : Content) (ri itemSize : Nat) (validate : Str → Bool) (value : Str → BasicVal) :
    Except Errno (BasicVal × Nat) :=
  if itemSize = 0 then .error .ebadmsg
  else (peekText d validate ri (itemSize - 1)).map fun (s, ri) => (value s, ri)

def readFixed (d : Content) (ri itemSize : Nat) (b : Basic)
    (value : Bytes → Except Errno BasicVal) : Except Errno (BasicVal × Nat) :=
  if GVariant.busGvariantGetSize [b.code] ≠ some itemSize then .error .ebadmsg
  else match messagePeekBody d ri ((GVariant.busGvariantGetAlignment [b.code]).getD 1) itemSize with
    | .error r => .error r
    | .ok (q, ri) => (value q).map fun v => (v, ri)

def readGvariant (d : Content) (ri itemSize : Nat) : Basic → Except Errno (BasicVal × Nat)
  | .string => readText d ri itemSize utf8IsValid .string
  | .objectPath => readText d ri itemSize objectPathIsValid .objectPath
  | .signature => readText d ri itemSize validSignature .signature
  | .boolean => readFixed d ri itemSize .boolean fun q => .ok (.boolean (charAt q 0 ≠ 0))
  | .num t => readFixed d ri itemSize (.num t) fun q =>
    .ok (.num t (BitVec.ofNat _ (getWord d.endian q)))
  | .unixFd => readFixed d ri itemSize .unixFd fun q => resolveFd d (getWord d.endian q)

def readBasicValue (m : SdBusMessage) (b : Basic) : Except Errno (BasicVal × Nat) :=
  if m.gvariant then readGvariant m.toContent m.rindex m.last.itemSize b
  else readDbus1 m.toContent m.rindex b

/-- `container_next_item`: the container at its next item, and where that starts. In version 1
items follow each other. -/
def containerNextItem (d : Content) (c : BusContainer) (ri : Nat) :
    Except Errno (BusContainer × Nat) :=
  if d.gvariant then
    (GVariant.containerNextItem c.toContainer).map fun (c', ri) => ({ c with toContainer := c' }, ri)
  else .ok (c, ri)

def sdBusMessageReadBasic (m : SdBusMessage) (type : UInt8) :
    Except Stop (Option BasicVal) × SdBusMessage :=
  match Basic.ofCode type with
  | none => (.error (.errno .einval), m)
  | some b =>
    if messageEndOfSignature m then (.error (.errno .enxio), m)
    else if messageEndOfArray m m.rindex then (.ok none, m)
    else if m.last.cur ≠ type then (.error (.errno .enxio), m)
    else match readBasicValue m b with
      | .error r => (.error (.errno r), m)
      | .ok (v, ri) =>
        match containerNextItem m.toContent m.last ri with
        | .error r => (.error (.errno r), m)
        | .ok (c, ri) => (.ok (some v), { m with last := c.advance 1, rindex := ri })

theorem messagePeekBody_forward {d : Content} {ri align n stop : Nat} {q : Bytes} (ha : 0 < align)
    (h : messagePeekBody d ri align n = .ok (q, stop)) :
    ri + n ≤ stop ∧ stop ≤ d.userBodySize := by
  obtain ⟨rfl, hle⟩ := messagePeekBody_stop h
  exact ⟨Nat.add_le_add_right (le_alignUp ri ha) n, hle⟩

theorem peekWord_forward {d : Content} {ri size w stop : Nat} (hs : 0 < size)
    (h : peekWord d ri size = .ok (w, stop)) : ri + size ≤ stop ∧ stop ≤ d.userBodySize := by
  unfold peekWord at h
  split at h
  · cases h
  rename_i hp
  cases h
  exact messagePeekBody_forward hs hp

theorem peekText_forward {d : Content} {validate : Str → Bool} {ri l stop : Nat} {s : Str}
    (h : peekText d validate ri l = .ok (s, stop)) :
    ri + s.length + 1 ≤ stop ∧ stop ≤ d.userBodySize := by
  unfold peekText at h
  split at h
  · cases h
  rename_i q ri' hp
  split_ifs at h
  cases h
  obtain ⟨hle, hstop⟩ := messagePeekBody_forward (by decide) hp
  have hlen := List.length_take_le l q
  omega

theorem peekString_forward {d : Content} {validate : Str → Bool} {ri stop : Nat} {s : Str}
    (h : peekString d validate ri = .ok (s, stop)) : ri < stop ∧ stop ≤ d.userBodySize := by
  unfold peekString at h
  split at h
  · cases h
  rename_i l ri' hp
  split_ifs at h
  obtain ⟨hle, -⟩ := peekWord_forward (by decide) hp
  obtain ⟨hle', hstop⟩ := peekText_forward h
  omega

theorem peekSignature_forward {d : Content} {ri stop : Nat} {s : Str}
    (h : peekSignature d ri = .ok (s, stop)) :
    ri + s.length + 2 ≤ stop ∧ stop ≤ d.userBodySize := by
  unfold peekSignature at h
  split at h
  · cases h
  rename_i q ri' hp
  dsimp only at h
  split_ifs at h
  obtain ⟨hle, -⟩ := messagePeekBody_forward (by decide) hp
  obtain ⟨hle', hstop⟩ := peekText_forward h
  omega

theorem readDbus1_forward {d : Content} {ri stop : Nat} {b : Basic} {v : BasicVal}
    (h : readDbus1 d ri b = .ok (v, stop)) : ri < stop ∧ stop ≤ d.userBodySize := by
  cases b with
  | num t =>
    obtain ⟨x, hx, hy⟩ := exists_of_map h
    cases hy
    have := peekWord_forward t.size_pos hx
    have := t.size_pos
    omega
  | boolean =>
    obtain ⟨x, hx, hy⟩ := exists_of_map h
    cases hy
    have := peekWord_forward (by decide) hx
    omega
  | string =>
    obtain ⟨x, hx, hy⟩ := exists_of_map h
    cases hy
    exact peekString_forward hx
  | objectPath =>
    obtain ⟨x, hx, hy⟩ := exists_of_map h
    cases hy
    exact peekString_forward hx
  | signature =>
    obtain ⟨x, hx, hy⟩ := exists_of_map h
    cases hy
    have := peekSignature_forward hx
    omega
  | unixFd =>
    simp only [readDbus1] at h
    split at h
    · cases h
    rename_i hp
    obtain ⟨x, -, hy⟩ := exists_of_map h
    cases hy
    have := peekWord_forward (by decide) hp
    omega

end Basu.Reading
