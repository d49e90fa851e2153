import Basu.Socket.Size

/-! The lookup of the body part that holds a range of bytes, with the part it remembers from the
lookup before. -/

namespace Basu.Parts
open Lib

/-! ## `find_part` -/

/-- `struct bus_body_part`; `data` tells whether its bytes are in memory. -/
structure BusBodyPart where
  bytes : Bytes
  data : Bool
  memfd : Bool
  isZero : Bool

structure PartsMessage where
  parts : List BusBodyPart
  cachedRindexPart : Option Nat
  cachedRindexPartBegin : Nat

structure Lookup where
  index : Nat
  sz : Nat
  mmap : Except Errno Unit

def busBodyPartMap (mmap : Except Errno Unit) (part : BusBodyPart) : Except Errno BusBodyPart :=
  if part.data then .ok part
  else if part.bytes.length ≤ 0 then .ok part
  else if !part.memfd && part.isZero && part.bytes.length < 8 then .ok { part with data := true }
  else if part.memfd || part.isZero then mmap.map fun _ => { part with data := true }
  else .error .einval

structure Found where
  part : Nat
  start : Nat
  mapped : BusBodyPart

def scan (s : SizeT) (l : Lookup) : List BusBodyPart → Nat → Nat → Option Found
  | [], _, _ => none
  | part :: parts, i, start =>
    if l.index < start then none
    else if (l.index + l.sz) % s.modulus ≤ (start + part.bytes.length) % s.modulus then
      match busBodyPartMap l.mmap part with
      | .error _ => none
      | .ok part => some ⟨i, start, part⟩
    else scan s l parts (i + 1) ((start + part.bytes.length) % s.modulus)

def firstPart (m : PartsMessage) (l : Lookup) : Nat × Nat :=
  match m.cachedRindexPart with
  | none => (0, 0)
  | some i => if m.cachedRindexPartBegin ≤ l.index then (i, m.cachedRindexPartBegin) else (0, 0)

def findPart (s : SizeT) (m : PartsMessage) (l : Lookup) : Option Found × PartsMessage :=
  let first := firstPart m l
  match scan s l (m.parts.drop first.1) first.1 first.2 with
  | none => (none, m)
  | some found => (some found,
      { parts := m.parts.set found.part found.mapped
        cachedRindexPart := some found.part
        cachedRindexPartBegin := found.start })

def Found.pointer (f : Found) (l : Lookup) : Bytes := f.mapped.bytes.drop (l.index - f.start)

def run (s : SizeT) (m : PartsMessage) (ls : List Lookup) : PartsMessage :=
  ls.foldl (fun m l => (findPart s m l).2) m

def body (parts : List BusBodyPart) : Bytes := parts.flatMap BusBodyPart.bytes

structure Within (parts : List BusBodyPart) (l : Lookup) (f : Found) (pre : List BusBodyPart)
    (part : BusBodyPart) (post : List BusBodyPart) : Prop where
  split : parts = pre ++ part :: post
  number : f.part = pre.length
  start : f.start = (body pre).length
  first : f.start ≤ l.index
  last : l.index + l.sz ≤ f.start + part.bytes.length
  mapped : busBodyPartMap l.mmap part = .ok f.mapped

section
variable {s : SizeT} {l : Lookup}

theorem busBodyPartMap_ok {mmap : Except Errno Unit} {part part' : BusBodyPart}
    (h : busBodyPartMap mmap part = .ok part') :
    part'.bytes = part.bytes ∧ (0 < part.bytes.length → part'.data = true) := by
  unfold busBodyPartMap at h
  split_ifs at h with hdata hempty
  · cases h
    exact ⟨rfl, fun _ => hdata⟩
  · cases h
    exact ⟨rfl, fun hpos => absurd hpos (Nat.not_lt.mpr hempty)⟩
  · cases h
    exact ⟨rfl, fun _ => rfl⟩
  · cases mmap with
    | error r => cases h
    | ok u =>
      cases h
      exact ⟨rfl, fun _ => rfl⟩

theorem body_append (pre post : List BusBodyPart) : body (pre ++ post) = body pre ++ body post :=
  List.flatMap_append

theorem body_cons (part : BusBodyPart) (parts : List BusBodyPart) :
    body (part :: parts) = part.bytes ++ body parts := List.flatMap_cons

theorem scan_append (pre post : List BusBodyPart) (i start : Nat) (hpos : 0 < l.sz)
    (hl : l.index + l.sz < s.modulus) (hpre : start + (body pre).length ≤ l.index) :
    scan s l (pre ++ post) i start =
      scan s l post (i + pre.length) (start + (body pre).length) := by
  induction pre generalizing i start with
  | nil => rfl
  | cons part pre ih =>
    rw [body_cons, List.length_append] at hpre
    have hend : start + part.bytes.length < s.modulus := by omega
    rw [List.cons_append, scan, if_neg (by omega), Nat.mod_eq_of_lt hl, Nat.mod_eq_of_lt hend,
      if_neg (by omega), ih _ _ (by omega), body_cons, List.length_append, List.length_cons]
    congr 1 <;> omega

theorem scan_within {parts : List BusBodyPart} {f : Found} (hl : l.index + l.sz < s.modulus)
    (pre : List BusBodyPart) (hsize : (body (pre ++ parts)).length < s.modulus)
    (h : scan s l parts pre.length (body pre).length = some f) :
    ∃ pre' part post, Within (pre ++ parts) l f pre' part post := by
  induction parts generalizing pre with
  | nil => cases h
  | cons part parts ih =>
    have hsize' := hsize
    rw [body_append, body_cons, List.length_append, List.length_append] at hsize'
    rw [scan, Nat.mod_eq_of_lt hl, Nat.mod_eq_of_lt (by omega)] at h
    split_ifs at h with hbefore hfits
    · cases hmap : busBodyPartMap l.mmap part with
      | error r =>
        rw [hmap] at h
        cases h
      | ok part' =>
        rw [hmap] at h
        cases h
        exact ⟨pre, part, parts, rfl, rfl, rfl, Nat.not_lt.mp hbefore, hfits, hmap⟩
    · have hsplit : pre ++ part :: parts = (pre ++ [part]) ++ parts := by simp
      rw [hsplit] at hsize ⊢
      refine ih (pre ++ [part]) hsize ?_
      rw [body_append, List.length_append, List.length_append, body_cons]
      simpa [body] using h

end

structure Holds (contents : List Bytes) (m : PartsMessage) : Prop where
  same : m.parts.map BusBodyPart.bytes = contents
  placed : ∀ i, m.cachedRindexPart = some i →
    i ≤ m.parts.length ∧ m.cachedRindexPartBegin = (body (m.parts.take i)).length

section
variable {s : SizeT} {l : Lookup} {contents : List Bytes} {m : PartsMessage}

theorem Holds.body_eq (h : Holds contents m) : body m.parts = contents.flatten := by
  rw [← h.same, body, List.flatMap_def]

theorem Holds.firstPart (h : Holds contents m) (l : Lookup) :
    (firstPart m l).1 ≤ m.parts.length ∧
      (firstPart m l).2 = (body (m.parts.take (firstPart m l).1)).length ∧
      (firstPart m l).2 ≤ l.index := by
  unfold Parts.firstPart
  cases hcached : m.cachedRindexPart with
  | none => exact ⟨Nat.zero_le _, rfl, Nat.zero_le _⟩
  | some i =>
    obtain ⟨hi, hbegin⟩ := h.placed i hcached
    dsimp only
    split_ifs with hle
    · exact ⟨hi, hbegin, hle⟩
    · exact ⟨Nat.zero_le _, rfl, Nat.zero_le _⟩

theorem Holds.within (h : Holds contents m) (hsize : contents.flatten.length < s.modulus)
    (hl : l.index + l.sz < s.modulus) {f : Found} (hfound : (findPart s m l).1 = some f) :
    ∃ pre part post, Within m.parts l f pre part post := by
  obtain ⟨hle, hbegin, -⟩ := h.firstPart l
  unfold findPart at hfound
  dsimp only at hfound
  split at hfound
  · cases hfound
  · next found hscan =>
    obtain rfl := Option.some.inj hfound
    rw [hbegin] at hscan
    have hlen := List.length_take_of_le hle
    rw [← h.body_eq] at hsize
    rw [← List.take_append_drop (Parts.firstPart m l).1 m.parts] at hsize ⊢
    refine scan_within hl _ hsize ?_
    rw [hlen]
    exact hscan

theorem Holds.findPart (h : Holds contents m) (hsize : contents.flatten.length < s.modulus)
    (hl : l.index + l.sz < s.modulus) : Holds contents (findPart s m l).2 := by
  have hwithin {f : Found} := h.within (f := f) hsize hl
  unfold Parts.findPart at hwithin ⊢
  dsimp only at hwithin ⊢
  split at hwithin
  · exact h
  · next found hscan =>
    obtain ⟨pre, part, post, hw⟩ := hwithin rfl
    have hset : m.parts.set found.part found.mapped = pre ++ found.mapped :: post := by
      rw [hw.split, hw.number, List.set_append_right _ _ le_rfl, Nat.sub_self, List.set_cons_zero]
    constructor
    · rw [← h.same, hset, hw.split, List.map_append, List.map_append, List.map_cons, List.map_cons,
        (busBodyPartMap_ok hw.mapped).1]
    · intro i hi
      obtain rfl := Option.some.inj hi
      rw [hset, hw.number, List.take_left, hw.start, List.length_append]
      exact ⟨Nat.le_add_right _ _, rfl⟩

theorem Holds.run (h : Holds contents m) (hsize : contents.flatten.length < s.modulus)
    (ls : List Lookup) (hls : ∀ l ∈ ls, l.index + l.sz < s.modulus) :
    Holds contents (run s m ls) := by
  induction ls generalizing m with
  | nil => exact h
  | cons l ls ih =>
    obtain ⟨hl, hls⟩ := List.forall_mem_cons.mp hls
    exact ih (h.findPart hsize hl) hls

theorem Within.pointer {f : Found} {pre post : List BusBodyPart} {part : BusBodyPart}
    (h : Within m.parts l f pre part post) :
    (f.pointer l).take l.sz = slice (body m.parts) l.index l.sz := by
  have hindex : l.index = (body pre).length + (l.index - f.start) := by
    have hstart := h.start
    have hfirst := h.first
    omega
  have hlast := h.last
  have hfirst := h.first
  rw [h.split, body_append, body_cons, hindex, slice_append_right, slice,
    List.drop_append_of_le_length (by omega), List.take_append_of_le_length (by
      rw [List.length_drop]
      omega), Found.pointer, (busBodyPartMap_ok h.mapped).1]

end

end Basu.Parts
