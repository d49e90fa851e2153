import Basu.GVariant.Message

/-! The width of the framing offsets, as the writer of a container computes it from its payload and
as the reader computes it from the size of the whole. -/

namespace Basu.GVariant
open Lib

def wordWidths : List Nat := [1, 2, 4, 8]

def busGvariantDetermineWordSize (s : SizeT) (sz extra : Nat) : Nat :=
  if (sz + extra) % s.modulus ≤ 0xff then 1
  else if (sz + extra * 2) % s.modulus ≤ 0xffff then 2
  else if (sz + extra * 4) % s.modulus ≤ 0xffffffff then 4
  else 8

def busGvariantReadWordLe (p : Bytes) (sz : Nat) : Option Nat :=
  if sz ∈ wordWidths then some (getWord .little p) else none

def busGvariantWriteWordLe (sz value : Nat) : Option Bytes :=
  if sz = 8 ∨ value < 2 ^ (sz * 8) then
    if sz ∈ wordWidths then some (putWord .little sz value) else none
  else none

def writeTable (sz start : Nat) (offsets : List Nat) : Option Bytes :=
  (offsets.mapM fun offset => busGvariantWriteWordLe sz (offset - start)).map List.flatten

def arrayPayload (start : Nat) (offsets : List Nat) : Nat :=
  offsets.getLast?.elim 0 fun offset => offset - start

def closeArray (s : SizeT) (start : Nat) (offsets : List Nat) : Option Bytes :=
  let sz := busGvariantDetermineWordSize s (arrayPayload start offsets) offsets.length
  writeTable sz start offsets

def storedOffsets (members : List (Bool × Nat)) : List Nat :=
  (members.dropLast.filter fun member => !member.1).map Prod.snd

def closeStruct (s : SizeT) (start bodySize : Nat) (members : List (Bool × Nat)) : Option Bytes :=
  let offsets := storedOffsets members
  let sz := busGvariantDetermineWordSize s (bodySize - start) offsets.length
  writeTable sz start offsets.reverse

def Stores (sz start : Nat) (table : Option Bytes) (offsets : List Nat) : Prop :=
  ∃ bs, table = some bs ∧ bs.length = offsets.length * sz ∧
    ∀ i (h : i < offsets.length), tableWord sz bs i = offsets[i] - start

section
variable {s : SizeT} {payload n : Nat}

theorem busGvariantDetermineWordSize_cases {w : Nat}
    (hw : busGvariantDetermineWordSize s payload n = w) (hfits : payload + n * w < s.modulus) :
    w = 1 ∧ payload + n ≤ 0xff ∨
    w = 2 ∧ 0xff < payload + n ∧ payload + n * 2 ≤ 0xffff ∨
    w = 4 ∧ 0xffff < payload + n * 2 ∧ payload + n * 4 ≤ 0xffffffff ∨
    w = 8 ∧ 0xffffffff < payload + n * 4 := by
  unfold busGvariantDetermineWordSize at hw
  have hrange : s.modulus = 0x100000000 ∨ s.modulus = 0x10000000000000000 := by
    cases s
    · exact .inl rfl
    · exact .inr rfl
  generalize s.modulus = range at *
  obtain rfl | rfl := hrange <;> split_ifs at hw <;> subst hw <;> omega

theorem lt_pow_wordSize {w : Nat} (hw : busGvariantDetermineWordSize s payload n = w)
    (hfits : payload + n * w < s.modulus) : payload + n * w < 256 ^ w := by
  have hrange : s.modulus ≤ 2 ^ 64 := by
    cases s
    · exact Nat.pow_le_pow_right (by decide) (by decide)
    · exact le_rfl
  obtain ⟨rfl, h⟩ | ⟨rfl, -, h⟩ | ⟨rfl, -, h⟩ | ⟨rfl, -⟩ :=
    busGvariantDetermineWordSize_cases hw hfits <;> omega

theorem mem_wordWidths {w : Nat} (hw : busGvariantDetermineWordSize s payload n = w) :
    w ∈ wordWidths := by
  unfold busGvariantDetermineWordSize at hw
  split_ifs at hw <;> subst hw <;> decide

theorem determine_whole {w : Nat} (hw : busGvariantDetermineWordSize s payload n = w)
    (hfits : payload + n * w < s.modulus) :
    busGvariantDetermineWordSize s (payload + n * w) 0 = w ∧ wordSize (payload + n * w) = w := by
  have hagree : wordSize (payload + n * w) = w := by
    unfold wordSize
    obtain ⟨rfl, h⟩ | ⟨rfl, h, h'⟩ | ⟨rfl, h, h'⟩ | ⟨rfl, h⟩ :=
      busGvariantDetermineWordSize_cases hw hfits <;> split_ifs <;> omega
  rw [busGvariantDetermineWordSize, Nat.zero_mul, Nat.add_zero,
    Nat.mod_eq_of_lt hfits]
  exact ⟨hagree, hagree⟩

theorem smaller_overflows {w : Nat} (hw : busGvariantDetermineWordSize s payload n = w)
    (hfits : payload + n * w < s.modulus) :
    ∀ v ∈ wordWidths, v < w → 256 ^ v ≤ payload + n * v := by
  have hcases := busGvariantDetermineWordSize_cases hw hfits
  simp only [wordWidths, List.forall_mem_cons, List.not_mem_nil, false_implies, implies_true,
    and_true]
  refine ⟨?_, ?_, ?_, ?_⟩ <;> intro hlt <;> omega

end

theorem write_read_word {w x : Nat} (hw : w ∈ wordWidths) (h : x < 256 ^ w) :
    busGvariantWriteWordLe w x = some (putWord .little w x) ∧
      busGvariantReadWordLe (putWord .little w x) w = some x := by
  have hlt : x < 2 ^ (w * 8) := by
    rw [Nat.mul_comm, Nat.pow_mul]
    exact h
  rw [busGvariantWriteWordLe, if_pos (.inr hlt), if_pos hw, busGvariantReadWordLe, if_pos hw,
    getWord_putWord_of_lt _ h]
  exact ⟨rfl, rfl⟩

theorem writeTable_stores {w start : Nat} (hw : w ∈ wordWidths) (offsets : List Nat)
    (h : ∀ offset ∈ offsets, offset - start < 256 ^ w) :
    Stores w start (writeTable w start offsets) offsets := by
  induction offsets with
  | nil => exact ⟨[], rfl, (Nat.zero_mul w).symm, fun _ hi => absurd hi (Nat.not_lt_zero _)⟩
  | cons offset offsets ih =>
    obtain ⟨hoffset, h⟩ := List.forall_mem_cons.mp h
    obtain ⟨bs, htable, hlen, hword⟩ := ih h
    have hfirst := (write_read_word hw hoffset).1
    have hwidth := length_putWord .little w (offset - start)
    refine ⟨putWord .little w (offset - start) ++ bs, ?_, ?_, ?_⟩
    · obtain ⟨words, hwords, rfl⟩ := Option.map_eq_some_iff.mp htable
      rw [writeTable, List.mapM_cons, hfirst, hwords]
      rfl
    · rw [List.length_append, hwidth, hlen, List.length_cons, Nat.succ_mul, Nat.add_comm]
    · intro i hi
      rw [tableWord]
      cases i with
      | zero =>
        rw [Nat.zero_mul, slice_prefix hwidth, getWord_putWord_of_lt _ hoffset]
        rfl
      | succ i =>
        have hpos : (i + 1) * w = (putWord .little w (offset - start)).length + i * w := by
          rw [hwidth, Nat.succ_mul, Nat.add_comm]
        rw [hpos, slice_append_right]
        exact hword i (Nat.lt_of_succ_lt_succ hi)

theorem sub_le_arrayPayload {start : Nat} {offsets : List Nat} (h : offsets.Pairwise (· ≤ ·)) :
    ∀ offset ∈ offsets, offset - start ≤ arrayPayload start offsets := by
  intro offset hmem
  have hne := List.ne_nil_of_mem hmem
  rw [arrayPayload, List.getLast?_eq_getLast_of_ne_nil hne, Option.elim_some]
  refine Nat.sub_le_sub_right ?_ start
  rw [← List.dropLast_append_getLast hne] at h hmem
  obtain hmem | hmem := List.mem_append.mp hmem
  · exact (List.pairwise_append.mp h).2.2 offset hmem _ (List.mem_singleton_self _)
  · exact (List.mem_singleton.mp hmem).le

theorem framing_agrees (s : SizeT) (payload n w : Nat)
    (hw : busGvariantDetermineWordSize s payload n = w) (hfits : payload + n * w < s.modulus) :
    (busGvariantDetermineWordSize s (payload + n * w) 0 = w ∧ wordSize (payload + n * w) = w) ∧
    (w ∈ wordWidths ∧ payload + n * w < 256 ^ w ∧
      ∀ v ∈ wordWidths, v < w → 256 ^ v ≤ payload + n * v) ∧
    (∀ x ≤ payload + n * w, ∃ bs, busGvariantWriteWordLe w x = some bs ∧
      busGvariantReadWordLe bs w = some x) ∧
    (∀ start offsets, arrayPayload start offsets = payload → offsets.length = n →
      offsets.Pairwise (· ≤ ·) → Stores w start (closeArray s start offsets) offsets) ∧
    ∀ start members, (storedOffsets members).length = n →
      (∀ offset ∈ storedOffsets members, offset ≤ start + payload) →
      Stores w start (closeStruct s start (start + payload) members)
        (storedOffsets members).reverse := by
  have hmem := mem_wordWidths hw
  have hlt := lt_pow_wordSize hw hfits
  have hle := Nat.le_add_right payload (n * w)
  refine ⟨determine_whole hw hfits, ⟨hmem, hlt, smaller_overflows hw hfits⟩,
    fun x hx => ⟨_, write_read_word hmem (hx.trans_lt hlt)⟩, ?_, ?_⟩
  · rintro start offsets rfl rfl horder
    rw [closeArray, hw]
    exact writeTable_stores hmem offsets fun offset hin =>
      ((sub_le_arrayPayload horder offset hin).trans hle).trans_lt hlt
  · rintro start members rfl hin
    rw [closeStruct, Nat.add_sub_cancel_left, hw]
    refine writeTable_stores hmem _ fun offset hoffset => ?_
    have hoffset := hin offset (List.mem_reverse.mp hoffset)
    omega

theorem framing_agrees_two :
    busGvariantDetermineWordSize .w64 254 2 = 2 ∧ wordSize (254 + 2 * 2) = 2 :=
  ⟨rfl, (framing_agrees .w64 254 2 2 rfl (by decide)).1.2⟩

end Basu.GVariant
