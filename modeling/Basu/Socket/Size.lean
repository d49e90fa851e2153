import Basu.Message.Parse

/-! The sizes in a message header, in the width that `size_t` has. The reader of the socket adds in
64 bits, but aligns in `size_t`, so for 32 bits a fields size close to the maximum becomes 0. -/

namespace Basu
open Lib

inductive SizeT
  | w32
  | w64
  deriving DecidableEq, Repr

def SizeT.modulus : SizeT → Nat
  | .w32 => 2 ^ 32
  | .w64 => 2 ^ 64

def SizeT.wrap (w : SizeT) (n : Nat) : Nat := n % w.modulus

def SizeT.align8 (w : SizeT) (l : Nat) : Nat := w.wrap (l + 7) / 8 * 8

def busMessageSizeMax : Nat := 128 * 1024 * 1024

/-! ## `bus_socket_read_message_need` -/

def busSocketReadMessageNeed (w : SizeT) (rbuffer : Bytes) : Except Errno Nat :=
  if rbuffer.length < busHeaderSize then .ok (busHeaderSize + 8)
  else match endianOfCode (charAt rbuffer 0) with
    | none => .error .ebadmsg
    | some e =>
      let a := getWord e (slice rbuffer 4 4)
      let b := getWord e (slice rbuffer 12 4)
      let sum := busHeaderSize + w.align8 b + a
      if busMessageSizeMax ≤ sum then .error .enobufs else .ok sum

/-! ## `bus_message_from_header` -/

def wordSize (size : Nat) : Nat :=
  if size ≤ 0xff then 1
  else if size ≤ 0xffff then 2
  else if size ≤ 0xffffffff then 4
  else 8

def footerWord (buffer : Bytes) : Nat :=
  getWord .little (slice buffer (buffer.length - wordSize buffer.length) (wordSize buffer.length))

def fieldsWord (buffer : Bytes) : Nat :=
  if charAt buffer 3 = 2 then footerWord buffer
  else match endianOfCode (charAt buffer 0) with
    | none => 0
    | some e => getWord e (slice buffer 12 4)

structure Sizes where
  fieldsSize : Nat
  bodySize : Nat
  deriving DecidableEq, Repr

def busMessageFromHeader (w : SizeT) (buffer : Bytes) : Except Errno Sizes :=
  let size := buffer.length
  if size < busHeaderSize then .error .ebadmsg
  else if charAt buffer 3 ≠ 1 ∧ charAt buffer 3 ≠ 2 then .error .ebadmsg
  else if charAt buffer 1 = 0 then .error .ebadmsg
  else match endianOfCode (charAt buffer 0) with
    | none => .error .ebadmsg
    | some e =>
      if charAt buffer 3 = 2 then
        if getWord .little (slice buffer 8 8) = 0 then .error .ebadmsg
        else if size < wordSize size then .error .ebadmsg
        else if size - wordSize size < w.align8 (footerWord buffer) then .error .ebadmsg
        else if footerWord buffer < busHeaderSize then .error .ebadmsg
        else
          let fieldsSize := footerWord buffer - busHeaderSize
          .ok ⟨fieldsSize,
            w.wrap (size + w.modulus - w.wrap (busHeaderSize + w.align8 fieldsSize))⟩
      else if getWord e (slice buffer 8 4) = 0 then .error .ebadmsg
      else
        let fieldsSize := getWord e (slice buffer 12 4)
        let bodySize := getWord e (slice buffer 4 4)
        if w.wrap (busHeaderSize + w.align8 fieldsSize + bodySize) ≠ size then .error .ebadmsg
        else .ok ⟨fieldsSize, bodySize⟩

structure Sizes.Exact (z : Sizes) (length : Nat) : Prop where
  sum : busHeaderSize + alignUp z.fieldsSize 8 + z.bodySize = length
  fields : z.fieldsSize ≤ length
  body : z.bodySize ≤ length

def alignable (w : SizeT) (n : Nat) : Bool := n + 7 < w.modulus

theorem SizeT.align8_of_alignable {w : SizeT} {n : Nat} (h : alignable w n = true) :
    w.align8 n = alignUp n 8 := by
  simp only [alignable, decide_eq_true_eq] at h
  simp only [SizeT.align8, SizeT.wrap, Nat.mod_eq_of_lt h, alignUp]
  omega

theorem alignable_w64 {n : Nat} (h : n < 2 ^ 32) : alignable .w64 n = true := by
  apply decide_eq_true
  simp only [SizeT.modulus]
  omega

theorem not_alignable {w : SizeT} {n : Nat} (h : alignable w n = false) : w.modulus ≤ n + 7 := by
  simpa only [alignable, decide_eq_false_iff_not, Nat.not_lt] using h

theorem SizeT.align8_of_not_alignable {w : SizeT} {n : Nat} (hn : n < 2 ^ 32)
    (h : alignable w n = false) : w = .w32 ∧ w.align8 n = 0 := by
  have h := not_alignable h
  cases w with
  | w64 =>
    simp only [SizeT.modulus] at h
    omega
  | w32 =>
    refine ⟨rfl, ?_⟩
    simp only [SizeT.modulus] at h
    simp only [SizeT.align8, SizeT.wrap, SizeT.modulus]
    omega

theorem getWord_slice_lt (e : Endian) (bs : Bytes) (i n : Nat) :
    getWord e (slice bs i n) < 256 ^ n := by
  refine (getWord_lt e _).trans_le (Nat.pow_le_pow_right (by decide) ?_)
  exact List.length_take_le _ _

theorem footerWord_lt {buffer : Bytes} (h : buffer.length < busMessageSizeMax) :
    footerWord buffer < 2 ^ 32 := by
  have hw : wordSize buffer.length ≤ 4 := by
    unfold wordSize
    simp only [busMessageSizeMax] at h
    split <;> (try split) <;> (try split) <;> omega
  calc footerWord buffer < 256 ^ wordSize buffer.length := getWord_slice_lt _ _ _ _
    _ ≤ 256 ^ 4 := Nat.pow_le_pow_right (by decide) hw
    _ = 2 ^ 32 := by decide

theorem readMessageNeed_ok {w : SizeT} {buffer : Bytes} {need : Nat}
    (hlen : ¬ buffer.length < busHeaderSize)
    (h : busSocketReadMessageNeed w buffer = .ok need) :
    ∃ e, endianOfCode (charAt buffer 0) = some e ∧ need < busMessageSizeMax ∧
      need = busHeaderSize + w.align8 (getWord e (slice buffer 12 4)) +
        getWord e (slice buffer 4 4) := by
  unfold busSocketReadMessageNeed at h
  rw [if_neg hlen] at h
  split at h
  · exact absurd h (by simp)
  · rename_i e he
    simp only at h
    split at h
    · exact absurd h (by simp)
    · rename_i hmax
      simp only [Except.ok.injEq] at h
      exact ⟨e, he, by omega, h.symm⟩

theorem sizes_exact_iff_v1 {w : SizeT} {f a size : Nat} (hf : f < 2 ^ 32)
    (hneed : size = busHeaderSize + w.align8 f + a) :
    Sizes.Exact ⟨f, a⟩ size ↔ alignable w f = true := by
  constructor
  · intro h
    cases ha : alignable w f with
    | true => rfl
    | false =>
      obtain ⟨rfl, h0⟩ := SizeT.align8_of_not_alignable hf ha
      have hsum : busHeaderSize + alignUp f 8 + a = size := h.sum
      have hle := le_alignUp f (a := 8) (by decide)
      have ha := not_alignable ha
      simp only [SizeT.modulus] at ha
      omega
  · intro ha
    rw [SizeT.align8_of_alignable ha] at hneed
    have hle := le_alignUp f (a := 8) (by decide)
    exact ⟨hneed.symm, by simp only; omega, by simp only; omega⟩

theorem sizes_exact_iff_v2 {w : SizeT} {f ws size : Nat} (hf : f < 2 ^ 32)
    (hsize : size < busMessageSizeMax) (h16 : busHeaderSize ≤ f)
    (hfit : w.align8 f ≤ size - ws) :
    Sizes.Exact ⟨f - busHeaderSize,
        w.wrap (size + w.modulus - w.wrap (busHeaderSize + w.align8 (f - busHeaderSize)))⟩ size ↔
      alignable w f = true := by
  simp only [busMessageSizeMax] at hsize
  constructor
  · intro h
    cases ha : alignable w f with
    | true => rfl
    | false =>
      have hfields : f - busHeaderSize ≤ size := h.fields
      obtain ⟨rfl, -⟩ := SizeT.align8_of_not_alignable hf ha
      have ha := not_alignable ha
      simp only [SizeT.modulus] at ha
      simp only [busHeaderSize] at hfields
      omega
  · intro ha
    have ha' : alignable w (f - busHeaderSize) = true := by
      simp only [alignable, decide_eq_true_eq] at ha ⊢
      omega
    have hup : busHeaderSize + alignUp (f - busHeaderSize) 8 = alignUp f 8 := by
      simp only [alignUp, busHeaderSize] at h16 ⊢
      omega
    rw [SizeT.align8_of_alignable ha] at hfit
    rw [SizeT.align8_of_alignable ha', hup]
    have hmod : size < w.modulus := by
      cases w <;> simp only [SizeT.modulus] <;> omega
    have hle := le_alignUp f (a := 8) (by decide)
    have hbody : w.wrap (size + w.modulus - w.wrap (alignUp f 8)) = size - alignUp f 8 := by
      have hlt : alignUp f 8 < w.modulus := by omega
      simp only [SizeT.wrap, Nat.mod_eq_of_lt hlt]
      rw [show size + w.modulus - alignUp f 8 = (size - alignUp f 8) + w.modulus by omega,
        Nat.add_mod_right, Nat.mod_eq_of_lt (by omega)]
    rw [hbody]
    refine ⟨?_, by simp only; omega, by simp only; omega⟩
    simp only [hup]
    omega

theorem busMessageFromHeader_ok {w : SizeT} {buffer : Bytes} {z : Sizes}
    (h : busMessageFromHeader w buffer = .ok z) :
    ¬buffer.length < busHeaderSize ∧ ∃ e, endianOfCode (charAt buffer 0) = some e ∧
      (charAt buffer 3 = 2 ∧
          ¬buffer.length - wordSize buffer.length < w.align8 (footerWord buffer) ∧
          ¬footerWord buffer < busHeaderSize ∧
          z = ⟨footerWord buffer - busHeaderSize, w.wrap (buffer.length + w.modulus -
            w.wrap (busHeaderSize + w.align8 (footerWord buffer - busHeaderSize)))⟩ ∨
        charAt buffer 3 ≠ 2 ∧
          w.wrap (busHeaderSize + w.align8 (getWord e (slice buffer 12 4)) +
            getWord e (slice buffer 4 4)) = buffer.length ∧
          z = ⟨getWord e (slice buffer 12 4), getWord e (slice buffer 4 4)⟩) := by
  rw [busMessageFromHeader] at h
  obtain ⟨hlen, h⟩ := ok_of_guard h
  obtain ⟨-, h⟩ := ok_of_guard h
  obtain ⟨-, h⟩ := ok_of_guard h
  refine ⟨hlen, ?_⟩
  cases he : endianOfCode (charAt buffer 0) with
  | none =>
    rw [he] at h
    exact absurd h nofun
  | some e =>
    refine ⟨e, rfl, ?_⟩
    rw [he] at h
    dsimp only at h
    by_cases hv : charAt buffer 3 = 2
    · rw [if_pos hv] at h
      obtain ⟨-, h⟩ := ok_of_guard h
      obtain ⟨-, h⟩ := ok_of_guard h
      obtain ⟨hfit, h⟩ := ok_of_guard h
      obtain ⟨h16, h⟩ := ok_of_guard h
      exact .inl ⟨hv, hfit, h16, (Except.ok.inj h).symm⟩
    · rw [if_neg hv] at h
      obtain ⟨-, h⟩ := ok_of_guard h
      obtain ⟨hsum, h⟩ := ok_of_guard h
      exact .inr ⟨hv, not_not.mp hsum, (Except.ok.inj h).symm⟩

/-- Accepted sizes are exact if and only if the fields size could be aligned. -/
theorem fromHeader_exact_iff (w : SizeT) (buffer : Bytes) (z : Sizes)
    (hneed : busSocketReadMessageNeed w buffer = .ok buffer.length)
    (h : busMessageFromHeader w buffer = .ok z) :
    z.Exact buffer.length ↔ alignable w (fieldsWord buffer) = true := by
  obtain ⟨hlen, e, he, hsizes⟩ := busMessageFromHeader_ok h
  obtain ⟨e', he', hmax, hsum⟩ := readMessageNeed_ok hlen hneed
  obtain rfl := Option.some.inj (he.symm.trans he')
  obtain ⟨hv, hfit, h16, rfl⟩ | ⟨hv, -, rfl⟩ := hsizes
  · simp only [fieldsWord, if_pos hv]
    exact sizes_exact_iff_v2 (footerWord_lt hmax) hmax (by omega) (Nat.not_lt.mp hfit)
  · simp only [fieldsWord, if_neg hv, he]
    exact sizes_exact_iff_v1 (getWord_slice_lt _ _ _ 4) hsum

def hugeFields : Bytes :=
  [108, 4, 0, 1, 8, 0, 0, 0, 1, 0, 0, 0, 255, 255, 255, 255, 0, 0, 0, 0, 0, 0, 0, 0]

def smallFields : Bytes :=
  [108, 4, 0, 1, 0, 0, 0, 0, 1, 0, 0, 0, 8, 0, 0, 0, 0, 0, 0, 0, 0, 0, 0, 0]

theorem fromHeader_exact_smallFields :
    busMessageFromHeader .w32 smallFields = .ok ⟨8, 0⟩ ∧
      (Sizes.Exact ⟨8, 0⟩ smallFields.length ↔
        alignable .w32 (fieldsWord smallFields) = true) :=
  ⟨by decide, fromHeader_exact_iff .w32 smallFields ⟨8, 0⟩ (by decide) (by decide)⟩

theorem not_exact_hugeFields :
    busSocketReadMessageNeed .w32 hugeFields = .ok hugeFields.length ∧
      busMessageFromHeader .w32 hugeFields = .ok ⟨0xffffffff, 8⟩ ∧
      ¬ Sizes.Exact ⟨0xffffffff, 8⟩ hugeFields.length :=
  ⟨by decide, by decide, fun h => absurd h.fields (by decide)⟩

end Basu
