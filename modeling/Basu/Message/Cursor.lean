import Basu.Message.Reader

/-! What the read side answers when the next value of the current container has a known type:
the peeked type and contents, and what entering finds. -/

namespace Basu
open Lib

def Received.Next (m : Received) (u : Ty) : Prop :=
  messageEndOfArray m = false ∧ ∃ q, m.last.rest = u.sig ++ q

theorem Received.Next.cur {m : Received} {u : Ty} (h : m.Next u) : m.last.cur = u.head := by
  obtain ⟨-, q, hq⟩ := h
  rw [RContainer.cur, hq, Ty.charAt_sig_append]

theorem Received.Next.endOfSignature {m : Received} {u : Ty} (h : m.Next u) :
    messageEndOfSignature m = false := by
  rw [messageEndOfSignature, h.cur]
  simpa using u.head_ne_zero

def Received.moved (m : Received) (p n : Nat) : Received := Received.advance { m with rindex := p } n

theorem Received.moved_rindex (m : Received) (p n : Nat) : (m.moved p n).rindex = p := by
  unfold Received.moved Received.advance Received.setLast
  split_ifs
  · rfl
  · cases m.containers <;> rfl

theorem Received.moved_frame (m : Received) (p n : Nat) :
    (m.moved p n).endian = m.endian ∧ (m.moved p n).body = m.body ∧ (m.moved p n).fds = m.fds ∧
      (m.moved p n).containers.length = m.containers.length ∧
      (m.moved p n).header = m.header := by
  unfold Received.moved Received.advance Received.setLast
  split_ifs
  · exact ⟨rfl, rfl, rfl, rfl, rfl⟩
  · cases hc : m.containers <;> simp

theorem Received.moved_last (m : Received) (p n : Nat) :
    (m.moved p n).last = if m.last.enclosing = sdBusTypeArray then m.last
      else { m.last with index := m.last.index + n } := by
  obtain ⟨e, h, b, r, cs, ri, fs, em⟩ := m
  cases cs with
  | nil =>
    by_cases hr : r.enclosing = sdBusTypeArray <;>
      simp [Received.moved, Received.advance, Received.last, Received.setLast, hr]
  | cons c cs =>
    by_cases hc : c.enclosing = sdBusTypeArray <;>
      simp [Received.moved, Received.advance, Received.last, Received.setLast, hc]

theorem Received.moved_moved (m : Received) (p n p' n' : Nat) :
    (m.moved p n).moved p' n' = m.moved p' (n + n') := by
  obtain ⟨e, h, b, r, cs, ri, fs, em⟩ := m
  cases cs with
  | nil =>
    by_cases hr : r.enclosing = sdBusTypeArray <;>
      simp [Received.moved, Received.advance, Received.last, Received.setLast, hr, Nat.add_assoc]
  | cons c cs =>
    by_cases hc : c.enclosing = sdBusTypeArray <;>
      simp [Received.moved, Received.advance, Received.last, Received.setLast, hc, Nat.add_assoc]

theorem Received.moved_array {m : Received} (h : m.last.enclosing = sdBusTypeArray)
    (p n n' : Nat) : m.moved p n = m.moved p n' := by
  have h' : (Received.last { m with rindex := p }).enclosing = sdBusTypeArray := h
  rw [Received.moved, Received.moved, Received.advance, Received.advance, if_pos h', if_pos h']

theorem Kind.enclosing_eq_array (k : Kind) : k.enclosing = sdBusTypeArray ↔ k.isArray = true := by
  cases k <;> simp [Kind.enclosing, Kind.isArray, sdBusTypeArray, sdBusTypeVariant,
    sdBusTypeStruct, sdBusTypeDictEntry]

theorem RContainer.rest_skip {c : RContainer} {s q : Str} (h : c.rest = s ++ q) :
    RContainer.rest { c with index := c.index + s.length } = q := by
  unfold RContainer.rest at h ⊢
  rw [← List.drop_drop, h, List.drop_left]

theorem peekType_basic {m : Received} {b : Basic} (h : m.Next (.basic b)) :
    sdBusMessagePeekType m = .ok (some (b.code, none)) := by
  have hc : m.last.cur = b.code := h.cur
  simp only [sdBusMessagePeekType, h.endOfSignature, h.1, Bool.or_self, hc, busTypeIsBasic_code]
  rfl

theorem peekType_array {m : Received} {t : Ty} (h : m.Next (.array t)) (ht : t.Fits true 0 0) :
    sdBusMessagePeekType m = .ok (some (sdBusTypeArray, some t.sig)) := by
  have hc : m.last.cur = sdBusTypeArray := h.cur
  have hend := h.endOfSignature
  obtain ⟨harr, q, hq⟩ := h
  have hrest : m.last.rest.drop 1 = t.sig ++ q := by rw [hq, Ty.sig]; rfl
  simp only [sdBusMessagePeekType, hend, harr, Bool.or_self, hc, hrest,
    signatureElementLength_sig q ht, List.take_left]
  rfl

theorem peekType_members {m : Received} {u : Ty} {first last : UInt8} {s q : Str}
    (h : m.Next u) (hf : u.Fits true 0 0) (hs : u.sig = first :: (s ++ [last]))
    (hq : m.last.rest = u.sig ++ q)
    (hfirst : first = sdBusTypeStructBegin ∨ first = sdBusTypeDictEntryBegin) :
    sdBusMessagePeekType m = .ok (some
      (if first = sdBusTypeStructBegin then sdBusTypeStruct else sdBusTypeDictEntry, some s)) := by
  have hc : m.last.cur = first := by rw [RContainer.cur, hq, hs]; rfl
  have hb : busTypeIsBasic first = false ∧ first ≠ sdBusTypeArray := by
    rcases hfirst with rfl | rfl <;> decide
  have hlen : u.sig.length - 2 = s.length := by rw [hs]; simp
  have hrest : m.last.rest.drop 1 = s ++ ([last] ++ q) := by rw [hq, hs]; simp
  have hscan : signatureElementLength m.last.rest = some u.sig.length := by
    rw [hq]; exact signatureElementLength_sig q hf
  simp only [sdBusMessagePeekType, h.endOfSignature, h.1, Bool.or_self, hc, hb.1, hb.2, hfirst,
    hscan, hlen, hrest, List.take_left]
  rfl

theorem peekType_struct {m : Received} {ts : List Ty} (h : m.Next (.struct ts))
    (hf : (Ty.struct ts).Fits true 0 0) :
    sdBusMessagePeekType m = .ok (some (sdBusTypeStruct, some (Ty.sigs ts))) := by
  obtain ⟨q, hq⟩ := h.2
  have := peekType_members h hf (by rw [Ty.sig]) hq (.inl rfl)
  rwa [if_pos rfl] at this

theorem peekType_dictEntry {m : Received} {k : Basic} {v : Ty} (h : m.Next (.dictEntry k v))
    (hf : (Ty.dictEntry k v).Fits true 0 0) :
    sdBusMessagePeekType m = .ok (some (sdBusTypeDictEntry, some (k.code :: v.sig))) := by
  obtain ⟨q, hq⟩ := h.2
  have := peekType_members h hf (s := k.code :: v.sig) (by rw [Ty.sig]; rfl) hq (.inr rfl)
  rwa [if_neg (by decide)] at this

theorem peekType_variant {m : Received} (h : m.Next .variant) :
    sdBusMessagePeekType m = (peekSignature m.body m.rindex).map
      fun (s, _) => some (sdBusTypeVariant, some s) := by
  have hc : m.last.cur = sdBusTypeVariant := h.cur
  have hb : busTypeIsBasic sdBusTypeVariant = false ∧ sdBusTypeVariant ≠ sdBusTypeArray ∧
      ¬ (sdBusTypeVariant = sdBusTypeStructBegin ∨ sdBusTypeVariant = sdBusTypeDictEntryBegin) := by
    decide
  simp only [sdBusMessagePeekType, h.endOfSignature, h.1, Bool.or_self, hc, hb.1, hb.2.1, hb.2.2]
  cases peekSignature m.body m.rindex <;> rfl

theorem peekType_container {m : Received} {k : Kind} (h : m.Next k.ty)
    {r : Option (UInt8 × Option Str)} (hp : sdBusMessagePeekType m = .ok r) :
    ∃ type contents, r = some (type, some contents) := by
  have hc := h.cur
  have hb : busTypeIsBasic m.last.cur = false := by rw [hc]; cases k <;> rfl
  simp only [sdBusMessagePeekType, h.endOfSignature, h.1, Bool.or_self, hb, Bool.false_eq_true,
    if_false] at hp
  split_ifs at hp <;> split at hp <;>
    first | exact ⟨_, _, (Except.ok.inj hp).symm⟩ | exact absurd hp (by simp)

theorem enterArray_at {m : Received} {t : Ty} {n : Nat} (h : m.Next (.array t))
    (ht : t.Fits true 0 0) (hn : n < 256 ^ 4)
    (hat : At m.body m.rindex (arrayHead m.endian t m.rindex n)) :
    busMessageEnterArray m m.last t.sig =
      if busArrayMaxSize < n then .error .ebadmsg
      else .ok { arraySize := n, rindex := arrayStart t m.rindex, skip := 1 + t.sig.length } := by
  have hc : m.last.cur = sdBusTypeArray := h.cur
  obtain ⟨q, hq⟩ := h.2
  have hpre : t.sig.isPrefixOf (m.last.rest.drop 1) = true := by
    rw [hq, Ty.sig]
    exact List.isPrefixOf_iff_prefix.mpr ⟨q, by simp⟩
  rw [arrayHead, ← List.append_assoc] at hat
  obtain ⟨hw, hz⟩ := at_append.mp hat
  rw [List.length_append, length_zeros, length_putWord, ← Nat.add_assoc,
    add_padTo _ (by decide)] at hz
  have hal : busTypeGetAlignment (charAt t.sig 0) = some t.align := by
    have := t.charAt_sig_append []
    rw [List.append_nil] at this
    rw [this, busTypeGetAlignment_head]
  have hpeek := bufferPeek_at (q := []) (n := 0) t.align_pos rfl (by rwa [List.append_nil])
  simp only [busMessageEnterArray, signatureIsSingle_sig ht, hc, hpre, peekUint32_at hn hw, hal,
    hpeek]
  simp only [Bool.true_eq_false, if_false, ne_eq, not_true_eq_false, Nat.add_zero, arrayStart]

theorem enterVariant_at {m : Received} {t : Ty} (h : m.Next .variant) (ht : t.Fits false 0 0)
    (hlen : t.sig.length ≤ 254) (hat : At m.body m.rindex (sigBytes t.sig)) :
    busMessageEnterVariant m m.last t.sig =
      .ok { rindex := m.rindex + (sigBytes t.sig).length, skip := 1 } := by
  have hc : m.last.cur = sdBusTypeVariant := h.cur
  have h0 := t.zero_notMem_sig
  have hvalid : validSignature t.sig = true := by
    rw [validSignature, signatureIsValid_iff h0]
    refine ⟨[t], (Ty.sigs_singleton t).symm, ?_, by omega⟩
    simpa using ht.mono (by simp) (Nat.le_refl 0) (Nat.le_refl 0)
  have hhead : charAt t.sig 0 ≠ sdBusTypeDictEntryBegin := by
    have := t.charAt_sig_append []
    rw [List.append_nil] at this
    rw [this]
    cases t with
    | dictEntry k v => exact absurd ht (by simp [Ty.Fits])
    | basic b => exact b.code_ne_dict
    | _ => rw [Ty.head]; decide
  simp only [busMessageEnterVariant, signatureIsSingle_sig ht, hhead, hc,
    peekSignature_at hat h0 hlen, hvalid, if_true]
  simp

theorem enterMembers_at {m : Received} (contents : Str)
    (hat : At m.body m.rindex (zeros (padTo m.rindex 8))) :
    enterStructOrDictEntry m contents =
      .ok { rindex := alignUp m.rindex 8, skip := 1 + contents.length + 1 } := by
  have hpeek : bufferPeek m.body m.rindex 8 0 = .ok ([], alignUp m.rindex 8 + 0) :=
    bufferPeek_at (by decide) rfl (by rwa [List.append_nil])
  simp only [enterStructOrDictEntry, hpeek, Nat.add_zero]

theorem hasMembers_of_rest {c : RContainer} {first last : UInt8} {s q : Str}
    (h : c.rest = first :: (s ++ [last]) ++ q) : c.hasMembers first last s = true := by
  have hrest : c.rest.drop 1 = s ++ (last :: q) := by rw [h]; simp
  have hlast : charAt (s ++ (last :: q)) s.length = last := by rw [charAt_append_length]; rfl
  have hcur : c.cur = first := by rw [RContainer.cur, h]; rfl
  simp only [RContainer.hasMembers, hcur, hrest, hlast, Bool.and_eq_true, decide_eq_true_eq,
    and_true, true_and]
  exact List.isPrefixOf_iff_prefix.mpr ⟨_, rfl⟩

theorem enterStruct_at {m : Received} {ts : List Ty} (h : m.Next (.struct ts))
    (hf : ∀ t ∈ ts, t.Fits false 0 0) (hlen : (Ty.sigs ts).length ≤ 255)
    (hat : At m.body m.rindex (zeros (padTo m.rindex 8))) :
    busMessageEnterStruct m m.last (Ty.sigs ts) =
      .ok { rindex := alignUp m.rindex 8, skip := 1 + (Ty.sigs ts).length + 1 } := by
  obtain ⟨q, hq⟩ := h.2
  rw [Ty.sig] at hq
  have hvalid : signatureIsValid (Ty.sigs ts) false = true :=
    (signatureIsValid_iff (Ty.zero_notMem_sigs ts) false).mpr ⟨ts, rfl, hf, hlen⟩
  simp only [busMessageEnterStruct, hvalid, hasMembers_of_rest hq, Bool.true_eq_false, if_false]
  exact enterMembers_at _ hat

theorem enterDictEntry_at {m : Received} {k : Basic} {v : Ty} (h : m.Next (.dictEntry k v))
    (henc : m.last.enclosing = sdBusTypeArray) (hf : v.Fits false 0 0)
    (hat : At m.body m.rindex (zeros (padTo m.rindex 8))) :
    busMessageEnterDictEntry m m.last (k.code :: v.sig) =
      .ok { rindex := alignUp m.rindex 8, skip := 1 + (k.code :: v.sig).length + 1 } := by
  obtain ⟨q, hq⟩ := h.2
  rw [Ty.sig, ← List.cons_append] at hq
  have h0 : (0 : UInt8) ∉ k.code :: v.sig := by
    simpa using ⟨k.code_ne_zero.symm, v.zero_notMem_sig⟩
  have hvalid : signatureIsPair (k.code :: v.sig) = true :=
    (signatureIsPair_iff h0).mpr ⟨k, v, rfl, hf⟩
  simp only [busMessageEnterDictEntry, hvalid, hasMembers_of_rest hq, henc, Bool.true_eq_false,
    if_false, ne_eq, not_true_eq_false]
  exact enterMembers_at _ hat

end Basu
