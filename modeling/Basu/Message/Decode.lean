import Basu.Message.ReadBack

/-! What is read was there. A container that is read to its end holds values that stand in the body
one behind the other. This is the converse of reading values back, proved by following the reader.
-/

namespace Basu
open Lib

theorem Basic.code_of_ofCode {c : UInt8} {b : Basic} (h : Basic.ofCode c = some b) :
    b.code = c := by
  have := List.find?_some h
  simpa using this

structure ReadAs (m : Received) (b : Basic) (v : BasicVal) : Prop where
  type : v.type = b
  stands : v.Stands m.endian m.body m.rindex
  clean : v.Clean
  readable : v.readable m.fds.length = true

theorem readString_sound {m : Received} {validate : Str → Bool} {wrap : Str → BasicVal}
    {v : BasicVal} {ri : Nat}
    (h : (peekString m.endian validate m.body m.rindex).map (fun (s, ri) => (wrap s, ri)) =
      .ok (v, ri)) :
    ∃ s, v = wrap s ∧ At m.body m.rindex (zeros (padTo m.rindex 4) ++ strBytes m.endian s) ∧
      (0 : UInt8) ∉ s ∧ validate s = true ∧
      ri = alignUp m.rindex 4 + (strBytes m.endian s).length := by
  cases hp : peekString m.endian validate m.body m.rindex with
  | error r => rw [hp] at h; exact absurd h (by simp [Except.map])
  | ok q =>
    obtain ⟨s, ri'⟩ := q
    rw [hp] at h
    simp only [Except.map, Except.ok.injEq, Prod.mk.injEq] at h
    obtain ⟨rfl, rfl⟩ := h
    obtain ⟨hat, h0, hv, -, hri⟩ := peekString_sound hp
    exact ⟨s, rfl, hat, h0, hv, hri⟩

theorem readBasicValue_sound {m : Received} {b : Basic} {v : BasicVal} {ri : Nat}
    (h : readBasicValue m b = .ok (v, ri)) :
    ∃ w, ReadAs m b w ∧ v = w.resolve m.fds ∧
      ri = m.rindex + (w.enc m.endian m.rindex).length := by
  cases b with
  | num t =>
    simp only [readBasicValue] at h
    cases hp : bufferPeek m.body m.rindex t.size t.size with
    | error r => rw [hp] at h; exact absurd h (by simp [Except.map])
    | ok q =>
      obtain ⟨q, ri'⟩ := q
      rw [hp] at h
      simp only [Except.map, Except.ok.injEq, Prod.mk.injEq] at h
      obtain ⟨rfl, rfl⟩ := h
      obtain ⟨hat, hlen, rfl⟩ := bufferPeek_sound t.size_pos hp
      have hlt := getWord_lt m.endian q
      have hword : (BitVec.ofNat (8 * t.size) (getWord m.endian q)).toNat = getWord m.endian q := by
        rw [BitVec.toNat_ofNat, Nat.pow_mul]
        exact Nat.mod_eq_of_lt (by rwa [hlen] at hlt)
      refine ⟨.num t (BitVec.ofNat _ (getWord m.endian q)), ⟨rfl, ?_, trivial, rfl⟩, rfl, ?_⟩
      · change At m.body m.rindex (zeros (padTo m.rindex t.size) ++ putWord m.endian t.size _)
        rw [hword, putWord_getWord m.endian hlen]
        exact hat
      · rw [BasicVal.length_enc]
        simp [BasicVal.type, Basic.align, BasicVal.payload]
  | boolean =>
    simp only [readBasicValue] at h
    cases hp : peekUint32 m.endian m.body m.rindex with
    | error r => rw [hp] at h; exact absurd h (by simp [Except.map])
    | ok q =>
      obtain ⟨w, ri'⟩ := q
      rw [hp] at h
      simp only [Except.map, Except.ok.injEq, Prod.mk.injEq] at h
      obtain ⟨rfl, rfl⟩ := h
      obtain ⟨hat, hlt, rfl⟩ := peekUint32_sound hp
      refine ⟨.boolean (w ≠ 0), ⟨rfl, ⟨w, hlt, hat, rfl⟩, trivial, rfl⟩, rfl, ?_⟩
      rw [BasicVal.length_enc]
      simp [BasicVal.type, Basic.align, BasicVal.payload]
  | string =>
    obtain ⟨s, rfl, hat, h0, hv, rfl⟩ := readString_sound h
    refine ⟨.string s, ⟨rfl, hat, h0, hv⟩, rfl, ?_⟩
    rw [BasicVal.length_enc]
    rfl
  | objectPath =>
    obtain ⟨s, rfl, hat, h0, hv, rfl⟩ := readString_sound h
    refine ⟨.objectPath s, ⟨rfl, hat, h0, hv⟩, rfl, ?_⟩
    rw [BasicVal.length_enc]
    rfl
  | signature =>
    simp only [readBasicValue] at h
    cases hp : peekSignature m.body m.rindex with
    | error r => rw [hp] at h; exact absurd h (by simp [Except.map])
    | ok q =>
      obtain ⟨s, ri'⟩ := q
      rw [hp] at h
      simp only [Except.map, Except.ok.injEq, Prod.mk.injEq] at h
      obtain ⟨rfl, rfl⟩ := h
      obtain ⟨hat, h0, hv, hlen, rfl⟩ := peekSignature_sound hp
      refine ⟨.signature s, ⟨rfl, ?_, h0, by simp [BasicVal.readable, hv, hlen]⟩, rfl, ?_⟩
      · simpa [BasicVal.Stands, BasicVal.enc, BasicVal.type, BasicVal.payload, Basic.align,
          padTo_one] using hat
      · rw [BasicVal.length_enc]
        simp [BasicVal.type, Basic.align, BasicVal.payload, alignUp_one]
  | unixFd =>
    simp only [readBasicValue] at h
    cases hp : peekUint32 m.endian m.body m.rindex with
    | error r => rw [hp] at h; exact absurd h (by simp)
    | ok q =>
      obtain ⟨i, ri'⟩ := q
      rw [hp] at h
      obtain ⟨hat, hlt, rfl⟩ := peekUint32_sound hp
      cases hi : m.fds[i]? with
      | none =>
        simp only [hi] at h
        exact absurd h (by simp)
      | some fd =>
        simp only [hi, Except.ok.injEq, Prod.mk.injEq] at h
        obtain ⟨rfl, rfl⟩ := h
        obtain ⟨hlt', hget⟩ := List.getElem?_eq_some_iff.mp hi
        refine ⟨.unixFd i, ⟨rfl, hat, hlt, by simpa [BasicVal.readable] using hlt'⟩, ?_, ?_⟩
        · simp [BasicVal.resolve, hlt', hget]
        · rw [BasicVal.length_enc]
          simp [BasicVal.type, Basic.align, BasicVal.payload]

theorem enterArray_sound {m : Received} {t : Ty} {x : Entered}
    (h : busMessageEnterArray m m.last t.sig = .ok x) :
    At m.body m.rindex (arrayHead m.endian t m.rindex x.arraySize) ∧ x.arraySize < 256 ^ 4 := by
  have hal : busTypeGetAlignment (charAt t.sig 0) = some t.align := by
    have := t.charAt_sig_append []
    rw [List.append_nil] at this
    rw [this, busTypeGetAlignment_head]
  unfold busMessageEnterArray at h
  split_ifs at h
  split at h
  · exact absurd h (by simp)
  · rename_i n ri hn
    obtain ⟨hw, hlt, rfl⟩ := peekUint32_sound hn
    split_ifs at h
    rw [hal] at h
    simp only at h
    split at h
    · exact absurd h (by simp)
    · rename_i q ri hq
      obtain ⟨hz, hlen, -⟩ := bufferPeek_sound t.align_pos hq
      obtain rfl := (Except.ok.inj h).symm
      obtain rfl := List.eq_nil_of_length_eq_zero hlen
      rw [List.append_nil] at hz
      refine ⟨?_, hlt⟩
      rw [arrayHead, ← List.append_assoc]
      refine at_append.mpr ⟨hw, ?_⟩
      rw [List.length_append, length_zeros, length_putWord, ← Nat.add_assoc,
        add_padTo _ (by decide)]
      exact hz

theorem enterVariant_sound {m : Received} {contents : Str} {x : Entered}
    (h : busMessageEnterVariant m m.last contents = .ok x) :
    At m.body m.rindex (sigBytes contents) ∧ contents.length ≤ 254 ∧
      ∃ t : Ty, contents = t.sig ∧ t.Fits false 0 0 := by
  unfold busMessageEnterVariant at h
  split_ifs at h with h1 h2 h3
  split at h
  · exact absurd h (by simp)
  · rename_i s ri hs
    obtain ⟨hat, h0, -, hlen, -⟩ := peekSignature_sound hs
    split_ifs at h with h4
    obtain rfl : s = contents := by simpa using h4
    exact ⟨hat, hlen, (signatureIsSingle_iff h0 false).mp (by simpa using h1)⟩

theorem enterMembers_sound {m : Received} {contents : Str} {x : Entered}
    (h : enterStructOrDictEntry m contents = .ok x) :
    At m.body m.rindex (zeros (padTo m.rindex 8)) := by
  unfold enterStructOrDictEntry at h
  split at h
  · exact absurd h (by simp)
  · rename_i q ri hq
    obtain ⟨hz, hlen, -⟩ := bufferPeek_sound (by decide) hq
    obtain rfl := List.eq_nil_of_length_eq_zero hlen
    rwa [List.append_nil] at hz

structure EnteredAs (m : Received) (x : Entered) (k : Kind) : Prop where
  valid : k.Valid
  limit : k.readLimit x.arraySize
  entered : x = k.entered m.rindex x.arraySize
  head : At m.body m.rindex (k.head m.endian m.rindex x.arraySize)
  fits : k.ty.Fits (m.last.enclosing = sdBusTypeArray) 0 0

theorem enter_sound {m : Received} {u : Ty} {type : UInt8} {contents : Str} {x : Entered}
    (h : m.Next u) (hf : u.Fits true 0 0) (hl : u.sig.length ≤ 255)
    (hp : sdBusMessagePeekType m = .ok (some (type, some contents)))
    (he : enterByType m type contents = .ok x) :
    ∃ k : Kind, k.ty = u ∧ k.enclosing = type ∧ k.contents = contents ∧ EnteredAs m x k := by
  cases u with
  | basic b => exact absurd ((peekType_basic h).symm.trans hp) (by simp)
  | array t =>
    have ht := Fits_array_elem hf
    simp only [peekType_array h ht, Except.ok.injEq, Option.some.injEq, Prod.mk.injEq] at hp
    obtain ⟨rfl, rfl⟩ := hp
    have he' : busMessageEnterArray m m.last t.sig = .ok x := he
    obtain ⟨hat, hlt⟩ := enterArray_sound he'
    rw [enterArray_at h ht hlt hat] at he'
    split_ifs at he' with hmax
    have hx := (Except.ok.inj he').symm
    refine ⟨.array t, rfl, rfl, rfl, ht, by simpa [Kind.readLimit] using hmax, ?_, hat, hf⟩
    rw [hx]
    simp [Kind.entered, Kind.isArray, Kind.start, Kind.ty, Ty.sig, Nat.add_comm]
  | variant =>
    have hcode : type = sdBusTypeVariant := by
      rw [peekType_variant h] at hp
      cases hs : peekSignature m.body m.rindex with
      | error r => rw [hs] at hp; exact absurd hp (by simp [Except.map])
      | ok r =>
        rw [hs] at hp
        simp only [Except.map, Except.ok.injEq, Option.some.injEq, Prod.mk.injEq] at hp
        exact hp.1.symm
    subst hcode
    have he' : busMessageEnterVariant m m.last contents = .ok x := he
    obtain ⟨hat, hlen, t, rfl, ht⟩ := enterVariant_sound he'
    have hx := Except.ok.inj ((enterVariant_at h ht hlen hat).symm.trans he')
    refine ⟨.variant t, rfl, rfl, rfl, ht, hlen, ?_, hat, by rw [Kind.ty, Ty.Fits]; trivial⟩
    rw [← hx]
    simp [Kind.entered, Kind.isArray, Kind.start, Kind.ty, Ty.sig]
  | struct ts =>
    simp only [peekType_struct h hf, Except.ok.injEq, Option.some.injEq, Prod.mk.injEq] at hp
    obtain ⟨rfl, rfl⟩ := hp
    have he' : busMessageEnterStruct m m.last (Ty.sigs ts) = .ok x := he
    have hmem := Fits_struct_members hf
    have hlen : (Ty.sigs ts).length ≤ 255 := by
      simp only [Ty.sig, List.length_cons, List.length_append, List.length_nil] at hl
      omega
    have hat : At m.body m.rindex (zeros (padTo m.rindex 8)) := by
      unfold busMessageEnterStruct at he'
      split_ifs at he'
      exact enterMembers_sound he'
    have hx := Except.ok.inj ((enterStruct_at h hmem hlen hat).symm.trans he')
    refine ⟨.struct ts, rfl, rfl, rfl, ⟨hmem, hlen⟩, trivial, ?_, hat, ?_⟩
    · rw [← hx]
      simp only [Kind.entered, Kind.isArray, Kind.start, Kind.ty, Ty.sig, List.length_cons,
        List.length_append, List.length_nil]
      congr 1
      omega
    · rw [Kind.ty, Ty.Fits] at *
      exact hf
  | dictEntry b v =>
    simp only [peekType_dictEntry h hf, Except.ok.injEq, Option.some.injEq, Prod.mk.injEq] at hp
    obtain ⟨rfl, rfl⟩ := hp
    have he' : busMessageEnterDictEntry m m.last (b.code :: v.sig) = .ok x := he
    unfold busMessageEnterDictEntry at he'
    split_ifs at he' with h1 h2 h3
    rw [not_not] at h2
    have hat := enterMembers_sound he'
    have hv : v.Fits false 0 0 := by
      have h0 : (0 : UInt8) ∉ b.code :: v.sig := by
        simpa using ⟨b.code_ne_zero.symm, v.zero_notMem_sig⟩
      obtain ⟨k', v', hs, hfit⟩ := (signatureIsPair_iff h0).mp (by simpa using h1)
      obtain rfl := Ty.sig_injective (List.cons.inj hs).2
      exact hfit
    have hx := Except.ok.inj ((enterMembers_at _ hat).symm.trans he')
    refine ⟨.dictEntry b v, rfl, rfl, rfl, hv, trivial, ?_, hat, ?_⟩
    · rw [← hx]
      simp only [Kind.entered, Kind.isArray, Kind.start, Kind.ty, Ty.sig, List.length_cons,
        List.length_append, List.length_nil]
      congr 1
      omega
    · rw [h2]
      exact hf

structure Received.Expecting (m : Received) (ts : List Ty) : Prop where
  array : m.last.enclosing = sdBusTypeArray → ∃ t, ts = [t]
  rest : m.last.rest = Ty.sigs ts
  fits : ∀ t ∈ ts, t.Fits true 0 0 ∧ t.sig.length ≤ 255

structure ReadTo (m : Received) (vs : List Val) (items : List Item) (m' : Received) : Prop where
  items : items = Val.items m.fds vs
  stands : Val.AllStand m.endian m.body vs m.rindex
  after : m' = m.behind vs
  made : ∀ v ∈ vs, v.Made
  clean : ∀ v ∈ vs, v.Clean
  readable : Val.AllReadable m.endian m.fds.length vs m.rindex m.containers.length
  array : m.last.enclosing = sdBusTypeArray → ∀ u ∈ Val.tys vs, m.last.rest = u.sig
  other : m.last.enclosing ≠ sdBusTypeArray → m.last.rest = Ty.sigs (Val.tys vs)

theorem peekType_some {m : Received} {r : UInt8 × Option Str}
    (h : sdBusMessagePeekType m = .ok (some r)) :
    messageEndOfSignature m = false ∧ messageEndOfArray m = false := by
  by_contra hend
  have htrue : (messageEndOfSignature m || messageEndOfArray m) = true := by
    revert hend
    cases messageEndOfSignature m <;> cases messageEndOfArray m <;> simp
  simp only [sdBusMessagePeekType, htrue, if_true] at h
  exact absurd h (by simp)

theorem peekType_none {m : Received} (h : sdBusMessagePeekType m = .ok none) :
    messageEndOfSignature m = true ∨ messageEndOfArray m = true := by
  by_contra hend
  simp only [not_or, Bool.not_eq_true] at hend
  simp only [sdBusMessagePeekType, hend.1, hend.2, Bool.or_self, Bool.false_eq_true,
    if_false] at h
  split_ifs at h <;> (try split at h) <;> exact absurd h (by simp)

theorem Received.Expecting.next {m : Received} {ts : List Ty} (h : m.Expecting ts)
    (hs : messageEndOfSignature m = false) (ha : messageEndOfArray m = false) :
    ∃ u us, ts = u :: us ∧ m.Next u := by
  cases ts with
  | nil =>
    have hr := h.rest
    rw [Ty.sigs] at hr
    simp [messageEndOfSignature, RContainer.cur, hr, charAt] at hs
  | cons u us => exact ⟨u, us, rfl, ha, Ty.sigs us, h.rest⟩

theorem Received.Expecting.moved {m : Received} {u : Ty} {us : List Ty}
    (h : m.Expecting (u :: us)) (p : Nat) :
    (m.moved p u.sig.length).Expecting
      (if m.last.enclosing = sdBusTypeArray then u :: us else us) := by
  have hlast := m.moved_last p u.sig.length
  by_cases ha : m.last.enclosing = sdBusTypeArray
  · rw [if_pos ha] at hlast ⊢
    exact ⟨fun _ => h.array ha, by rw [hlast]; exact h.rest, h.fits⟩
  · rw [if_neg ha] at hlast ⊢
    refine ⟨fun ha' => ?_, ?_, fun t ht => h.fits t (by simp [ht])⟩
    · rw [hlast] at ha'
      exact absurd ha' ha
    · rw [hlast]
      exact RContainer.rest_skip h.rest

theorem ReadTo.nil {m : Received} {ts : List Ty} (he : m.Expecting ts)
    (h : sdBusMessagePeekType m = .ok none) : ReadTo m [] [] m := by
  refine ⟨rfl, by rw [Val.AllStand]; trivial, m.behind_nil.symm, by simp, by simp,
    by rw [Val.AllReadable]; trivial, by simp [Val.tys], fun ha => ?_⟩
  have hs : messageEndOfSignature m = true := by
    rcases peekType_none h with hs | hs
    · exact hs
    · simp [messageEndOfArray, ha] at hs
  cases ts with
  | nil => exact he.rest
  | cons u us =>
    have hcur : m.last.cur = u.head := by
      rw [RContainer.cur, he.rest, Ty.sigs, Ty.charAt_sig_append]
    exact absurd (hcur.symm.trans (by simpa [messageEndOfSignature] using hs)) u.head_ne_zero

theorem ReadTo.cons {m m' : Received} {v : Val} {vs : List Val} {items : List Item}
    (hnext : m.Next v.ty) (hm : v.Made) (hc : v.Clean)
    (hst : v.Stands m.endian m.body m.rindex)
    (hrd : v.Readable m.endian m.fds.length m.rindex m.containers.length)
    (ha : m.last.enclosing = sdBusTypeArray → m.last.rest = v.ty.sig)
    (h : ReadTo (m.moved (m.rindex + (v.enc m.endian m.rindex).length) v.ty.sig.length) vs items
      m') : ReadTo m (v :: vs) (v.item m.fds :: items) m' := by
  obtain ⟨he, hb, hf, hn, -⟩ := m.moved_frame (m.rindex + (v.enc m.endian m.rindex).length)
    v.ty.sig.length
  have hri := m.moved_rindex (m.rindex + (v.enc m.endian m.rindex).length) v.ty.sig.length
  have hlast := m.moved_last (m.rindex + (v.enc m.endian m.rindex).length) v.ty.sig.length
  have hitems := h.items
  have hstands := h.stands
  have hread := h.readable
  rw [hf] at hitems
  rw [he, hb, hri] at hstands
  rw [he, hf, hri, hn] at hread
  refine ⟨?_, ?_, ?_, ?_, ?_, ?_, fun hk => ?_, fun hk => ?_⟩
  · rw [Val.items, hitems]
  · rw [Val.AllStand]
    exact ⟨hst, hstands⟩
  · rw [Received.behind_cons]
    exact h.after
  · simpa using ⟨hm, h.made⟩
  · simpa using ⟨hc, h.clean⟩
  · rw [Val.AllReadable]
    exact ⟨hrd, hread⟩
  · have harr := h.array
    rw [hlast, if_pos hk] at harr
    simpa [Val.tys] using ⟨ha hk, harr hk⟩
  · obtain ⟨-, q, hq⟩ := hnext
    have hoth := h.other
    rw [hlast, if_neg hk] at hoth
    rw [Val.tys, Ty.sigs, hq, ← hoth hk, RContainer.rest_skip hq]

theorem Val.ty_eq_basic {v : Val} {b : Basic} (h : v.ty = .basic b) :
    ∃ w : BasicVal, v = .basic w ∧ w.type = b := by
  cases v with
  | basic w => exact ⟨w, rfl, by simpa [Val.ty] using h⟩
  | _ => exact absurd h (by simp [Val.ty])

theorem Kind.exists_holds {k : Kind} {vs : List Val}
    (h : k.isArray = false → Ty.sigs (Val.tys vs) = k.contents) : ∃ v : Val, v.Holds k vs := by
  cases k with
  | array t => exact ⟨_, .array t vs⟩
  | variant t =>
    have hty : Val.tys vs = [t] := Ty.sigs_injective ((h rfl).trans (Ty.sigs_singleton t).symm)
    rw [Val.tys_eq_map] at hty
    obtain ⟨v, rfl, rfl⟩ := List.map_eq_singleton_iff.mp hty
    exact ⟨_, .variant v⟩
  | struct ts =>
    obtain rfl : Val.tys vs = ts := Ty.sigs_injective (h rfl)
    exact ⟨_, .struct vs⟩
  | dictEntry b w =>
    have hty : Val.tys vs = [.basic b, w] := by
      refine Ty.sigs_injective ((h rfl).trans ?_)
      simp [Kind.contents, Ty.sigs, Ty.sig]
    rw [Val.tys_eq_map] at hty
    obtain ⟨v₁, ws, rfl, h₁, h₂⟩ := List.map_eq_cons_iff.mp hty
    obtain ⟨v₂, rfl, rfl⟩ := List.map_eq_singleton_iff.mp h₂
    obtain ⟨key, rfl, rfl⟩ := Val.ty_eq_basic h₁
    exact ⟨_, .dictEntry key v₂⟩

theorem Val.Holds.made_of {v : Val} {k : Kind} {vs : List Val} (h : v.Holds k vs)
    (hk : k.Valid) (ha : ∀ t, k = .array t → ∀ u ∈ Val.tys vs, u = t)
    (hm : ∀ w ∈ vs, w.Made) : v.Made := by
  cases h with
  | variant v =>
    rw [Val.Made]
    exact ⟨hk, by simpa using hm⟩
  | array t vs =>
    rw [Val.Made]
    exact ⟨hk, ha t rfl, Val.allMade_iff.mpr hm⟩
  | struct vs =>
    rw [Val.Made]
    exact ⟨hk, Val.allMade_iff.mpr hm⟩
  | dictEntry key v =>
    rw [Val.Made]
    exact ⟨hk, by simp only [List.mem_cons] at hm; exact hm v (by simp)⟩

theorem EnteredAs.expecting {m : Received} {x : Entered} {k : Kind} (h : EnteredAs m x k)
    (hl : k.ty.sig.length ≤ 255) :
    (m.enter k.enclosing k.contents x).Expecting
      (match k with | .array t => [t] | k => k.members) := by
  have hlast := Received.enter_last m k.enclosing k.contents x
  have hrest : (m.enter k.enclosing k.contents x).last.rest = k.contents := by
    rw [hlast]
    rfl
  have hfits := h.fits
  have hvalid := h.valid
  cases k with
  | array t =>
    refine ⟨fun _ => ⟨t, rfl⟩, hrest.trans (Ty.sigs_singleton t).symm, ?_⟩
    simp only [Kind.ty, Ty.sig, List.length_cons] at hl
    simpa using ⟨Fits_array_elem hfits, by omega⟩
  | variant t =>
    refine ⟨fun ha => ?_, hrest.trans (Kind.contents_eq _ rfl), ?_⟩
    · rw [hlast] at ha
      exact absurd ha (by simp [Kind.enclosing]; decide)
    · have hlim := h.limit
      simp only [Kind.readLimit] at hlim
      simpa [Kind.members] using
        ⟨Ty.Fits.mono hvalid (by simp) (Nat.le_refl 0) (Nat.le_refl 0), by omega⟩
  | struct ts =>
    refine ⟨fun ha => ?_, hrest.trans (Kind.contents_eq _ rfl), fun t ht => ?_⟩
    · rw [hlast] at ha
      exact absurd ha (by simp [Kind.enclosing]; decide)
    · have := Ty.sig_length_le ht
      exact ⟨(hvalid.1 t ht).mono (by simp) (Nat.le_refl 0) (Nat.le_refl 0),
        this.trans hvalid.2⟩
  | dictEntry b w =>
    refine ⟨fun ha => ?_, hrest.trans (Kind.contents_eq _ rfl), ?_⟩
    · rw [hlast] at ha
      exact absurd ha (by simp [Kind.enclosing]; decide)
    · simp only [Kind.ty, Ty.sig, List.length_cons, List.length_append] at hl
      simp only [Kind.members, List.mem_cons, List.not_mem_nil, or_false, forall_eq_or_imp,
        forall_eq]
      exact ⟨⟨by rw [Ty.Fits]; trivial, by rw [Ty.sig]; simp⟩,
        Ty.Fits.mono hvalid (by simp) (Nat.le_refl 0) (Nat.le_refl 0), by omega⟩

theorem exit_array {m m' : Received} (h : sdBusMessageExitContainer m = .ok m')
    (ha : m.last.enclosing = sdBusTypeArray) : m.last.begin + m.last.arraySize = m.rindex := by
  unfold sdBusMessageExitContainer at h
  split at h
  · exact absurd h (by simp)
  · rename_i c cs hcs
    have hlast : m.last = c := by simp [Received.last, hcs]
    rw [hlast] at ha ⊢
    split_ifs at h with h1 h2
    simpa [ha] using h2

theorem EnteredAs.value {m m₃ : Received} {x : Entered} {k : Kind} {vs : List Val}
    {inner : List Item} {m₂ : Received} (h : EnteredAs m x k)
    (hd : m.containers.length < busContainerDepth)
    (hin : ReadTo (m.enter k.enclosing k.contents x) vs inner m₂)
    (hx : sdBusMessageExitContainer m₂ = .ok m₃) :
    ∃ v : Val, v.ty = k.ty ∧ v.item m.fds = .container k.enclosing k.contents inner ∧ v.Made ∧
      v.Clean ∧ v.Stands m.endian m.body m.rindex ∧
      v.Readable m.endian m.fds.length m.rindex m.containers.length ∧
      m₃ = m.moved (m.rindex + (v.enc m.endian m.rindex).length) v.ty.sig.length := by
  obtain ⟨he, hb, hf, hri, hn⟩ := m.enter_frame k.enclosing k.contents x
  have hlast := Received.enter_last m k.enclosing k.contents x
  have hstart : x.rindex = k.start m.rindex := by rw [h.entered, Kind.entered]
  have harr := hin.array
  have hoth := hin.other
  have hst := hin.stands
  have hrd := hin.readable
  rw [hlast] at harr hoth
  rw [he, hb, hri, hstart] at hst
  rw [he, hf, hri, hstart, hn] at hrd
  obtain ⟨v, hold⟩ : ∃ v : Val, v.Holds k vs := by
    refine Kind.exists_holds fun hk => ?_
    have hne : k.enclosing ≠ sdBusTypeArray := fun ha => by
      rw [k.enclosing_eq_array, hk] at ha
      exact absurd ha (by decide)
    exact (hoth hne).symm
  have helem : ∀ t, k = .array t → ∀ u ∈ Val.tys vs, u = t := by
    rintro t rfl u hu
    exact (Ty.sig_injective (harr rfl u hu)).symm
  have hmade := hold.made_of h.valid helem hin.made
  -- the length word of an array is what leaving it compares the cursor with
  have hlen : k.entered m.rindex x.arraySize =
      k.entered m.rindex (Val.encs m.endian vs (k.start m.rindex)).length ∧
      k.head m.endian m.rindex x.arraySize =
        k.head m.endian m.rindex (Val.encs m.endian vs (k.start m.rindex)).length ∧
      k.readLimit (Val.encs m.endian vs (k.start m.rindex)).length := by
    cases k with
    | array t =>
      have hm₂ : m₂.last = (m.enter sdBusTypeArray t.sig x).last := by
        rw [hin.after, Received.behind, Received.moved_last, hlast]
        rfl
      have hri₂ : m₂.rindex = x.rindex + (Val.encs m.endian vs x.rindex).length := by
        rw [hin.after, Received.behind, Received.moved_rindex, he, hri]
      have hexit := exit_array hx (by rw [hm₂]; rfl)
      rw [hm₂, hri₂] at hexit
      have hsize : x.arraySize = (Val.encs m.endian vs x.rindex).length := by
        have hexit' : x.rindex + x.arraySize = x.rindex + (Val.encs m.endian vs x.rindex).length :=
          hexit
        omega
      rw [hstart] at hsize
      have hlim := h.limit
      rw [hsize] at hlim ⊢
      exact ⟨rfl, rfl, hlim⟩
    | _ => exact ⟨rfl, rfl, h.limit⟩
  have hm₃ : m₃ = m.moved (m.rindex + (v.enc m.endian m.rindex).length) v.ty.sig.length := by
    have hexit := Comes.exit (m := m) hold hmade
    rw [hin.after, h.entered, hlen.1] at hx
    exact Except.ok.inj (hx.symm.trans hexit)
  refine ⟨v, hold.ty, ?_, hmade, hold.clean.mpr hin.clean, ?_, ?_, hm₃⟩
  · rw [hold.item, hin.items, hf]
  · refine (hold.stands _ _ _).mpr ⟨?_, hst⟩
    rw [← hlen.2.1]
    exact h.head
  · exact (hold.readable _ _ _ _).mpr ⟨hd, hlen.2.2, hrd⟩

theorem ReadItems.sound {m m' : Received} {items : List Item} (h : ReadItems m items m')
    {ts : List Ty} (he : m.Expecting ts) : ∃ vs, ReadTo m vs items m' := by
  induction h generalizing ts with
  | eof hp => exact ⟨[], .nil he hp⟩
  | @basic m m₁ m₂ type v items hp hr _ ih =>
    obtain ⟨hs, ha⟩ := peekType_some hp
    obtain ⟨u, us, rfl, hnext⟩ := he.next hs ha
    obtain ⟨b, rfl⟩ : ∃ b, u = .basic b := by
      cases u with
      | basic b => exact ⟨b, rfl⟩
      | array t =>
        exact absurd ((peekType_array hnext (Fits_array_elem (he.fits _ (by simp)).1)).symm.trans
          hp) (by simp)
      | variant =>
        rw [peekType_variant hnext] at hp
        cases hs : peekSignature m.body m.rindex with
        | error r => rw [hs] at hp; exact absurd hp (by simp [Except.map])
        | ok r => rw [hs] at hp; exact absurd hp (by simp [Except.map])
      | struct ts =>
        exact absurd ((peekType_struct hnext (he.fits _ (by simp)).1).symm.trans hp) (by simp)
      | dictEntry k w =>
        exact absurd ((peekType_dictEntry hnext (he.fits _ (by simp)).1).symm.trans hp) (by simp)
    obtain rfl : b.code = type := by
      have := (peekType_basic hnext).symm.trans hp
      simpa using this
    rw [readBasic_next hnext] at hr
    cases hval : readBasicValue m b with
    | error r => rw [hval] at hr; exact absurd hr (by simp [Except.map])
    | ok q =>
      obtain ⟨v', ri⟩ := q
      rw [hval] at hr
      simp only [Except.map, Except.ok.injEq, Prod.mk.injEq, Option.some.injEq] at hr
      obtain ⟨rfl, rfl⟩ := hr
      obtain ⟨w, hw, rfl, rfl⟩ := readBasicValue_sound hval
      obtain rfl := hw.type
      have hmoved := he.moved (m.rindex + (w.enc m.endian m.rindex).length)
      obtain ⟨vs, hvs⟩ := ih hmoved
      have hty : (Val.basic w).ty = .basic w.type := by rw [Val.ty]
      refine ⟨.basic w :: vs, ?_⟩
      have hitem : (Val.basic w).item m.fds = .basic (w.resolve m.fds) := by rw [Val.item]
      rw [← hitem]
      refine ReadTo.cons (by rw [hty]; exact hnext) (by rw [Val.Made]; trivial)
        (by rw [Val.Clean]; exact hw.clean) (by rw [Val.Stands]; exact hw.stands)
        (by rw [Val.Readable]; exact hw.readable) (fun ha => ?_) ?_
      · obtain ⟨t, ht⟩ := he.array ha
        obtain ⟨rfl, rfl⟩ := List.cons.inj ht
        rw [he.rest, Ty.sigs_singleton, hty]
      · rw [Val.enc, hty, Ty.sig]
        exact hvs
  | @container m m₁ m₂ m₃ m₄ type contents inner items hp hen _ hx _ ihin ih =>
    obtain ⟨hs, ha⟩ := peekType_some hp
    obtain ⟨u, us, rfl, hnext⟩ := he.next hs ha
    obtain ⟨hf, hl⟩ := he.fits u (by simp)
    obtain ⟨hd, x, hex, rfl⟩ := enterContainer_ok hnext hen
    obtain ⟨k, rfl, rfl, rfl, hent⟩ := enter_sound hnext hf hl hp hex
    obtain ⟨ws, hws⟩ := ihin (hent.expecting hl)
    obtain ⟨v, hty, hitem, hmade, hclean, hst, hrd, rfl⟩ := hent.value hd hws hx
    have hmoved := he.moved (m.rindex + (v.enc m.endian m.rindex).length)
    rw [← hty] at hmoved
    obtain ⟨vs, hvs⟩ := ih hmoved
    refine ⟨v :: vs, ?_⟩
    rw [← hitem]
    refine ReadTo.cons (by rw [hty]; exact hnext) hmade hclean hst hrd (fun ha => ?_) hvs
    obtain ⟨t, ht⟩ := he.array ha
    obtain ⟨rfl, rfl⟩ := List.cons.inj ht
    rw [he.rest, Ty.sigs_singleton, hty]

end Basu
