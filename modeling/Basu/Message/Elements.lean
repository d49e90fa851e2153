import Basu.Message.ReadBack

/-! Reading an array of numbers at once (`sd_bus_message_read_array`) and element by element. The
two agree unless the length of the array is no multiple of the element size. -/

namespace Basu
open Lib

def sdBusMessageReadArray (native : Endian) (m : Received) (type : UInt8) :
    Except Errno (Option Bytes × Received) :=
  if busTypeIsTrivial type = false then .error .einval
  else if m.endian ≠ native then .error .eopnotsupp
  else match sdBusMessageEnterContainer m sdBusTypeArray [type] with
    | .error r => .error r
    | .ok (false, m) => .ok (none, m)
    | .ok (true, m) =>
      match busTypeGetAlignment type with
      | none => .error .einval
      | some align =>
        let sz := m.last.arraySize
        -- the failures from here on leave the container again
        match if sz = 0 then .ok ([], m.rindex) else bufferPeek m.body m.rindex align sz with
        | .error r => .error r
        | .ok (p, ri) =>
          match sdBusMessageExitContainer { m with rindex := ri } with
          | .error r => .error r
          | .ok m => .ok (some p, m)

/-- `sd_bus_message_read_basic` until it returns 0, with the bytes that each call reads. -/
inductive ReadElements (type : UInt8) : Received → List Bytes → Received → Prop
  | done {m m' : Received} (h : sdBusMessageReadBasic m type = .ok (none, m')) :
    ReadElements type m [] m'
  | next {m m₁ m₂ : Received} {v : BasicVal} {es : List Bytes}
      (hr : sdBusMessageReadBasic m type = .ok (some v, m₁)) (h : ReadElements type m₁ es m₂) :
    ReadElements type m (slice m.body m.rindex (m₁.rindex - m.rindex) :: es) m₂

def ElementsRead (type : UInt8) (m : Received) (es : List Bytes) (m' : Received) : Prop :=
  ∃ m₁ m₂, sdBusMessageEnterContainer m sdBusTypeArray [type] = .ok (true, m₁) ∧
    ReadElements type m₁ es m₂ ∧ sdBusMessageExitContainer m₂ = .ok m'

/-- The length of the array is a multiple of the element size, or the body ends before the array
does. An array that cannot be entered is not looked at. -/
def WholeElements (type : UInt8) (m : Received) : Prop :=
  ∀ size ri align q begin, m.containers.length < busContainerDepth →
    peekUint32 m.endian m.body m.rindex = .ok (size, ri) → size ≤ busArrayMaxSize →
    busTypeGetAlignment type = some align → bufferPeek m.body ri align 0 = .ok (q, begin) →
    align ∣ size ∨ m.body.length < begin + size

variable {m m' : Received} {type : UInt8} {b : Basic} {ri n : Nat}

theorem bufferPeek_of_dvd {l : Bytes} {align : Nat} (ha : 0 < align) (hd : align ∣ ri) :
    bufferPeek l ri align n =
      if l.length < ri + n then .error .ebadmsg else .ok (slice l ri n, ri + n) := by
  unfold bufferPeek
  dsimp only
  rw [alignUp_of_dvd ha hd, Nat.sub_self]
  rfl

def Basic.Trivial (b : Basic) : Prop := (∃ t, b = .num t) ∨ b = .boolean

theorem ofCode_of_trivial (h : busTypeIsTrivial type = true) :
    ∃ b : Basic, type = b.code ∧ b.Trivial := by
  simp only [busTypeIsTrivial, List.mem_cons, List.not_mem_nil, or_false, decide_eq_true_eq] at h
  rcases h with h | h | h | h | h | h | h | h | h
  · exact ⟨.num .byte, h, .inl ⟨_, rfl⟩⟩
  · exact ⟨.boolean, h, .inr rfl⟩
  · exact ⟨.num .int16, h, .inl ⟨_, rfl⟩⟩
  · exact ⟨.num .uint16, h, .inl ⟨_, rfl⟩⟩
  · exact ⟨.num .int32, h, .inl ⟨_, rfl⟩⟩
  · exact ⟨.num .uint32, h, .inl ⟨_, rfl⟩⟩
  · exact ⟨.num .int64, h, .inl ⟨_, rfl⟩⟩
  · exact ⟨.num .uint64, h, .inl ⟨_, rfl⟩⟩
  · exact ⟨.num .double, h, .inl ⟨_, rfl⟩⟩

theorem readBasicValue_trivial (hb : b.Trivial) (hd : b.align ∣ m.rindex) :
    (m.body.length < m.rindex + b.align → ∃ r, readBasicValue m b = .error r) ∧
    (m.rindex + b.align ≤ m.body.length →
      ∃ v, readBasicValue m b = .ok (v, m.rindex + b.align)) := by
  rcases hb with ⟨t, rfl⟩ | rfl
  · have hpeek := bufferPeek_of_dvd (l := m.body) (n := t.size) t.size_pos hd
    unfold readBasicValue
    dsimp only
    rw [hpeek]
    refine ⟨fun hlt => ?_, fun hle => ?_⟩
    · rw [if_pos (show m.body.length < m.rindex + t.size from hlt)]
      exact ⟨_, rfl⟩
    · rw [if_neg (Nat.not_lt_of_le (show m.rindex + t.size ≤ m.body.length from hle))]
      exact ⟨_, rfl⟩
  · have hpeek := bufferPeek_of_dvd (l := m.body) (n := 4) (by decide : 0 < 4) hd
    unfold readBasicValue peekUint32
    dsimp only
    rw [hpeek]
    refine ⟨fun hlt => ?_, fun hle => ?_⟩
    · rw [if_pos (show m.body.length < m.rindex + 4 from hlt)]
      exact ⟨_, rfl⟩
    · rw [if_neg (Nat.not_lt_of_le (show m.rindex + 4 ≤ m.body.length from hle))]
      exact ⟨_, rfl⟩

structure InArray (b : Basic) (m : Received) : Prop where
  enclosing : m.last.enclosing = sdBusTypeArray
  cur : m.last.cur = b.code
  aligned : b.align ∣ m.rindex

def Received.arrayEnd (m : Received) : Nat := m.last.begin + m.last.arraySize

theorem InArray.step (h : InArray b m) : InArray b { m with rindex := m.rindex + b.align } :=
  ⟨h.enclosing, h.cur, (Nat.dvd_add_right h.aligned).mpr dvd_rfl⟩

theorem InArray.readBasic (h : InArray b m) (hb : b.Trivial) :
    (m.arrayEnd ≤ m.rindex → sdBusMessageReadBasic m b.code = .ok (none, m)) ∧
    (m.rindex < m.arrayEnd → m.body.length < m.rindex + b.align →
      ∃ r, sdBusMessageReadBasic m b.code = .error r) ∧
    (m.rindex < m.arrayEnd → m.rindex + b.align ≤ m.body.length →
      ∃ v, sdBusMessageReadBasic m b.code =
        .ok (some v, { m with rindex := m.rindex + b.align })) := by
  obtain ⟨hshort, hlong⟩ := readBasicValue_trivial (m := m) hb h.aligned
  have hsig : messageEndOfSignature m = false := by
    unfold messageEndOfSignature
    rw [h.cur, decide_eq_false_iff_not]
    exact b.code_ne_zero
  have hend : messageEndOfArray m = decide (m.arrayEnd ≤ m.rindex) := by
    unfold messageEndOfArray Received.arrayEnd
    rw [h.enclosing, decide_eq_true rfl, Bool.true_and]
  unfold sdBusMessageReadBasic
  rw [Basic.ofCode_code]
  dsimp only
  rw [hsig, hend, if_neg Bool.false_ne_true]
  refine ⟨fun hle => if_pos (decide_eq_true hle), fun hlt hover => ?_, fun hlt hfits => ?_⟩
  · obtain ⟨r, hr⟩ := hshort hover
    rw [if_neg (by simpa using hlt), if_neg (not_not.mpr h.cur), hr]
    exact ⟨r, rfl⟩
  · obtain ⟨v, hv⟩ := hlong hfits
    rw [if_neg (by simpa using hlt), if_neg (not_not.mpr h.cur), hv]
    refine ⟨v, ?_⟩
    dsimp only
    unfold Received.advance
    rw [if_pos (show (Received.last { m with rindex := m.rindex + b.align }).enclosing =
      sdBusTypeArray from h.enclosing)]

theorem slice_append_slice (bs : Bytes) (i n k : Nat) :
    slice bs i n ++ slice bs (i + n) k = slice bs i (n + k) := by
  unfold slice
  rw [List.take_add, List.drop_drop]

theorem InArray.readElements (hb : b.Trivial) (k : Nat) : ∀ {m : Received}, InArray b m →
    m.rindex + k * b.align = m.arrayEnd → m.arrayEnd ≤ m.body.length →
    ∃ es, ReadElements b.code m es { m with rindex := m.arrayEnd } ∧
      es.flatten = slice m.body m.rindex (k * b.align) := by
  induction k with
  | zero =>
    intro m h hend _
    rw [Nat.zero_mul, Nat.add_zero] at hend
    refine ⟨[], ?_, by rw [Nat.zero_mul, slice, List.take_zero]; rfl⟩
    rw [← hend]
    exact .done ((h.readBasic hb).1 hend.ge)
  | succ k ih =>
    intro m h hend hle
    have hs := b.align_pos
    rw [Nat.succ_mul] at hend
    obtain ⟨v, hv⟩ := (h.readBasic hb).2.2 (by omega) (by omega)
    have hlast : Received.arrayEnd { m with rindex := m.rindex + b.align } = m.arrayEnd := rfl
    obtain ⟨es, hes, hflat⟩ := ih h.step (by rw [hlast]; dsimp only; omega) hle
    refine ⟨_, .next hv hes, ?_⟩
    rw [List.flatten_cons, hflat, Nat.succ_mul, Nat.add_comm (k * b.align), ← slice_append_slice]
    dsimp only
    rw [Nat.add_sub_cancel_left]

theorem ReadElements.inv (hb : b.Trivial) {es : List Bytes} (h : ReadElements b.code m es m') :
    InArray b m → ∃ p, m' = { m with rindex := p } ∧ m.rindex ≤ p ∧ b.align ∣ p ∧
      m.arrayEnd ≤ p ∧ (p = m.rindex ∨ p ≤ m.body.length) ∧
      es.flatten = slice m.body m.rindex (p - m.rindex) := by
  induction h with
  | @done m m' hr =>
    intro h
    obtain ⟨hstop, hshort, hlong⟩ := h.readBasic hb
    rcases Nat.lt_or_ge m.rindex m.arrayEnd with hlt | hge
    · rcases Nat.lt_or_ge m.body.length (m.rindex + b.align) with hover | hfits
      · obtain ⟨r, hr'⟩ := hshort hlt hover
        rw [hr'] at hr
        cases hr
      · obtain ⟨v, hv⟩ := hlong hlt hfits
        rw [hv] at hr
        cases hr
    · rw [hstop hge] at hr
      cases hr
      refine ⟨m.rindex, rfl, le_rfl, h.aligned, hge, .inl rfl, ?_⟩
      rw [Nat.sub_self, slice, List.take_zero]
      rfl
  | @next m m₁ m₂ v es hr _ ih =>
    intro h
    obtain ⟨hstop, hshort, hlong⟩ := h.readBasic hb
    rcases Nat.lt_or_ge m.rindex m.arrayEnd with hlt | hge
    · rcases Nat.lt_or_ge m.body.length (m.rindex + b.align) with hover | hfits
      · obtain ⟨r, hr'⟩ := hshort hlt hover
        rw [hr'] at hr
        cases hr
      · obtain ⟨v', hv⟩ := hlong hlt hfits
        rw [hv] at hr
        cases hr
        obtain ⟨p, rfl, hle, hdvd, hend, hbody, hflat⟩ := ih h.step
        dsimp only at hle hbody hflat
        refine ⟨p, rfl, by omega, hdvd, hend, .inr (by omega), ?_⟩
        rw [List.flatten_cons, hflat]
        dsimp only
        rw [Nat.add_sub_cancel_left, slice_append_slice]
        congr 1
        omega
    · rw [hstop hge] at hr
      cases hr

structure ArrayEntered (b : Basic) (m m₁ : Received) (begin size : Nat) : Prop where
  eq : m₁ = m.enter sdBusTypeArray [b.code]
    { arraySize := size, rindex := begin, skip := 1 + [b.code].length }
  aligned : b.align ∣ begin
  inBody : begin ≤ m.body.length

variable {m₁ : Received} {begin size : Nat}

theorem ArrayEntered.inArray (h : ArrayEntered b m m₁ begin size) :
    InArray b m₁ ∧ m₁.rindex = begin ∧ m₁.arrayEnd = begin + size ∧ m₁.body = m.body ∧
      m₁.last.arraySize = size := by
  obtain ⟨rfl, hd, -⟩ := h
  obtain ⟨-, hbody, -, hri, -⟩ := m.enter_frame sdBusTypeArray [b.code]
    { arraySize := size, rindex := begin, skip := 1 + [b.code].length }
  exact ⟨⟨rfl, rfl, by rw [hri]; exact hd⟩, hri, rfl, hbody, rfl⟩

def Enters (b : Basic) (m : Received) (begin size : Nat) : Prop :=
  ∃ ri q, m.containers.length < busContainerDepth ∧
    peekUint32 m.endian m.body m.rindex = .ok (size, ri) ∧ size ≤ busArrayMaxSize ∧
    bufferPeek m.body ri b.align 0 = .ok (q, begin)

theorem next_of_peekType
    (hp : sdBusMessagePeekType m = .ok (some (sdBusTypeArray, some [b.code]))) :
    m.Next (.array (.basic b)) := by
  unfold sdBusMessagePeekType at hp
  dsimp only at hp
  split at hp
  · cases hp
  next hend =>
  split at hp
  · exact absurd hp (by simp)
  split at hp
  · next harray =>
    split at hp
    · cases hp
    next l hl =>
    simp only [Except.ok.injEq, Option.some.injEq, Prod.mk.injEq, true_and] at hp
    rw [Bool.or_eq_true, not_or, Bool.not_eq_true, Bool.not_eq_true] at hend
    have hsplit : (m.last.rest.drop 1).take l ++ (m.last.rest.drop 1).drop l = m.last.rest.drop 1 :=
      List.take_append_drop _ _
    rw [hp] at hsplit
    refine ⟨hend.2, (m.last.rest.drop 1).drop l, ?_⟩
    change _ = sdBusTypeArray :: ([b.code] ++ _)
    rw [hsplit]
    rw [RContainer.cur] at harray
    generalize m.last.rest = s at harray ⊢
    cases s with
    | nil => exact absurd harray (by decide)
    | cons c r =>
      rw [charAt_cons_zero] at harray
      rw [harray, List.drop_one, List.tail_cons]
  -- What is not an array has another type.
  split at hp
  · split at hp
    · cases hp
    · simp only [Except.ok.injEq, Option.some.injEq, Prod.mk.injEq] at hp
      have hne := hp.1
      split at hne <;> exact absurd hne (by decide)
  split at hp
  · split at hp
    · cases hp
    · simp only [Except.ok.injEq, Option.some.injEq, Prod.mk.injEq] at hp
      exact absurd hp.1 (by decide)
  · cases hp

theorem enterArray_iff (h : m.Next (.array (.basic b))) {x : Entered} :
    busMessageEnterArray m m.last [b.code] = .ok x ↔
      ∃ ri q begin size, peekUint32 m.endian m.body m.rindex = .ok (size, ri) ∧
        size ≤ busArrayMaxSize ∧ bufferPeek m.body ri b.align 0 = .ok (q, begin) ∧
        x = { arraySize := size, rindex := begin, skip := 1 + [b.code].length } := by
  have hsingle : signatureIsSingle [b.code] true = true := signatureIsSingle_sig (t := .basic b) trivial
  have hcur : m.last.cur = sdBusTypeArray := h.cur
  obtain ⟨-, q, hq⟩ := h
  have hpre : List.isPrefixOf [b.code] (m.last.rest.drop 1) = true := by
    rw [hq]
    exact List.isPrefixOf_iff_prefix.mpr ⟨q, rfl⟩
  unfold busMessageEnterArray
  rw [hsingle, hcur, hpre, charAt_cons_zero, busTypeGetAlignment_code]
  simp only [Bool.true_eq_false, if_false, ne_eq, not_true_eq_false]
  rcases peekUint32 m.endian m.body m.rindex with r | ⟨size, ri⟩
  · simp
  · dsimp only
    split_ifs with hmax
    · simp only [Except.ok.injEq, Prod.mk.injEq, false_iff]
      rintro ⟨_, _, _, _, ⟨rfl, rfl⟩, hle, -⟩
      exact absurd hle (Nat.not_le_of_lt hmax)
    · rcases hpeek : bufferPeek m.body ri b.align 0 with r | ⟨q, begin⟩
      · simp only [reduceCtorEq, Except.ok.injEq, Prod.mk.injEq, false_iff]
        rintro ⟨_, _, _, _, ⟨rfl, rfl⟩, -, hp, -⟩
        rw [hpeek] at hp
        cases hp
      · simp only [Except.ok.injEq, Prod.mk.injEq]
        constructor
        · rintro rfl
          exact ⟨ri, q, begin, size, ⟨rfl, rfl⟩, Nat.le_of_not_lt hmax, hpeek, rfl⟩
        · rintro ⟨_, _, _, _, ⟨rfl, rfl⟩, -, hp, rfl⟩
          rw [hpeek] at hp
          cases hp
          rfl

theorem Enters.entered (h : Enters b m begin size) : ArrayEntered b m
    (m.enter sdBusTypeArray [b.code]
      { arraySize := size, rindex := begin, skip := 1 + [b.code].length }) begin size := by
  obtain ⟨ri, q, -, -, -, hpeek⟩ := h
  obtain ⟨hat, hlen, hbegin⟩ := bufferPeek_sound b.align_pos hpeek
  rw [Nat.add_zero] at hbegin
  refine ⟨rfl, hbegin ▸ dvd_alignUp ri _, ?_⟩
  have hle := hat.le_length
  rw [List.length_append, length_zeros, hlen] at hle
  have hpad := add_padTo ri b.align_pos
  omega

theorem enterContainer_iff (h : m.Next (.array (.basic b))) {ok : Bool} :
    sdBusMessageEnterContainer m sdBusTypeArray [b.code] = .ok (ok, m₁) ↔
      ok = true ∧ ∃ begin size, Enters b m begin size ∧ ArrayEntered b m m₁ begin size := by
  rw [enterContainer_next h (by decide)]
  have hby : enterByType m sdBusTypeArray [b.code] = busMessageEnterArray m m.last [b.code] :=
    if_pos rfl
  rw [hby]
  split_ifs with hdepth
  · refine iff_of_false (fun he => nomatch he) ?_
    rintro ⟨-, _, _, ⟨_, _, hlt, -⟩, -⟩
    exact Nat.not_lt_of_le hdepth hlt
  · constructor
    · intro he
      rcases hx : busMessageEnterArray m m.last [b.code] with r | x
      · rw [hx] at he
        cases he
      · rw [hx] at he
        cases he
        obtain ⟨ri, q, begin, size, hpeek, hmax, hpad, rfl⟩ := (enterArray_iff h).mp hx
        have henters : Enters b m begin size := ⟨ri, q, Nat.lt_of_not_le hdepth, hpeek, hmax, hpad⟩
        exact ⟨rfl, begin, size, henters, henters.entered⟩
    · rintro ⟨rfl, begin, size, ⟨ri, q, -, hpeek, hmax, hpad⟩, ⟨rfl, -, -⟩⟩
      rw [(enterArray_iff h).mpr ⟨ri, q, begin, size, hpeek, hmax, hpad, rfl⟩]
      rfl

theorem ArrayEntered.exits (h : ArrayEntered b m m₁ begin size) :
    ∃ m', sdBusMessageExitContainer { m₁ with rindex := begin + size } = .ok m' := by
  obtain ⟨rfl, -, -⟩ := h
  unfold sdBusMessageExitContainer
  rw [Received.enter]
  dsimp only
  rw [if_neg (fun hf => hf.1 rfl), if_neg (fun hf => hf.2 rfl)]
  exact ⟨_, rfl⟩

theorem Enters.unique {begin' size' : Nat} (h : Enters b m begin size)
    (h' : Enters b m begin' size') : begin' = begin ∧ size' = size := by
  obtain ⟨ri, q, -, hpeek, -, hpad⟩ := h
  obtain ⟨ri', q', -, hpeek', -, hpad'⟩ := h'
  rw [hpeek, Except.ok.injEq, Prod.mk.injEq] at hpeek'
  obtain ⟨rfl, rfl⟩ := hpeek'
  rw [hpad, Except.ok.injEq, Prod.mk.injEq] at hpad'
  exact ⟨hpad'.2.symm, rfl⟩

theorem ArrayEntered.peek (h : ArrayEntered b m m₁ begin size) :
    (if m₁.last.arraySize = 0 then .ok ([], m₁.rindex)
      else bufferPeek m₁.body m₁.rindex b.align m₁.last.arraySize) =
      if m.body.length < begin + size then (.error .ebadmsg : Except Errno (Bytes × Nat))
      else .ok (slice m.body begin size, begin + size) := by
  obtain ⟨-, hri, -, hbody, hsize⟩ := h.inArray
  rw [hri, hbody, hsize]
  split
  · next h0 =>
    rw [h0, Nat.add_zero, if_neg (Nat.not_lt_of_le h.inBody), slice, List.take_zero]
  · exact bufferPeek_of_dvd b.align_pos h.aligned

theorem readArray_iff {native : Endian} (hn : m.endian = native)
    (htrivial : busTypeIsTrivial b.code = true) (h : m.Next (.array (.basic b))) {p : Bytes} :
    sdBusMessageReadArray native m b.code = .ok (some p, m') ↔
      ∃ m₁ begin size, Enters b m begin size ∧ ArrayEntered b m m₁ begin size ∧
        begin + size ≤ m.body.length ∧ p = slice m.body begin size ∧
        sdBusMessageExitContainer { m₁ with rindex := begin + size } = .ok m' := by
  unfold sdBusMessageReadArray
  rw [htrivial, if_neg (Ne.symm Bool.false_ne_true), if_neg (not_not.mpr hn)]
  rcases he : sdBusMessageEnterContainer m sdBusTypeArray [b.code] with r | ⟨ok, m₁⟩
  · refine iff_of_false (fun hr => nomatch hr) ?_
    rintro ⟨m₁, begin, size, henters, hm, -⟩
    rw [(enterContainer_iff h).mpr ⟨rfl, begin, size, henters, hm⟩] at he
    cases he
  · obtain ⟨rfl, begin, size, henters, hm⟩ := (enterContainer_iff h).mp he
    dsimp only
    rw [busTypeGetAlignment_code]
    dsimp only
    rw [hm.peek]
    constructor
    · intro hr
      rcases Nat.lt_or_ge m.body.length (begin + size) with hlt | hle
      · rw [if_pos hlt] at hr
        cases hr
      · rw [if_neg (Nat.not_lt_of_le hle)] at hr
        dsimp only at hr
        split at hr
        · cases hr
        · next hexit =>
          simp only [Except.ok.injEq, Prod.mk.injEq, Option.some.injEq] at hr
          obtain ⟨rfl, rfl⟩ := hr
          exact ⟨m₁, begin, size, henters, hm, hle, rfl, hexit⟩
    · rintro ⟨m₁', begin', size', henters', hm', hle, rfl, hexit⟩
      obtain ⟨rfl, rfl⟩ := henters.unique henters'
      obtain rfl : m₁' = m₁ := hm'.eq.trans hm.eq.symm
      rw [if_neg (Nat.not_lt_of_le hle)]
      dsimp only
      rw [hexit]

theorem elementsRead_entered (hb : b.Trivial) (h : m.Next (.array (.basic b))) {es : List Bytes}
    (hr : ElementsRead b.code m es m') :
    ∃ m₁ begin size, Enters b m begin size ∧ ArrayEntered b m m₁ begin size ∧
      begin + size ≤ m.body.length ∧ b.align ∣ size ∧ es.flatten = slice m.body begin size ∧
      sdBusMessageExitContainer { m₁ with rindex := begin + size } = .ok m' := by
  obtain ⟨m₁, m₂, he, hes, hexit⟩ := hr
  obtain ⟨-, begin, size, henters, hm⟩ := (enterContainer_iff h).mp he
  obtain ⟨hin, hri, hend, hbody, -⟩ := hm.inArray
  obtain ⟨p, rfl, hle, hd, -, hinBody, hflat⟩ := hes.inv hb hin
  rw [hri, hbody] at hinBody hflat
  -- The array can be left at its end only.
  have hp : p = begin + size := by
    obtain ⟨rfl, -, -⟩ := hm
    by_contra hne
    unfold sdBusMessageExitContainer at hexit
    rw [Received.enter] at hexit
    dsimp only at hexit
    rw [if_neg (fun hf => hf.1 rfl), if_pos ⟨rfl, Ne.symm hne⟩] at hexit
    cases hexit
  subst hp
  refine ⟨m₁, begin, size, henters, hm, ?_, ?_, ?_, hexit⟩
  · rcases hinBody with hstay | hle
    · rw [hstay]
      exact hm.inBody
    · exact hle
  · exact (Nat.dvd_add_right hm.aligned).mp hd
  · rw [hflat, Nat.add_sub_cancel_left]

theorem elementsRead_of_entered (hb : b.Trivial) (h : m.Next (.array (.basic b)))
    (he : Enters b m begin size) (hm : ArrayEntered b m m₁ begin size)
    (hle : begin + size ≤ m.body.length) (hd : b.align ∣ size)
    (hexit : sdBusMessageExitContainer { m₁ with rindex := begin + size } = .ok m') :
    ∃ es, ElementsRead b.code m es m' ∧ es.flatten = slice m.body begin size := by
  obtain ⟨hin, hri, hend, hbody, -⟩ := hm.inArray
  obtain ⟨k, rfl⟩ := hd
  obtain ⟨es, hes, hflat⟩ := hin.readElements hb k (by rw [hri, hend, Nat.mul_comm])
    (by rw [hend, hbody]; exact hle)
  rw [hend] at hes
  rw [hri, hbody, Nat.mul_comm] at hflat
  exact ⟨es, ⟨m₁, _, (enterContainer_iff h).mpr ⟨rfl, begin, _, he, hm⟩, hes, hexit⟩, hflat⟩

/-- What the fast reader yields is what the element reader does, and where it stops. -/
def ReadsAlike (native : Endian) (type : UInt8) (m : Received) : Prop :=
  ∀ p m', sdBusMessageReadArray native m type = .ok (some p, m') ↔
    ∃ es, ElementsRead type m es m' ∧ p = es.flatten

/-- At an array of numbers the two readers agree if and only if the length is a multiple of the
element size or the array does not fit into the body. -/
theorem sdBusMessageReadArray_alike (native : Endian) (m : Received) (type : UInt8)
    (hn : m.endian = native) (ht : busTypeIsTrivial type = true)
    (hp : sdBusMessagePeekType m = .ok (some (sdBusTypeArray, some [type]))) :
    ReadsAlike native type m ↔ WholeElements type m := by
  obtain ⟨b, rfl, hb⟩ := ofCode_of_trivial ht
  have hnext := next_of_peekType hp
  constructor
  · intro hlaw size ri align q begin hdepth hpeek hmax halign hpad
    rw [busTypeGetAlignment_code, Option.some.injEq] at halign
    subst halign
    rcases Nat.lt_or_ge m.body.length (begin + size) with hlt | hle
    · exact .inr hlt
    · have henters : Enters b m begin size := ⟨ri, q, hdepth, hpeek, hmax, hpad⟩
      -- The fast reader succeeds here, so the element reader does.
      obtain ⟨m', hexit⟩ := henters.entered.exits
      obtain ⟨es, hes, -⟩ := (hlaw _ m').mp
        ((readArray_iff hn ht hnext).mpr ⟨_, begin, size, henters, henters.entered, hle, rfl, hexit⟩)
      obtain ⟨-, begin', size', henters', -, -, hd, -⟩ := elementsRead_entered hb hnext hes
      obtain ⟨-, rfl⟩ := henters.unique henters'
      exact .inl hd
  · intro hwhole p m'
    rw [readArray_iff hn ht hnext]
    constructor
    · rintro ⟨m₁, begin, size, henters, hm, hle, rfl, hexit⟩
      have hd : b.align ∣ size := by
        obtain ⟨ri, q, hdepth, hpeek, hmax, hpad⟩ := henters
        refine (hwhole size ri b.align q begin hdepth hpeek hmax (busTypeGetAlignment_code b)
          hpad).resolve_right (Nat.not_lt_of_le hle)
      obtain ⟨es, hes, hflat⟩ := elementsRead_of_entered hb hnext henters hm hle hd hexit
      exact ⟨es, hes, hflat.symm⟩
    · rintro ⟨es, hes, rfl⟩
      obtain ⟨m₁, begin, size, henters, hm, hle, -, hflat, hexit⟩ := elementsRead_entered hb hnext hes
      exact ⟨m₁, begin, size, henters, hm, hle, hflat, hexit⟩

def numbersMessage (body : Bytes) : Received :=
  { endian := .little, header := { type := 1 }, body := body
    root := { signature := some [sdBusTypeArray, sdBusTypeUint32] } }

theorem sdBusMessageReadArray_alike_whole :
    ReadsAlike .little sdBusTypeUint32 (numbersMessage [4, 0, 0, 0, 7, 0, 0, 0]) := by
  refine (sdBusMessageReadArray_alike .little _ _ rfl (by decide) (by decide +kernel)).mpr ?_
  intro size ri align q begin _ hpeek _ halign _
  have hword : peekUint32 .little [4, 0, 0, 0, 7, 0, 0, 0] 0 = .ok (4, 4) := by decide
  obtain ⟨rfl, rfl⟩ := Prod.mk.inj (Except.ok.inj (hword.symm.trans hpeek))
  obtain rfl : 4 = align := Option.some.inj halign
  exact .inl dvd_rfl

/-- Five bytes are read at once, but they are no numbers. -/
theorem not_sdBusMessageReadArray_alike :
    busTypeIsTrivial sdBusTypeUint32 = true ∧
    sdBusMessagePeekType (numbersMessage [5, 0, 0, 0, 1, 2, 3, 4, 5]) =
      .ok (some (sdBusTypeArray, some [sdBusTypeUint32])) ∧
    ¬ReadsAlike .little sdBusTypeUint32 (numbersMessage [5, 0, 0, 0, 1, 2, 3, 4, 5]) := by
  have hp : sdBusMessagePeekType (numbersMessage [5, 0, 0, 0, 1, 2, 3, 4, 5]) =
      .ok (some (sdBusTypeArray, some [sdBusTypeUint32])) := by decide +kernel
  refine ⟨by decide, hp, fun hlaw => ?_⟩
  have hfast : (sdBusMessageReadArray .little (numbersMessage [5, 0, 0, 0, 1, 2, 3, 4, 5])
      sdBusTypeUint32).map Prod.fst = .ok (some [1, 2, 3, 4, 5]) := by decide +kernel
  obtain ⟨m', hm'⟩ : ∃ m', sdBusMessageReadArray .little
      (numbersMessage [5, 0, 0, 0, 1, 2, 3, 4, 5]) sdBusTypeUint32 =
        .ok (some [1, 2, 3, 4, 5], m') := by
    rcases hr : sdBusMessageReadArray .little (numbersMessage [5, 0, 0, 0, 1, 2, 3, 4, 5])
      sdBusTypeUint32 with r | ⟨p, m'⟩
    · rw [hr] at hfast
      cases hfast
    · rw [hr] at hfast
      exact ⟨m', by rw [show p = _ from Except.ok.inj hfast]⟩
  obtain ⟨es, hes, -⟩ := (hlaw _ m').mp hm'
  obtain ⟨-, begin, size, ⟨ri, q, -, hpeek, -⟩, -, -, hd, -⟩ :=
    elementsRead_entered (b := .num .uint32) (.inl ⟨_, rfl⟩) (next_of_peekType hp) hes
  have hword : peekUint32 .little [5, 0, 0, 0, 1, 2, 3, 4, 5] 0 = .ok (5, 4) := by decide
  obtain ⟨rfl, -⟩ := Prod.mk.inj (Except.ok.inj (hword.symm.trans hpeek))
  exact absurd hd (by decide)

end Basu
