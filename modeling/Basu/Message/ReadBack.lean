import Basu.Message.Cursor
import Basu.Message.Encode

/-! Values that stand in the body of a received message are read back. `Val.Stands` is the wire
format read as a property of a body; `Val.Readable` collects the limits that only the read side
enforces. -/

namespace Basu
open Lib

def BasicVal.Stands (e : Endian) (bs : Bytes) : BasicVal → Nat → Prop
  | .boolean x, p =>
    ∃ w, w < 256 ^ 4 ∧ At bs p (zeros (padTo p 4) ++ putWord e 4 w) ∧ x = decide (w ≠ 0)
  | v, p => At bs p (v.enc e p)

mutual

def Val.Stands (e : Endian) (bs : Bytes) : Val → Nat → Prop
  | .basic v, p => v.Stands e bs p
  | .variant v, p =>
    At bs p (sigBytes v.ty.sig) ∧ v.Stands e bs (p + (sigBytes v.ty.sig).length)
  | .array t vs, p =>
    At bs p (arrayHead e t p (Val.encs e vs (arrayStart t p)).length) ∧
      Val.AllStand e bs vs (arrayStart t p)
  | .struct vs, p => At bs p (zeros (padTo p 8)) ∧ Val.AllStand e bs vs (alignUp p 8)
  | .dictEntry k v, p =>
    At bs p (zeros (padTo p 8)) ∧ k.Stands e bs (alignUp p 8) ∧
      v.Stands e bs (alignUp p 8 + (k.enc e (alignUp p 8)).length)

def Val.AllStand (e : Endian) (bs : Bytes) : List Val → Nat → Prop
  | [], _ => True
  | v :: vs, p => v.Stands e bs p ∧ Val.AllStand e bs vs (p + (v.enc e p).length)

end

def BasicVal.Clean : BasicVal → Prop
  | .string s | .objectPath s | .signature s => (0 : UInt8) ∉ s
  | .unixFd i => i < 256 ^ 4
  | _ => True

mutual

def Val.Clean : Val → Prop
  | .basic v => v.Clean
  | .variant v => v.Clean
  | .array _ vs => Val.AllClean vs
  | .struct vs => Val.AllClean vs
  | .dictEntry k v => k.Clean ∧ v.Clean

def Val.AllClean : List Val → Prop
  | [] => True
  | v :: vs => v.Clean ∧ Val.AllClean vs

end

/-- What `read_basic` asks of a value, in a message with `nfds` descriptors. -/
def BasicVal.readable (nfds : Nat) : BasicVal → Bool
  | .string s => utf8IsValid s
  | .objectPath s => objectPathIsValid s
  | .signature s => validSignature s && s.length ≤ 254
  | .unixFd i => i < nfds
  | _ => true

mutual

def Val.Readable (e : Endian) (nfds : Nat) : Val → Nat → Nat → Prop
  | .basic v, _, _ => v.readable nfds = true
  | .variant v, p, d =>
    d < busContainerDepth ∧ v.ty.sig.length ≤ 254 ∧
      v.Readable e nfds (p + (sigBytes v.ty.sig).length) (d + 1)
  | .array t vs, p, d =>
    d < busContainerDepth ∧ (Val.encs e vs (arrayStart t p)).length ≤ busArrayMaxSize ∧
      Val.AllReadable e nfds vs (arrayStart t p) (d + 1)
  | .struct vs, p, d =>
    d < busContainerDepth ∧ Val.AllReadable e nfds vs (alignUp p 8) (d + 1)
  | .dictEntry k v, p, d =>
    d < busContainerDepth ∧ k.readable nfds = true ∧
      v.Readable e nfds (alignUp p 8 + (k.enc e (alignUp p 8)).length) (d + 1)

def Val.AllReadable (e : Endian) (nfds : Nat) : List Val → Nat → Nat → Prop
  | [], _, _ => True
  | v :: vs, p, d =>
    v.Readable e nfds p d ∧ Val.AllReadable e nfds vs (p + (v.enc e p).length) d

end

theorem BasicVal.Stands.le_length {e : Endian} {bs : Bytes} {v : BasicVal} {p : Nat}
    (h : v.Stands e bs p) : p + (v.enc e p).length ≤ bs.length := by
  cases v with
  | boolean x =>
    obtain ⟨w, -, hat, -⟩ := h
    have := hat.le_length
    simpa [BasicVal.enc, BasicVal.payload, BasicVal.type, Basic.align] using this
  | _ => exact At.le_length h

theorem BasicVal.stands_of_at {e : Endian} {bs : Bytes} {v : BasicVal} {p : Nat}
    (h : At bs p (v.enc e p)) : v.Stands e bs p := by
  cases v with
  | boolean x => exact ⟨x.toNat, by cases x <;> decide, h, by cases x <;> rfl⟩
  | _ => exact h

theorem readBasicValue_at {m : Received} {v : BasicVal} (h : v.Stands m.endian m.body m.rindex)
    (hc : v.Clean) (hb : m.body.length ≤ uint32Max) (hr : v.readable m.fds.length = true) :
    readBasicValue m v.type =
      .ok (v.resolve m.fds, m.rindex + (v.enc m.endian m.rindex).length) := by
  have hlen := v.length_enc m.endian m.rindex
  have hle := h.le_length
  cases v with
  | num t x =>
    have hat : At m.body m.rindex (zeros (padTo m.rindex t.size) ++
      putWord m.endian t.size x.toNat) := h
    have hx : x.toNat < 256 ^ t.size := by
      have := x.isLt
      rwa [Nat.pow_mul] at this
    have hp := bufferPeek_at t.size_pos (length_putWord m.endian t.size x.toNat) hat
    simp only [BasicVal.type, readBasicValue, hp, Except.map, getWord_putWord_of_lt m.endian hx,
      BitVec.ofNat_toNat, BitVec.setWidth_eq, BasicVal.resolve]
    rw [hlen]
    simp [BasicVal.type, Basic.align, BasicVal.payload]
  | boolean x =>
    obtain ⟨w, hw, hat, rfl⟩ := h
    have hp := peekUint32_at hw hat
    simp only [BasicVal.type, readBasicValue, hp, Except.map, BasicVal.resolve]
    rw [hlen]
    simp [BasicVal.type, Basic.align, BasicVal.payload]
  | string s =>
    have hs : s.length < uint32Max := by
      simp only [BasicVal.payload, strBytes, List.length_append, length_putWord,
        List.length_singleton] at hlen
      omega
    have hp := peekString_at utf8IsValid h hc hs
    rw [if_pos (by simpa [BasicVal.readable] using hr)] at hp
    simp only [BasicVal.type, readBasicValue, hp, Except.map, BasicVal.resolve]
    rw [hlen]
    rfl
  | objectPath s =>
    have hs : s.length < uint32Max := by
      simp only [BasicVal.payload, strBytes, List.length_append, length_putWord,
        List.length_singleton] at hlen
      omega
    have hp := peekString_at objectPathIsValid h hc hs
    rw [if_pos (by simpa [BasicVal.readable] using hr)] at hp
    simp only [BasicVal.type, readBasicValue, hp, Except.map, BasicVal.resolve]
    rw [hlen]
    rfl
  | signature s =>
    have hat : At m.body m.rindex (sigBytes s) := by
      simpa [BasicVal.Stands, BasicVal.enc, BasicVal.type, BasicVal.payload, Basic.align,
        padTo_one] using h
    simp only [BasicVal.readable, Bool.and_eq_true, decide_eq_true_eq] at hr
    have hp := peekSignature_at hat hc hr.2
    rw [if_pos hr.1] at hp
    simp only [BasicVal.type, readBasicValue, hp, Except.map, BasicVal.resolve]
    rw [hlen]
    simp [BasicVal.type, Basic.align, BasicVal.payload, alignUp_one]
  | unixFd i =>
    have hp := peekUint32_at hc h
    have hi : i < m.fds.length := by simpa [BasicVal.readable] using hr
    simp only [BasicVal.type, readBasicValue, hp, List.getElem?_eq_getElem hi, BasicVal.resolve]
    rw [hlen]
    simp [BasicVal.type, Basic.align, BasicVal.payload, hi]

theorem readable_of_readBasicValue {m : Received} {v : BasicVal} {r : BasicVal × Nat}
    (h : v.Stands m.endian m.body m.rindex) (hc : v.Clean) (hb : m.body.length ≤ uint32Max)
    (hr : readBasicValue m v.type = .ok r) : v.readable m.fds.length = true := by
  have hlen := v.length_enc m.endian m.rindex
  have hle := h.le_length
  have hstr : ∀ {s : Str} {validate : Str → Bool} {f : Str × Nat → BasicVal × Nat},
      At m.body m.rindex (zeros (padTo m.rindex 4) ++ strBytes m.endian s) → (0 : UInt8) ∉ s →
      (peekString m.endian validate m.body m.rindex).map f = .ok r → validate s = true := by
    intro s validate f hat h0 hok
    have hs : s.length < uint32Max := by
      have := hat.le_length
      simp only [strBytes, List.length_append, length_putWord, List.length_singleton] at this
      omega
    rw [peekString_at validate hat h0 hs] at hok
    by_contra hv
    rw [if_neg hv] at hok
    exact absurd hok (by simp [Except.map])
  cases v with
  | num t x => rfl
  | boolean x => rfl
  | string s => exact hstr h hc hr
  | objectPath s => exact hstr h hc hr
  | signature s =>
    have hat : At m.body m.rindex (sigBytes s) := by
      simpa [BasicVal.Stands, BasicVal.enc, BasicVal.type, BasicVal.payload, Basic.align,
        padTo_one] using h
    simp only [BasicVal.type, readBasicValue] at hr
    by_cases hl : s.length ≤ 254
    · rw [peekSignature_at hat hc hl] at hr
      by_cases hv : validSignature s = true
      · simp [BasicVal.readable, hv, hl]
      · rw [if_neg hv] at hr
        exact absurd hr (by simp [Except.map])
    · cases hs : peekSignature m.body m.rindex with
      | error x => rw [hs] at hr; exact absurd hr (by simp [Except.map])
      | ok x => exact absurd hs (peekSignature_long hat hc (by omega) x)
  | unixFd i =>
    have hp := peekUint32_at hc h
    simp only [BasicVal.type, readBasicValue, hp] at hr
    cases hi : m.fds[i]? with
    | none => rw [hi] at hr; exact absurd hr (by simp)
    | some fd =>
      obtain ⟨hi, -⟩ := List.getElem?_eq_some_iff.mp hi
      simpa [BasicVal.readable] using hi

theorem Basic.ofCode_code (b : Basic) : Basic.ofCode b.code = some b := by
  rcases b with (t | _) <;> first | (cases t <;> decide) | decide

theorem readBasic_next {m : Received} {b : Basic} (h : m.Next (.basic b)) :
    sdBusMessageReadBasic m b.code = (readBasicValue m b).map fun (v, ri) =>
      (some v, m.moved ri 1) := by
  have hc : m.last.cur = b.code := h.cur
  simp only [sdBusMessageReadBasic, Basic.ofCode_code, h.endOfSignature, h.1, hc, ne_eq,
    not_true_eq_false, if_false, Bool.false_eq_true]
  cases readBasicValue m b <;> rfl

/-! ## Entering and leaving -/

theorem Received.enter_frame (m : Received) (type : UInt8) (contents : Str) (x : Entered) :
    (m.enter type contents x).endian = m.endian ∧ (m.enter type contents x).body = m.body ∧
      (m.enter type contents x).fds = m.fds ∧ (m.enter type contents x).rindex = x.rindex ∧
      (m.enter type contents x).containers.length = m.containers.length + 1 := by
  have hm := m.moved_frame x.rindex x.skip
  refine ⟨hm.1, hm.2.1, hm.2.2.1, m.moved_rindex _ _, ?_⟩
  have hl := hm.2.2.2.1
  simp only [Received.moved] at hl
  simp [Received.enter, hl]

theorem Received.enter_last (m : Received) (type : UInt8) (contents : Str) (x : Entered) :
    (m.enter type contents x).last =
      { enclosing := type, signature := some contents, begin := x.rindex,
        arraySize := x.arraySize } := rfl

theorem exit_enter {m : Received} {type : UInt8} {contents : Str} {x : Entered} {p : Nat}
    (ha : type = sdBusTypeArray → x.rindex + x.arraySize = p) :
    sdBusMessageExitContainer ((m.enter type contents x).moved p contents.length) =
      .ok (m.moved p x.skip) := by
  have hcur : charAt [] 0 = 0 := rfl
  obtain ⟨e, h, b, r, cs, ri, fs, em⟩ := m
  by_cases ht : type = sdBusTypeArray
  · have hp := ha ht
    cases cs with
    | nil =>
      by_cases hr : r.enclosing = sdBusTypeArray <;>
        simp [Received.enter, Received.moved, Received.advance, Received.last, Received.setLast,
          sdBusMessageExitContainer, ht, hr, hp]
    | cons c cs =>
      by_cases hr : c.enclosing = sdBusTypeArray <;>
        simp [Received.enter, Received.moved, Received.advance, Received.last, Received.setLast,
          sdBusMessageExitContainer, ht, hr, hp]
  · cases cs with
    | nil =>
      by_cases hr : r.enclosing = sdBusTypeArray <;>
        simp [Received.enter, Received.moved, Received.advance, Received.last, Received.setLast,
          sdBusMessageExitContainer, ht, hr, RContainer.cur, RContainer.rest, strempty, hcur]
    | cons c cs =>
      by_cases hr : c.enclosing = sdBusTypeArray <;>
        simp [Received.enter, Received.moved, Received.advance, Received.last, Received.setLast,
          sdBusMessageExitContainer, ht, hr, RContainer.cur, RContainer.rest, strempty, hcur]

/-! ## Containers as a kind and contents -/

/-- What entering asks of a container whose contents take `n` bytes. -/
def Kind.readLimit (k : Kind) (n : Nat) : Prop :=
  match k with
  | .array _ => n ≤ busArrayMaxSize
  | .variant t => t.sig.length ≤ 254
  | _ => True

def Kind.entered (k : Kind) (p n : Nat) : Entered :=
  { arraySize := if k.isArray then n else 0, rindex := k.start p, skip := k.ty.sig.length }

theorem Val.Holds.stands {v : Val} {k : Kind} {vs : List Val} (h : v.Holds k vs) (e : Endian)
    (bs : Bytes) (p : Nat) :
    v.Stands e bs p ↔ At bs p (k.head e p (Val.encs e vs (k.start p)).length) ∧
      Val.AllStand e bs vs (k.start p) := by
  cases h with
  | variant v => simp [Val.Stands, Kind.head, Kind.start, Val.AllStand]
  | array t vs => simp [Val.Stands, Kind.head, Kind.start]
  | struct vs => simp [Val.Stands, Kind.head, Kind.start]
  | dictEntry k v => simp [Val.Stands, Kind.head, Kind.start, Val.AllStand, Val.enc]

theorem Val.Holds.readable {v : Val} {k : Kind} {vs : List Val} (h : v.Holds k vs) (e : Endian)
    (nfds p d : Nat) :
    v.Readable e nfds p d ↔ d < busContainerDepth ∧
      k.readLimit (Val.encs e vs (k.start p)).length ∧
      Val.AllReadable e nfds vs (k.start p) (d + 1) := by
  cases h with
  | variant v => simp [Val.Readable, Kind.readLimit, Kind.start, Val.AllReadable]
  | array t vs => simp [Val.Readable, Kind.readLimit, Kind.start]
  | struct vs => simp [Val.Readable, Kind.readLimit, Kind.start]
  | dictEntry k v => simp [Val.Readable, Kind.readLimit, Kind.start, Val.AllReadable, Val.enc]

theorem Val.Holds.item {v : Val} {k : Kind} {vs : List Val} (h : v.Holds k vs)
    (fds : List Nat) : v.item fds = .container k.enclosing k.contents (Val.items fds vs) := by
  cases h <;> simp [Val.item, Val.items, Kind.enclosing, Kind.contents]

theorem Val.allClean_iff {vs : List Val} : Val.AllClean vs ↔ ∀ v ∈ vs, v.Clean := by
  induction vs with
  | nil => simp [Val.AllClean]
  | cons v vs ih => simp [Val.AllClean, ih]

theorem Val.Holds.clean {v : Val} {k : Kind} {vs : List Val} (h : v.Holds k vs) :
    v.Clean ↔ ∀ w ∈ vs, w.Clean := by
  cases h <;> simp [Val.Clean, Val.allClean_iff]

theorem Val.AllStand.le_length {e : Endian} {bs : Bytes} {vs : List Val} {p : Nat}
    (hv : ∀ v ∈ vs, ∀ p, v.Stands e bs p → p + (v.enc e p).length ≤ bs.length)
    (h : Val.AllStand e bs vs p) (hp : p ≤ bs.length) :
    p + (Val.encs e vs p).length ≤ bs.length := by
  induction vs generalizing p with
  | nil => simpa [Val.encs] using hp
  | cons v vs ih =>
    rw [Val.AllStand] at h
    have h1 := hv v (by simp) p h.1
    have h2 := ih (fun w hw => hv w (by simp [hw])) h.2 h1
    rw [Val.encs, List.length_append]
    omega

theorem Val.Stands.le_length {e : Endian} {bs : Bytes} {v : Val} {p : Nat}
    (h : v.Stands e bs p) : p + (v.enc e p).length ≤ bs.length := by
  induction v using Val.induct generalizing p with
  | basic b =>
    rw [Val.Stands] at h
    simpa [Val.enc] using h.le_length
  | container v k vs hold ih =>
    obtain ⟨hat, hall⟩ := (hold.stands e bs p).mp h
    have hstart := k.length_head e p (Val.encs e vs (k.start p)).length
    have hle := hat.le_length
    have := hall.le_length (fun w hw p hp => ih w hw hp) (by omega)
    rw [hold.enc, List.length_append]
    omega

theorem Val.allStand_of_at {e : Endian} {bs : Bytes} {vs : List Val} {p : Nat}
    (hv : ∀ v ∈ vs, ∀ p, At bs p (v.enc e p) → v.Stands e bs p)
    (h : At bs p (Val.encs e vs p)) : Val.AllStand e bs vs p := by
  induction vs generalizing p with
  | nil =>
    rw [Val.AllStand]
    trivial
  | cons v vs ih =>
    rw [Val.encs, at_append] at h
    rw [Val.AllStand]
    exact ⟨hv v (by simp) p h.1, ih (fun w hw => hv w (by simp [hw])) h.2⟩

theorem Val.stands_of_at {e : Endian} {bs : Bytes} {v : Val} {p : Nat}
    (h : At bs p (v.enc e p)) : v.Stands e bs p := by
  induction v using Val.induct generalizing p with
  | basic b =>
    rw [Val.enc] at h
    rw [Val.Stands]
    exact BasicVal.stands_of_at h
  | container v k vs hold ih =>
    rw [hold.enc, at_append, k.length_head] at h
    exact (hold.stands e bs p).mpr ⟨h.1, Val.allStand_of_at (fun w hw p => ih w hw) h.2⟩

structure Comes (m : Received) (v : Val) : Prop where
  next : m.Next v.ty
  fits : v.ty.Fits (m.last.enclosing = sdBusTypeArray) 0 0
  short : v.ty.sig.length ≤ 255
  made : v.Made
  clean : v.Clean
  stands : v.Stands m.endian m.body m.rindex

structure ComeAll (m : Received) (vs : List Val) : Prop where
  array : m.last.enclosing = sdBusTypeArray → (∀ u ∈ Val.tys vs, m.last.rest = u.sig) ∧
    m.last.begin + m.last.arraySize = m.rindex + (Val.encs m.endian vs m.rindex).length
  other : m.last.enclosing ≠ sdBusTypeArray → m.last.rest = Ty.sigs (Val.tys vs)
  fits : ∀ u ∈ Val.tys vs, u.Fits (m.last.enclosing = sdBusTypeArray) 0 0 ∧ u.sig.length ≤ 255
  made : ∀ v ∈ vs, v.Made
  clean : ∀ v ∈ vs, v.Clean
  stands : Val.AllStand m.endian m.body vs m.rindex

def Received.behind (m : Received) (vs : List Val) : Received :=
  m.moved (m.rindex + (Val.encs m.endian vs m.rindex).length) (Ty.sigs (Val.tys vs)).length

theorem BasicVal.enc_pos (e : Endian) (v : BasicVal) (p : Nat) : 0 < (v.enc e p).length := by
  have h := v.length_enc e p
  have hle := le_alignUp p v.type.align_pos
  have hpay : 0 < (v.payload e).length := by
    cases v with
    | num t x => simpa [BasicVal.payload] using t.size_pos
    | _ => simp [BasicVal.payload, strBytes, sigBytes]
  omega

theorem Val.enc_pos {e : Endian} {v : Val} {p : Nat} {allow : Bool} (h : v.ty.Fits allow 0 0) :
    0 < (v.enc e p).length := by
  suffices hs : ∀ a d allow p, v.ty.Fits allow a d → 0 < (v.enc e p).length from hs 0 0 allow p h
  clear h
  induction v using Val.induct with
  | basic b =>
    intro a d allow p _
    rw [Val.enc]
    exact b.enc_pos e p
  | container v k vs hold ih =>
    intro a d allow p hfit
    rw [hold.enc, List.length_append]
    cases hold with
    | variant v => simp only [Kind.head, length_sigBytes]; omega
    | array t vs =>
      simp only [Kind.head, arrayHead, List.length_append, length_putWord]
      omega
    | struct vs =>
      rw [Val.ty, Ty.Fits] at hfit
      cases vs with
      | nil => exact absurd rfl hfit.2.1
      | cons w ws =>
        have hw := hfit.2.2
        rw [Val.tys, Ty.AllFit] at hw
        have := ih w (by simp) a (d + 1) false (Kind.start (.struct (Val.tys (w :: ws))) p) hw.1
        rw [Val.encs, List.length_append]
        omega
    | dictEntry k v =>
      have := k.enc_pos e (Kind.start (.dictEntry k.type v.ty) p)
      rw [Val.encs, List.length_append, Val.enc]
      omega

theorem Received.moved_same (m : Received) : m.moved m.rindex 0 = m := by
  obtain ⟨e, h, b, r, cs, ri, fs, em⟩ := m
  cases cs with
  | nil =>
    by_cases hr : r.enclosing = sdBusTypeArray <;>
      simp [Received.moved, Received.advance, Received.last, Received.setLast, hr]
  | cons c cs =>
    by_cases hc : c.enclosing = sdBusTypeArray <;>
      simp [Received.moved, Received.advance, Received.last, Received.setLast, hc]

theorem ComeAll.peek_nil {m : Received} (h : ComeAll m []) :
    sdBusMessagePeekType m = .ok none := by
  have hend : (messageEndOfSignature m || messageEndOfArray m) = true := by
    by_cases ha : m.last.enclosing = sdBusTypeArray
    · have := (h.array ha).2
      simp only [Val.encs, List.length_nil, Nat.add_zero] at this
      simp [messageEndOfArray, ha, this]
    · have := h.other ha
      simp only [Val.tys, Ty.sigs] at this
      simp [messageEndOfSignature, RContainer.cur, this, charAt]
  simp only [sdBusMessagePeekType, hend, if_true]

theorem ComeAll.cons {m : Received} {v : Val} {vs : List Val} (h : ComeAll m (v :: vs)) :
    Comes m v ∧ ComeAll (m.moved (m.rindex + (v.enc m.endian m.rindex).length)
      v.ty.sig.length) vs := by
  have hfit := h.fits
  simp only [Val.tys, List.mem_cons, forall_eq_or_imp] at hfit
  have hst := h.stands
  rw [Val.AllStand] at hst
  have hpos := Val.enc_pos (e := m.endian) (p := m.rindex) hfit.1.1
  obtain ⟨he, hb, -, -, -⟩ := m.moved_frame
    (m.rindex + (v.enc m.endian m.rindex).length) v.ty.sig.length
  have hri := m.moved_rindex (m.rindex + (v.enc m.endian m.rindex).length) v.ty.sig.length
  have hlast := m.moved_last (m.rindex + (v.enc m.endian m.rindex).length) v.ty.sig.length
  by_cases ha : m.last.enclosing = sdBusTypeArray
  · rw [if_pos ha] at hlast
    obtain ⟨hty, hlen⟩ := h.array ha
    simp only [Val.tys, List.mem_cons, forall_eq_or_imp] at hty
    rw [Val.encs, List.length_append] at hlen
    refine ⟨⟨⟨?_, [], by simpa using hty.1⟩, hfit.1.1, hfit.1.2, h.made v (by simp),
      h.clean v (by simp), hst.1⟩, ⟨fun _ => ⟨?_, ?_⟩, fun hn => ?_, ?_,
      fun w hw => h.made w (by simp [hw]), fun w hw => h.clean w (by simp [hw]), ?_⟩⟩
    · simp only [messageEndOfArray, Bool.and_eq_false_iff, decide_eq_false_iff_not]
      right
      omega
    · rw [hlast]
      exact hty.2
    · rw [hlast, hri, he]
      omega
    · rw [hlast] at hn
      exact absurd ha hn
    · rw [hlast]
      exact hfit.2
    · rw [hri, he, hb]
      exact hst.2
  · rw [if_neg ha] at hlast
    have hrest := h.other ha
    rw [Val.tys, Ty.sigs] at hrest
    have hskip := RContainer.rest_skip hrest
    refine ⟨⟨⟨?_, _, hrest⟩, hfit.1.1, hfit.1.2, h.made v (by simp), h.clean v (by simp),
      hst.1⟩, ⟨fun hn => ?_, fun _ => ?_, ?_, fun w hw => h.made w (by simp [hw]),
      fun w hw => h.clean w (by simp [hw]), ?_⟩⟩
    · simp [messageEndOfArray, ha]
    · rw [hlast] at hn
      exact absurd hn ha
    · rw [hlast]
      exact hskip
    · rw [hlast]
      exact hfit.2
    · rw [hri, he, hb]
      exact hst.2

theorem Received.behind_cons (m : Received) (v : Val) (vs : List Val) :
    m.behind (v :: vs) = (m.moved (m.rindex + (v.enc m.endian m.rindex).length)
      v.ty.sig.length).behind vs := by
  obtain ⟨he, -, -, -, -⟩ := m.moved_frame
    (m.rindex + (v.enc m.endian m.rindex).length) v.ty.sig.length
  have hri := m.moved_rindex (m.rindex + (v.enc m.endian m.rindex).length) v.ty.sig.length
  rw [Received.behind, Received.behind, hri, he, Received.moved_moved, Val.encs, Val.tys, Ty.sigs,
    List.length_append, List.length_append, Nat.add_assoc]

theorem Received.behind_nil (m : Received) : m.behind [] = m := by
  rw [Received.behind, Val.encs, Val.tys, Ty.sigs, List.length_nil, Nat.add_zero,
    Received.moved_same]

/-! ## Entering a container that comes next -/

theorem Fits_array_elem {t : Ty} {allow : Bool} (h : (Ty.array t).Fits allow 0 0) :
    t.Fits true 0 0 := by
  rw [Ty.Fits] at h
  exact h.2.mono id (by omega) (Nat.le_refl 0)

theorem Fits_struct_members {ts : List Ty} {allow : Bool} (h : (Ty.struct ts).Fits allow 0 0) :
    ∀ t ∈ ts, t.Fits false 0 0 := by
  rw [Ty.Fits] at h
  intro t ht
  exact (Ty.allFit_iff.mp h.2.2 t ht).mono id (Nat.le_refl 0) (by omega)

theorem enterByType_enclosing (m : Received) (k : Kind) (s : Str) :
    enterByType m k.enclosing s = match k with
      | .array _ => busMessageEnterArray m m.last s
      | .variant _ => busMessageEnterVariant m m.last s
      | .struct _ => busMessageEnterStruct m m.last s
      | .dictEntry _ _ => busMessageEnterDictEntry m m.last s := by
  cases k <;> rfl

theorem Comes.enter {m : Received} {v : Val} {k : Kind} {vs : List Val} (h : Comes m v)
    (hold : v.Holds k vs) (hb : m.body.length ≤ uint32Max)
    (hl : k.readLimit (Val.encs m.endian vs (k.start m.rindex)).length) :
    sdBusMessagePeekType m = .ok (some (k.enclosing, some k.contents)) ∧
    enterByType m k.enclosing k.contents =
      .ok (k.entered m.rindex (Val.encs m.endian vs (k.start m.rindex)).length) := by
  have hnext := h.next
  have hfits := h.fits
  have hshort := h.short
  rw [hold.ty] at hnext hfits hshort
  have hfits' : k.ty.Fits true 0 0 := hfits.mono (by simp) (Nat.le_refl 0) (Nat.le_refl 0)
  have hat := ((hold.stands _ _ _).mp h.stands).1
  have hle := h.stands.le_length
  rw [hold.enc, List.length_append] at hle
  have h256 : (256 : Nat) ^ 4 = uint32Max + 1 := by decide
  obtain ⟨hvalid, -, -, -⟩ := hold.made h.made
  cases k with
  | array t =>
    have ht := Fits_array_elem hfits
    refine ⟨peekType_array hnext ht, ?_⟩
    rw [enterByType_enclosing]
    simp only [Kind.contents]
    rw [enterArray_at hnext ht (by omega) hat, if_neg (by simpa [Kind.readLimit] using hl)]
    simp only [Kind.entered, Kind.isArray, Kind.start, Kind.ty, Ty.sig, List.length_cons, if_true,
      Nat.add_comm]
  | variant t =>
    have hvs : validSignature t.sig = true := by
      rw [validSignature, signatureIsValid_iff t.zero_notMem_sig]
      refine ⟨[t], (Ty.sigs_singleton t).symm, ?_, by simp only [Kind.readLimit] at hl; omega⟩
      simpa using Ty.Fits.mono hvalid (by simp) (Nat.le_refl 0) (Nat.le_refl 0)
    refine ⟨?_, ?_⟩
    · rw [peekType_variant hnext, peekSignature_at hat t.zero_notMem_sig hl, if_pos hvs]
      rfl
    · rw [enterByType_enclosing]
      simp only [Kind.contents]
      rw [enterVariant_at hnext hvalid hl hat]
      simp only [Kind.entered, Kind.isArray, Kind.start, Kind.ty, Ty.sig, List.length_singleton]
      rfl
  | struct ts =>
    refine ⟨peekType_struct hnext hfits', ?_⟩
    rw [enterByType_enclosing]
    simp only [Kind.contents]
    have hlen : (Ty.sigs ts).length ≤ 255 := by
      simp only [Kind.ty, Ty.sig, List.length_cons, List.length_append, List.length_nil] at hshort
      omega
    rw [enterStruct_at hnext (Fits_struct_members hfits) hlen hat]
    simp only [Kind.entered, Kind.isArray, Kind.start, Kind.ty, Ty.sig, List.length_cons,
      List.length_append, List.length_nil]
    congr 2
    omega
  | dictEntry b w =>
    refine ⟨peekType_dictEntry hnext hfits', ?_⟩
    rw [enterByType_enclosing]
    simp only [Kind.contents]
    simp only [Kind.ty, Ty.Fits, decide_eq_true_eq] at hfits
    rw [enterDictEntry_at hnext hfits.1 hvalid hat]
    simp only [Kind.entered, Kind.isArray, Kind.start, Kind.ty, Ty.sig, List.length_cons,
      List.length_append, List.length_nil]
    congr 2
    omega

theorem Comes.limit {m : Received} {v : Val} {k : Kind} {vs : List Val} (h : Comes m v)
    (hold : v.Holds k vs) (hb : m.body.length ≤ uint32Max) {type : UInt8} {contents : Str}
    {x : Entered} (hp : sdBusMessagePeekType m = .ok (some (type, some contents)))
    (he : enterByType m type contents = .ok x) :
    k.readLimit (Val.encs m.endian vs (k.start m.rindex)).length := by
  have hnext := h.next
  have hfits := h.fits
  rw [hold.ty] at hnext hfits
  have hat := ((hold.stands _ _ _).mp h.stands).1
  have hle := h.stands.le_length
  rw [hold.enc, List.length_append] at hle
  have h256 : (256 : Nat) ^ 4 = uint32Max + 1 := by decide
  cases k with
  | array t =>
    have ht := Fits_array_elem hfits
    have hpk := peekType_array hnext ht
    rw [hpk] at hp
    simp only [Except.ok.injEq, Option.some.injEq, Prod.mk.injEq] at hp
    obtain ⟨rfl, rfl⟩ := hp
    have hty : sdBusTypeArray = (Kind.array t).enclosing := rfl
    rw [hty, enterByType_enclosing] at he
    simp only at he
    rw [enterArray_at hnext ht (by omega) hat] at he
    split_ifs at he with hmax
    simpa [Kind.readLimit] using hmax
  | variant t =>
    rw [peekType_variant hnext] at hp
    by_contra hl
    cases hs : peekSignature m.body m.rindex with
    | error r => rw [hs] at hp; exact absurd hp (by simp [Except.map])
    | ok r =>
      refine peekSignature_long hat t.zero_notMem_sig ?_ r hs
      simp only [Kind.readLimit] at hl
      omega
  | struct ts => trivial
  | dictEntry b w => trivial

theorem Comes.contents {m : Received} {v : Val} {k : Kind} {vs : List Val} (h : Comes m v)
    (hold : v.Holds k vs)
    (hl : k.readLimit (Val.encs m.endian vs (k.start m.rindex)).length) :
    ComeAll (m.enter k.enclosing k.contents
      (k.entered m.rindex (Val.encs m.endian vs (k.start m.rindex)).length)) vs := by
  obtain ⟨he, hbody, -, hri, -⟩ := m.enter_frame k.enclosing k.contents
    (k.entered m.rindex (Val.encs m.endian vs (k.start m.rindex)).length)
  obtain ⟨hvalid, hmem, helem, hmade⟩ := hold.made h.made
  have hfits := h.fits
  have hshort := h.short
  rw [hold.ty] at hfits hshort
  have hstands := ((hold.stands _ _ _).mp h.stands).2
  refine ⟨?_, ?_, ?_, hmade, hold.clean.mp h.clean, ?_⟩
  · rw [Received.enter_last]
    intro hk
    have hk' := k.enclosing_eq_array.mp hk
    cases k with
    | array t =>
      refine ⟨fun u hu => by rw [helem t rfl u hu]; rfl, ?_⟩
      rw [hri, he]
      rfl
    | _ => exact absurd hk' (by simp [Kind.isArray])
  · rw [Received.enter_last]
    intro hk
    cases k with
    | array t => exact absurd rfl hk
    | _ =>
      rw [hmem rfl, ← Kind.contents_eq _ rfl]
      rfl
  · rw [Received.enter_last]
    intro u hu
    cases k with
    | array t =>
      rw [helem t rfl u hu]
      refine ⟨(Fits_array_elem hfits).mono (by simp [Kind.enclosing]) (Nat.le_refl 0)
        (Nat.le_refl 0), ?_⟩
      simp only [Kind.ty, Ty.sig, List.length_cons] at hshort
      omega
    | variant t =>
      rw [hmem rfl, Kind.members, List.mem_singleton] at hu
      rw [hu]
      refine ⟨Ty.Fits.mono hvalid (by simp) (Nat.le_refl 0) (Nat.le_refl 0), ?_⟩
      simp only [Kind.readLimit] at hl
      omega
    | struct ts =>
      rw [hmem rfl, Kind.members] at hu
      refine ⟨(Fits_struct_members hfits u hu).mono (by simp) (Nat.le_refl 0) (Nat.le_refl 0), ?_⟩
      have : u.sig.length ≤ (Ty.sigs ts).length := Ty.sig_length_le hu
      simp only [Kind.ty, Ty.sig, List.length_cons, List.length_append] at hshort
      omega
    | dictEntry b w =>
      rw [hmem rfl, Kind.members] at hu
      simp only [Kind.ty, Ty.sig, List.length_cons, List.length_append] at hshort
      simp only [List.mem_cons, List.not_mem_nil, or_false] at hu
      rcases hu with rfl | rfl
      · exact ⟨by rw [Ty.Fits]; trivial, by rw [Ty.sig]; simp⟩
      · exact ⟨Ty.Fits.mono hvalid (by simp) (Nat.le_refl 0) (Nat.le_refl 0), by omega⟩
  · rw [hri, he, hbody]
    exact hstands

theorem Comes.exit {m : Received} {v : Val} {k : Kind} {vs : List Val}
    (hold : v.Holds k vs) (hm : v.Made) :
    sdBusMessageExitContainer ((m.enter k.enclosing k.contents
      (k.entered m.rindex (Val.encs m.endian vs (k.start m.rindex)).length)).behind vs) =
      .ok (m.moved (m.rindex + (v.enc m.endian m.rindex).length) v.ty.sig.length) := by
  obtain ⟨he, hbody, -, hri, -⟩ := m.enter_frame k.enclosing k.contents
    (k.entered m.rindex (Val.encs m.endian vs (k.start m.rindex)).length)
  have hlen := k.length_head m.endian m.rindex (Val.encs m.endian vs (k.start m.rindex)).length
  have hp : (k.entered m.rindex (Val.encs m.endian vs (k.start m.rindex)).length).rindex +
      (Val.encs m.endian vs (k.start m.rindex)).length =
      m.rindex + (v.enc m.endian m.rindex).length := by
    rw [hold.enc, List.length_append, Kind.entered]
    simp only
    omega
  rw [Received.behind, hri, he]
  simp only [Kind.entered] at hp ⊢
  rw [hp, hold.ty]
  by_cases hk : k.isArray = true
  · -- an array's own index never moves
    have henc : ∀ x : Entered,
        (m.enter k.enclosing k.contents x).last.enclosing = sdBusTypeArray :=
      fun _ => k.enclosing_eq_array.mpr hk
    rw [Received.moved_array (henc _) _ _ k.contents.length]
    refine exit_enter fun _ => ?_
    simp only [hk, if_true]
    exact hp
  · have hcont : (Ty.sigs (Val.tys vs)).length = k.contents.length := by
      have hk' : k.isArray = false := by simpa using hk
      rw [(hold.made hm).2.1 hk', k.contents_eq hk']
    rw [hcont]
    exact exit_enter fun ha => absurd (k.enclosing_eq_array.mp ha) hk

/-! ## Reading values back -/

theorem enterContainer_next {m : Received} {u : Ty} (h : m.Next u) {type : UInt8} (ht : type ≠ 0)
    (contents : Str) : sdBusMessageEnterContainer m type contents =
      if busContainerDepth ≤ m.containers.length then .error .ebadmsg
      else (enterByType m type contents).map fun x => (true, m.enter type contents x) := by
  simp only [sdBusMessageEnterContainer, if_neg ht, h.endOfSignature, h.1, Bool.false_eq_true,
    if_false]
  split_ifs
  · rfl
  · cases enterByType m type contents <;> rfl

theorem enterContainer_ok {m m₁ : Received} {u : Ty} (h : m.Next u) {type : UInt8}
    {contents : Str} (he : sdBusMessageEnterContainer m type contents = .ok (true, m₁)) :
    m.containers.length < busContainerDepth ∧
      ∃ x, enterByType m type contents = .ok x ∧ m₁ = m.enter type contents x := by
  by_cases ht : type = 0
  · simp [sdBusMessageEnterContainer, ht] at he
  · rw [enterContainer_next h ht] at he
    split_ifs at he with hd
    cases hx : enterByType m type contents with
    | error r => rw [hx] at he; exact absurd he (by simp [Except.map])
    | ok x =>
      rw [hx] at he
      simp only [Except.map, Except.ok.injEq, Prod.mk.injEq, true_and] at he
      exact ⟨by omega, x, rfl, he.symm⟩

theorem ComeAll.read {vs : List Val} {m : Received} (h : ComeAll m vs)
    (hb : m.body.length ≤ uint32Max)
    (hr : Val.AllReadable m.endian m.fds.length vs m.rindex m.containers.length)
    (hv : ∀ v ∈ vs, ∀ m : Received, Comes m v → m.body.length ≤ uint32Max →
      v.Readable m.endian m.fds.length m.rindex m.containers.length →
      ∀ items m', ReadItems (m.moved (m.rindex + (v.enc m.endian m.rindex).length)
        v.ty.sig.length) items m' → ReadItems m (v.item m.fds :: items) m') :
    ReadItems m (Val.items m.fds vs) (m.behind vs) := by
  induction vs generalizing m with
  | nil =>
    rw [Received.behind_nil, Val.items]
    exact .eof h.peek_nil
  | cons v vs ih =>
    obtain ⟨hcome, hrest⟩ := h.cons
    obtain ⟨he, hbody, hfds, hlen, -⟩ := m.moved_frame
      (m.rindex + (v.enc m.endian m.rindex).length) v.ty.sig.length
    have hri := m.moved_rindex (m.rindex + (v.enc m.endian m.rindex).length) v.ty.sig.length
    rw [Val.AllReadable] at hr
    rw [Received.behind_cons, Val.items]
    refine hv v (by simp) m hcome hb hr.1 _ _ ?_
    rw [← hfds]
    refine ih hrest (by rw [hbody]; exact hb) ?_ fun w hw => hv w (by simp [hw])
    rw [he, hfds, hri, hlen]
    exact hr.2

theorem Comes.read {v : Val} {m : Received} (h : Comes m v) (hb : m.body.length ≤ uint32Max)
    (hr : v.Readable m.endian m.fds.length m.rindex m.containers.length) {items : List Item}
    {m' : Received} (hrest : ReadItems (m.moved (m.rindex + (v.enc m.endian m.rindex).length)
      v.ty.sig.length) items m') : ReadItems m (v.item m.fds :: items) m' := by
  induction v using Val.induct generalizing m items m' with
  | basic b =>
    have hnext := h.next
    have hst := h.stands
    have hcl := h.clean
    rw [Val.ty] at hnext
    rw [Val.Stands] at hst
    rw [Val.Clean] at hcl
    rw [Val.Readable] at hr
    rw [Val.enc, Val.ty, Ty.sig] at hrest
    rw [Val.item]
    refine .basic (peekType_basic hnext) ?_ hrest
    rw [readBasic_next hnext, readBasicValue_at hst hcl hb hr]
    rfl
  | container v k vs hold ih =>
    obtain ⟨hd, hl, hall⟩ := (hold.readable _ _ _ _).mp hr
    obtain ⟨hp, he⟩ := h.enter hold hb hl
    obtain ⟨hfe, hfb, hff, hfr, hfl⟩ := m.enter_frame k.enclosing k.contents
      (k.entered m.rindex (Val.encs m.endian vs (k.start m.rindex)).length)
    have hin := (h.contents hold hl).read (by rw [hfb]; exact hb)
      (by rw [hfe, hff, hfr, hfl]; exact hall)
      (fun w hw m hc hb hr items m' hi => ih w hw hc hb hr hi)
    rw [hold.item]
    rw [hff] at hin
    refine .container hp ?_ hin (Comes.exit hold h.made) hrest
    rw [enterContainer_next h.next k.enclosing_ne_zero, if_neg (by omega), he]
    rfl

/-! ## What is read keeps the limits -/

theorem ReadItems.eof_inv {m m' : Received} {items : List Item}
    (h : ReadItems m items m') (hp : sdBusMessagePeekType m = .ok none) :
    items = [] ∧ m' = m := by
  cases h with
  | eof _ => exact ⟨rfl, rfl⟩
  | basic hp' => exact absurd (hp'.symm.trans hp) (by simp)
  | container hp' => exact absurd (hp'.symm.trans hp) (by simp)

theorem ComeAll.of_read {vs : List Val} {m m' : Received} {items : List Item} (h : ComeAll m vs)
    (hb : m.body.length ≤ uint32Max) (hr : ReadItems m items m')
    (hv : ∀ v ∈ vs, ∀ m : Received, Comes m v → m.body.length ≤ uint32Max →
      ∀ items m', ReadItems m items m' →
        v.Readable m.endian m.fds.length m.rindex m.containers.length ∧
        ∃ items', items = v.item m.fds :: items' ∧
          ReadItems (m.moved (m.rindex + (v.enc m.endian m.rindex).length) v.ty.sig.length)
            items' m') :
    Val.AllReadable m.endian m.fds.length vs m.rindex m.containers.length ∧
      items = Val.items m.fds vs ∧ m' = m.behind vs := by
  induction vs generalizing m items with
  | nil =>
    obtain ⟨rfl, rfl⟩ := hr.eof_inv h.peek_nil
    rw [Val.AllReadable, Received.behind_nil]
    exact ⟨trivial, rfl, rfl⟩
  | cons v vs ih =>
    obtain ⟨hcome, hrest⟩ := h.cons
    obtain ⟨he, hbody, hfds, hlen, -⟩ := m.moved_frame
      (m.rindex + (v.enc m.endian m.rindex).length) v.ty.sig.length
    have hri := m.moved_rindex (m.rindex + (v.enc m.endian m.rindex).length) v.ty.sig.length
    obtain ⟨hread, items', rfl, hr'⟩ := hv v (by simp) m hcome hb items m' hr
    obtain ⟨hall, rfl, rfl⟩ := ih hrest (by rw [hbody]; exact hb) hr'
      fun w hw => hv w (by simp [hw])
    rw [he, hfds, hri, hlen] at hall
    rw [Val.AllReadable, Received.behind_cons, hfds]
    exact ⟨⟨hread, hall⟩, rfl, rfl⟩

theorem Comes.of_read {v : Val} {m m' : Received} {items : List Item} (h : Comes m v)
    (hb : m.body.length ≤ uint32Max) (hr : ReadItems m items m') :
    v.Readable m.endian m.fds.length m.rindex m.containers.length ∧
      ∃ items', items = v.item m.fds :: items' ∧
        ReadItems (m.moved (m.rindex + (v.enc m.endian m.rindex).length) v.ty.sig.length)
          items' m' := by
  induction v using Val.induct generalizing m items m' with
  | basic b =>
    have hnext := h.next
    have hst := h.stands
    have hcl := h.clean
    rw [Val.ty] at hnext
    rw [Val.Stands] at hst
    rw [Val.Clean] at hcl
    have hpeek := peekType_basic hnext
    cases hr with
    | eof hp => exact absurd (hpeek.symm.trans hp) (by simp)
    | container hp => exact absurd (hpeek.symm.trans hp) (by simp)
    | basic hp hread hrest =>
      simp only [hpeek, Except.ok.injEq, Option.some.injEq, Prod.mk.injEq, and_true] at hp
      subst hp
      rw [readBasic_next hnext] at hread
      cases hval : readBasicValue m b.type with
      | error r => rw [hval] at hread; exact absurd hread (by simp [Except.map])
      | ok r =>
        have hreadable := readable_of_readBasicValue hst hcl hb hval
        rw [readBasicValue_at hst hcl hb hreadable] at hread
        simp only [Except.map, Except.ok.injEq, Prod.mk.injEq, Option.some.injEq] at hread
        obtain ⟨rfl, rfl⟩ := hread
        refine ⟨by rw [Val.Readable]; exact hreadable, _, by rw [Val.item], ?_⟩
        rw [Val.enc, Val.ty, Ty.sig]
        exact hrest
  | container v k vs hold ih =>
    have hnext : m.Next k.ty := by rw [← hold.ty]; exact h.next
    cases hr with
    | eof hp =>
      obtain ⟨_, _, hr⟩ := peekType_container hnext hp
      exact absurd hr (by simp)
    | basic hp hread hrest =>
      obtain ⟨_, _, hr⟩ := peekType_container hnext hp
      exact absurd hr (by simp)
    | container hp he hin hx hrest =>
      rename_i m₁ m₂ m₃ type contents inner items
      obtain ⟨hd, x, hex, rfl⟩ := enterContainer_ok h.next he
      have hl := h.limit hold hb hp hex
      obtain ⟨hp', he'⟩ := h.enter hold hb hl
      simp only [hp', Except.ok.injEq, Option.some.injEq, Prod.mk.injEq] at hp
      obtain ⟨rfl, rfl⟩ := hp
      obtain rfl := Except.ok.inj (he'.symm.trans hex)
      obtain ⟨hfe, hfb, hff, hfr, hfl⟩ := m.enter_frame k.enclosing k.contents
        (k.entered m.rindex (Val.encs m.endian vs (k.start m.rindex)).length)
      obtain ⟨hall, rfl, rfl⟩ := (h.contents hold hl).of_read (by rw [hfb]; exact hb) hin
        fun w hw m hc hb items m' hr => ih w hw hc hb hr
      obtain rfl := Except.ok.inj ((Comes.exit hold h.made).symm.trans hx)
      rw [hfe, hff, hfr, hfl] at hall
      refine ⟨(hold.readable _ _ _ _).mpr ⟨hd, hl, hall⟩, items, ?_, hrest⟩
      rw [hold.item, hff]

end Basu
