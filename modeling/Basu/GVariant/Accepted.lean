import Basu.GVariant.Parse
import Basu.Message.Fields
import Mathlib.Logic.Relation

/-! What `bus_message_from_malloc` accepts has consistent sizes. On version 2 this rests on a NUL in
the body: the search for the one in front of the signature does not stop where the body starts. -/

namespace Basu.GVariant
open Lib Relation

/-! ## Texts in the fields -/

def Stored (bs : Bytes) (s : Str) : Prop := (0 : UInt8) ∉ s ∧ ∃ i, At bs i (s ++ [0])

def fieldText : Field → Option Str
  | .path s | .interface s | .member s | .errorName s | .destination s | .sender s
  | .signature s => some s
  | .replySerial _ | .unixFds _ => none

inductive TakesIn (fields : Bytes) (P : Parsed) : Parsed → Prop
  | pass : TakesIn fields P P
  | add (f : Field) (valid : f.valid = true) (stored : ∀ s ∈ fieldText f, Stored fields s) :
      TakesIn fields P (P.add f)

theorem takesIn_text {fields : Bytes} {P : Parsed} {f : Field} {s : Str} (hf : fieldText f = some s)
    (hv : f.valid = true) (hs : Stored fields s) : TakesIn fields P (P.add f) :=
  .add f hv fun t ht => by
    rw [hf] at ht
    obtain rfl := Option.mem_some_iff.mp ht
    exact hs

theorem peekString_stored {e : Endian} {validate : Str → Bool} {fields : Bytes} {ri ri' : Nat}
    {s : Str} (h : peekString e validate fields ri = .ok (s, ri')) :
    Stored fields s ∧ validate s = true := by
  obtain ⟨hat, h0, hv, -, -⟩ := peekString_sound h
  exact ⟨⟨h0, _, (at_append.mp (at_append.mp hat).2).2⟩, hv⟩

theorem peekSignature_stored {fields : Bytes} {ri ri' : Nat} {s : Str}
    (h : peekSignature fields ri = .ok (s, ri')) :
    Stored fields s ∧ validSignature s = true ∧ s.length ≤ 254 := by
  obtain ⟨hat, h0, hv, hl, -⟩ := peekSignature_sound h
  rw [sigBytes, ← List.singleton_append] at hat
  exact ⟨⟨h0, _, (at_append.mp hat).2⟩, hv, hl⟩

theorem parseStringField_stored {e : Endian} {fields : Bytes} {present : Option Str}
    {signature : Str} {type : UInt8} {validate : Str → Bool} {add : Str → Parsed} {ri ri' : Nat}
    {P : Parsed}
    (h : parseStringField e fields present signature type validate add ri = .ok (P, ri')) :
    ∃ s, P = add s ∧ Stored fields s ∧ validate s = true := by
  unfold parseStringField at h
  split_ifs at h
  cases hp : peekString e validate fields ri with
  | error r =>
    rw [hp] at h
    cases h
  | ok x =>
    rw [hp] at h
    cases h
    exact ⟨x.1, rfl, peekString_stored hp⟩

theorem parseFieldValue_takesIn {e : Endian} {fields : Bytes} {P P' : Parsed} {code : UInt8}
    {signature : Str} {ri ri' : Nat}
    (h : parseFieldValue e fields P code signature ri = .ok (P', ri')) : TakesIn fields P P' := by
  unfold parseFieldValue at h
  by_cases h0 : code = 0
  · rw [if_pos h0] at h
    cases h
  rw [if_neg h0] at h
  by_cases h1 : code = 1
  · rw [if_pos h1] at h
    obtain ⟨s, rfl, hs, hv⟩ := parseStringField_stored h
    exact takesIn_text rfl hv hs
  rw [if_neg h1] at h
  by_cases h2 : code = 2
  · rw [if_pos h2] at h
    obtain ⟨s, rfl, hs, hv⟩ := parseStringField_stored h
    exact takesIn_text rfl hv hs
  rw [if_neg h2] at h
  by_cases h3 : code = 3
  · rw [if_pos h3] at h
    obtain ⟨s, rfl, hs, hv⟩ := parseStringField_stored h
    exact takesIn_text rfl hv hs
  rw [if_neg h3] at h
  by_cases h4 : code = 4
  · rw [if_pos h4] at h
    obtain ⟨s, rfl, hs, hv⟩ := parseStringField_stored h
    exact takesIn_text rfl hv hs
  rw [if_neg h4] at h
  by_cases h6 : code = 6
  · rw [if_pos h6] at h
    obtain ⟨s, rfl, hs, hv⟩ := parseStringField_stored h
    exact takesIn_text rfl hv hs
  rw [if_neg h6] at h
  by_cases h7 : code = 7
  · rw [if_pos h7] at h
    obtain ⟨s, rfl, hs, hv⟩ := parseStringField_stored h
    exact takesIn_text rfl hv hs
  rw [if_neg h7] at h
  by_cases h8 : code = 8
  · rw [if_pos h8] at h
    split_ifs at h
    cases hp : peekSignature fields ri with
    | error r =>
      rw [hp] at h
      cases h
    | ok x =>
      rw [hp] at h
      cases h
      obtain ⟨hs, hv, hl⟩ := peekSignature_stored hp
      exact takesIn_text rfl (by rw [Field.valid, hv, Bool.true_and]; exact decide_eq_true hl) hs
  rw [if_neg h8] at h
  by_cases h5 : code = 5
  · rw [if_pos h5] at h
    split_ifs at h
    split at h
    · cases h
    · split_ifs at h with hz
      cases h
      exact .add _ (decide_eq_true hz) fun t ht => absurd ht (Option.not_mem_none t)
  rw [if_neg h5] at h
  by_cases h9 : code = 9
  · rw [if_pos h9] at h
    split_ifs at h
    split at h
    · cases h
    · cases h
      exact .add _ rfl fun t ht => absurd ht (Option.not_mem_none t)
  rw [if_neg h9] at h
  cases hp : messageSkipFields e fields (2 * fields.length + 3) ri ri none signature with
  | error r =>
    rw [hp] at h
    cases h
  | ok x =>
    rw [hp] at h
    cases h
    exact .pass

theorem parseFieldsLoop_takesIn {e : Endian} {fields : Bytes} {fuel : Nat} :
    ∀ {P P' : Parsed} {ri : Nat}, parseFieldsLoop e fields fuel P ri = .ok P' →
    ReflTransGen (TakesIn fields) P P' := by
  induction fuel with
  | zero => exact fun h => nomatch h
  | succ fuel ih =>
    intro P P' ri h
    rw [parseFieldsLoop] at h
    split_ifs at h
    · cases h
      exact .refl
    · split at h
      · cases h
      · rename_i P₁ ri₁ hf
        refine .head ?_ (ih h)
        unfold parseField at hf
        split at hf
        · cases hf
        · split at hf
          · cases hf
          · exact parseFieldValue_takesIn hf

theorem messagePeekFields_ok {fieldsSize ri ri' align n : Nat} {fields q : Bytes}
    (h : messagePeekFields fieldsSize fields ri align n = .ok (q, ri')) :
    alignUp ri align + n ≤ fieldsSize % 2 ^ 32 ∧ bufferPeek fields ri align n = .ok (q, ri') := by
  unfold messagePeekFields at h
  split_ifs at h with hs
  exact ⟨Nat.le_of_not_lt hs, h⟩

theorem messagePeekFieldString_stored {fieldsSize ri ri' itemSize : Nat} {fields : Bytes}
    {validate : Str → Bool} {s : Str}
    (h : messagePeekFieldString fieldsSize fields validate ri itemSize = .ok (s, ri')) :
    Stored fields s ∧ validate s = true := by
  unfold messagePeekFieldString at h
  split_ifs at h with h0
  split at h
  · cases h
  · rename_i q r hq
    obtain ⟨hat, hlen, -⟩ := bufferPeek_sound_one (messagePeekFields_ok hq).2
    split_ifs at h with hv
    cases h
    obtain ⟨hnul, hval⟩ := (Bool.and_eq_true_iff).mp hv
    obtain ⟨hqs, hz, -⟩ := validateNul_sound (l := itemSize - 1) (by omega) hnul
    exact ⟨⟨hz, ri, hqs ▸ hat⟩, hval⟩

theorem stringField_stored {fieldsSize ri ri' itemSize : Nat} {fields : Bytes}
    {present : Option Str} {signature : Str} {type : UInt8} {validate : Str → Bool}
    {add : Str → Parsed} {P : Parsed}
    (h : stringField fieldsSize fields present signature type validate add ri itemSize =
      .ok (P, ri')) : ∃ s, P = add s ∧ Stored fields s ∧ validate s = true := by
  unfold stringField at h
  split_ifs at h
  cases hp : messagePeekFieldString fieldsSize fields validate ri itemSize with
  | error r =>
    rw [hp] at h
    cases h
  | ok x =>
    rw [hp] at h
    cases h
    exact ⟨x.1, rfl, messagePeekFieldString_stored hp⟩

theorem fieldValue_takesIn {e : Endian} {fieldsSize code ri ri' itemSize : Nat} {fields : Bytes}
    {P P' : Parsed} {signature : Str}
    (h : fieldValue e fieldsSize fields P code signature ri itemSize = .ok (P', ri')) :
    TakesIn fields P P' := by
  unfold fieldValue at h
  by_cases h0 : code = 0
  · rw [if_pos h0] at h
    cases h
  rw [if_neg h0] at h
  by_cases h1 : code = 1
  · rw [if_pos h1] at h
    obtain ⟨s, rfl, hs, hv⟩ := stringField_stored h
    exact takesIn_text rfl hv hs
  rw [if_neg h1] at h
  by_cases h2 : code = 2
  · rw [if_pos h2] at h
    obtain ⟨s, rfl, hs, hv⟩ := stringField_stored h
    exact takesIn_text rfl hv hs
  rw [if_neg h2] at h
  by_cases h3 : code = 3
  · rw [if_pos h3] at h
    obtain ⟨s, rfl, hs, hv⟩ := stringField_stored h
    exact takesIn_text rfl hv hs
  rw [if_neg h3] at h
  by_cases h4 : code = 4
  · rw [if_pos h4] at h
    obtain ⟨s, rfl, hs, hv⟩ := stringField_stored h
    exact takesIn_text rfl hv hs
  rw [if_neg h4] at h
  by_cases h6 : code = 6
  · rw [if_pos h6] at h
    obtain ⟨s, rfl, hs, hv⟩ := stringField_stored h
    exact takesIn_text rfl hv hs
  rw [if_neg h6] at h
  by_cases h7 : code = 7
  · rw [if_pos h7] at h
    obtain ⟨s, rfl, hs, hv⟩ := stringField_stored h
    exact takesIn_text rfl hv hs
  rw [if_neg h7] at h
  by_cases h8 : code = 8
  · rw [if_pos h8] at h
    cases h
  rw [if_neg h8] at h
  by_cases h5 : code = 5
  · rw [if_pos h5] at h
    split_ifs at h
    split at h
    · cases h
    · split_ifs at h with hz
      cases h
      exact .add _ (decide_eq_true hz) fun t ht => absurd ht (Option.not_mem_none t)
  rw [if_neg h5] at h
  by_cases h9 : code = 9
  · rw [if_pos h9] at h
    split_ifs at h
    split at h
    · cases h
    · cases h
      exact .add _ rfl fun t ht => absurd ht (Option.not_mem_none t)
  rw [if_neg h9] at h
  cases h
  exact .pass

theorem parseItem_takesIn {e : Endian} {fieldsSize start stop ri : Nat} {fields : Bytes}
    {P P' : Parsed} (h : parseItem e fieldsSize fields P start stop = .ok (P', ri)) :
    TakesIn fields P P' := by
  unfold parseItem at h
  split at h
  · cases h
  split_ifs at h
  split at h
  · cases h
  split at h
  · cases h
  exact fieldValue_takesIn h

theorem parseItems_takesIn {e : Endian} {fieldsSize sz nOffsets fuel : Nat}
    {fields table : Bytes} : ∀ {i ri : Nat} {P P' : Parsed},
    parseItems e fieldsSize fields sz table nOffsets fuel i ri P = .ok P' →
    ReflTransGen (TakesIn fields) P P' := by
  induction fuel with
  | zero => exact fun h => nomatch h
  | succ fuel ih =>
    intro i ri P P' h
    rw [parseItems] at h
    split_ifs at h with h1 h2
    · cases h
      exact .refl
    · cases h
      exact .refl
    all_goals
      dsimp only at h
      split at h
      · cases h
      · rename_i hf
        exact .head (parseItem_takesIn hf) (ih h)

theorem fieldOffsets_lt {fieldsSize : Nat} {fields : Bytes} {x : Bytes × Nat}
    (h : fieldOffsets fieldsSize fields = .ok x) : fieldsSize < 2 ^ 32 := by
  unfold fieldOffsets at h
  dsimp only at h
  have hsz : wordSize fieldsSize ≤ 8 := by
    unfold wordSize
    split_ifs <;> decide
  by_cases hlt : fieldsSize < wordSize fieldsSize
  · exact hlt.trans_le (hsz.trans (by decide))
  rw [if_neg hlt] at h
  split at h
  · cases h
  · rename_i hq
    have hle := (messagePeekFields_ok hq).1
    rw [alignUp_one] at hle
    have hmod := Nat.mod_lt fieldsSize (by decide : 0 < 2 ^ 32)
    omega

theorem parseFields_ok {e : Endian} {header : Header} {fieldsSize : Nat} {fields : Bytes}
    {P : Parsed} (h : parseFields e header fieldsSize fields = .ok P) :
    fieldsSize < 2 ^ 32 ∧ ReflTransGen (TakesIn fields) { header := header } P := by
  unfold parseFields at h
  split at h
  · cases h
  · rename_i hx
    exact ⟨fieldOffsets_lt hx, parseItems_takesIn h⟩

/-! ## What the parser holds -/

def TextIn (fields : Bytes) (validate : Str → Bool) (t : Option Str) : Prop :=
  ∀ s ∈ t, Stored fields s ∧ validate s = true

structure Held (fields : Bytes) (P : Parsed) : Prop where
  path : TextIn fields objectPathIsValid P.header.path
  interface : TextIn fields interfaceNameIsValid P.header.interface
  member : TextIn fields memberNameIsValid P.header.member
  errorName : TextIn fields errorNameIsValid P.header.errorName
  destination : TextIn fields serviceNameIsValid P.header.destination
  sender : TextIn fields serviceNameIsValid P.header.sender
  signature : TextIn fields validSignature P.signature

theorem textIn_none {fields : Bytes} {validate : Str → Bool} : TextIn fields validate none :=
  fun s hs => absurd hs (Option.not_mem_none s)

theorem textIn_some {fields : Bytes} {validate : Str → Bool} {s : Str} (hs : Stored fields s)
    (hv : validate s = true) : TextIn fields validate (some s) := fun t ht => by
  obtain rfl := Option.mem_some_iff.mp ht
  exact ⟨hs, hv⟩

theorem Held.takesIn {fields : Bytes} {P P' : Parsed} (h : Held fields P)
    (ht : TakesIn fields P P') : Held fields P' := by
  cases ht with
  | pass => exact h
  | add f hv hs =>
    cases f with
    | path s => exact { h with path := textIn_some (hs s rfl) hv }
    | interface s => exact { h with interface := textIn_some (hs s rfl) hv }
    | member s => exact { h with member := textIn_some (hs s rfl) hv }
    | errorName s => exact { h with errorName := textIn_some (hs s rfl) hv }
    | destination s => exact { h with destination := textIn_some (hs s rfl) hv }
    | sender s => exact { h with sender := textIn_some (hs s rfl) hv }
    | signature s =>
      exact { h with signature := textIn_some (hs s rfl) (Bool.and_eq_true_iff.mp hv).1 }
    | replySerial x => exact { h with }
    | unixFds x => exact { h with }

theorem held_of_takesIn {fields : Bytes} {header : Header} {P : Parsed}
    (hbare : header.bare = header)
    (h : ReflTransGen (TakesIn fields) { header := header } P) : Held fields P := by
  induction h with
  | refl =>
    rw [← hbare]
    exact ⟨textIn_none, textIn_none, textIn_none, textIn_none, textIn_none, textIn_none,
      textIn_none⟩
  | tail _ ht ih => exact ih.takesIn ht

/-! ## The signature in front of the last word -/

theorem lastZero_eq_some : ∀ {bs : Bytes} {i : Nat}, lastZero bs = some i →
    ∃ pre post, bs = pre ++ 0 :: post ∧ (0 : UInt8) ∉ post ∧ pre.length = i
  | [], _, h => nomatch h
  | b :: bs, i, h => by
    rw [lastZero] at h
    cases hb : lastZero bs with
    | some j =>
      rw [hb] at h
      obtain ⟨pre, post, rfl, hpost, rfl⟩ := lastZero_eq_some hb
      cases h
      exact ⟨b :: pre, post, rfl, hpost, rfl⟩
    | none =>
      rw [hb] at h
      dsimp only at h
      split_ifs at h with h0
      cases h
      exact ⟨[], bs, by rw [h0, List.nil_append], lastZero_eq_none hb, rfl⟩
where
  lastZero_eq_none : ∀ {bs : Bytes}, lastZero bs = none → (0 : UInt8) ∉ bs
    | [], _ => List.not_mem_nil
    | b :: bs, h => by
      rw [lastZero] at h
      cases hb : lastZero bs with
      | some j =>
        rw [hb] at h
        cases h
      | none =>
        rw [hb] at h
        dsimp only at h
        split_ifs at h with h0
        exact List.not_mem_cons_of_ne_of_not_mem (Ne.symm h0) (lastZero_eq_none hb)

theorem footerSignature_ok {buffer : Bytes} {sz p : Nat} {s : Str}
    (h : footerSignature buffer sz = .ok (p, s)) :
    sz < buffer.length ∧ ∃ pre, buffer.take (buffer.length - sz) =
      pre ++ 0 :: sdBusTypeStructBegin :: (s ++ [sdBusTypeStructEnd]) ∧ pre.length = p ∧
      (0 : UInt8) ∉ s := by
  unfold footerSignature at h
  split_ifs at h with hlen
  dsimp only at h
  split at h
  · cases h
  · rename_i q hq
    obtain ⟨pre, post, htext, hpost, rfl⟩ := lastZero_eq_some hq
    split_ifs at h with hbad
    cases h
    rw [htext] at hbad ⊢
    push Not at hbad
    obtain ⟨hl, hfirst, hlast⟩ := hbad
    obtain ⟨c, rest, b, rfl⟩ : ∃ c rest b, post = c :: (rest ++ [b]) := by
      cases post with
      | nil =>
        simp only [List.length_append, List.length_cons, List.length_nil] at hl
        omega
      | cons c t =>
        have ht : t ≠ [] := by
          rintro rfl
          simp only [List.length_append, List.length_cons, List.length_nil] at hl
          omega
        exact ⟨c, t.dropLast, t.getLast ht, by rw [List.dropLast_append_getLast]⟩
    have hlen' : (pre ++ 0 :: c :: (rest ++ [b])).length - (pre.length + 1) = rest.length + 2 := by
      simp only [List.length_append, List.length_cons, List.length_nil]
      omega
    rw [hlen'] at hlast
    have hdrop : ∀ k, (pre ++ 0 :: c :: (rest ++ [b])).drop (pre.length + k) =
        (0 :: c :: (rest ++ [b])).drop k := List.drop_length_add_append
    rw [charAt_drop, hdrop] at hfirst hlast
    have hc : c = sdBusTypeStructBegin := hfirst
    have hb : b = sdBusTypeStructEnd := by
      rw [show rest.length + 2 = (0 :: c :: rest).length from rfl,
        show (0 : UInt8) :: c :: (rest ++ [b]) = (0 :: c :: rest) ++ [b] from rfl,
        List.drop_left] at hlast
      exact hlast
    have hs : ((pre ++ 0 :: c :: (rest ++ [b])).drop (pre.length + 2)).take
        ((pre ++ 0 :: c :: (rest ++ [b])).length - (pre.length + 1) - 2) = rest := by
      rw [hlen', hdrop]
      exact List.take_left' (by rw [Nat.add_sub_cancel])
    rw [hs, hc, hb]
    exact ⟨by omega, pre, rfl, rfl, fun h0 =>
      hpost (List.mem_cons_of_mem _ (List.mem_append_left _ h0))⟩

theorem align8_w64 {n : Nat} (h : n < 2 ^ 33) : SizeT.w64.align8 n = alignUp n 8 := by
  refine SizeT.align8_of_alignable (decide_eq_true ?_)
  simp only [SizeT.modulus]
  omega

theorem wrap_w64 {n : Nat} (h : n < 2 ^ 64) : SizeT.w64.wrap n = n := Nat.mod_eq_of_lt h

def Covers (buffer : Bytes) (fieldsSize bodySize : Nat) : Prop :=
  busHeaderSize + alignUp fieldsSize 8 + bodySize = buffer.length

theorem covers_dbus1 {buffer : Bytes} {z : Sizes} (hv : charAt buffer 3 ≠ 2)
    (h : busMessageFromHeader .w64 buffer = .ok z) :
    z.fieldsSize < 2 ^ 32 ∧ Covers buffer z.fieldsSize z.bodySize := by
  obtain ⟨-, e, -, ⟨hv', -⟩ | ⟨-, hsum, rfl⟩⟩ := busMessageFromHeader_ok h
  · exact absurd hv' hv
  · have hf := getWord_slice_lt e buffer 12 4
    have hb := getWord_slice_lt e buffer 4 4
    have h32 : (256 : Nat) ^ 4 = 2 ^ 32 := by decide
    have hup := alignUp_lt (getWord e (slice buffer 12 4)) (by decide : 0 < 8)
    refine ⟨by dsimp only; omega, ?_⟩
    rw [align8_w64 (by omega), wrap_w64 (by simp only [busHeaderSize]; omega)] at hsum
    exact hsum

theorem covers_gvariant {buffer : Bytes} {z : Sizes} (hlen : buffer.length < 2 ^ 64)
    (hv : charAt buffer 3 = 2) (h : busMessageFromHeader .w64 buffer = .ok z)
    (hf : z.fieldsSize < 2 ^ 32) :
    Covers buffer z.fieldsSize z.bodySize ∧
      busHeaderSize + alignUp z.fieldsSize 8 = alignUp (footerWord buffer) 8 := by
  obtain ⟨-, e, -, ⟨-, hfit, h16, rfl⟩ | ⟨hv', -⟩⟩ := busMessageFromHeader_ok h
  · dsimp only at hf ⊢
    simp only [busHeaderSize] at h16 hf
    have hup : busHeaderSize + alignUp (footerWord buffer - busHeaderSize) 8 =
        alignUp (footerWord buffer) 8 := by
      simp only [alignUp, busHeaderSize]
      omega
    rw [align8_w64 (by omega)] at hfit
    rw [align8_w64 (n := footerWord buffer - busHeaderSize) (by simp only [busHeaderSize]; omega),
      hup, wrap_w64 (n := alignUp (footerWord buffer) 8) (by omega)]
    refine ⟨?_, rfl⟩
    unfold Covers
    rw [hup, show buffer.length + SizeT.w64.modulus - alignUp (footerWord buffer) 8 =
        (buffer.length - alignUp (footerWord buffer) 8) + SizeT.w64.modulus by omega,
      SizeT.wrap, Nat.add_mod_right, Nat.mod_eq_of_lt (by simp only [SizeT.modulus]; omega)]
    omega
  · exact absurd hv hv'

theorem busMessageSize_eq {buffer : Bytes} {z : Sizes} (hlen : buffer.length < 2 ^ 64)
    (hf : z.fieldsSize < 2 ^ 32) (h : Covers buffer z.fieldsSize z.bodySize) :
    busMessageSize z = buffer.length := by
  unfold busMessageSize
  rw [align8_w64 (by omega), h, wrap_w64 hlen]

theorem readErrorMessage_same (m : Inbound) : SameMessage m m.readErrorMessage := by
  unfold Inbound.readErrorMessage
  split
  · rename_i h
    exact { sdBusMessageReadBasic_same h with }
  · exact .refl m

theorem parseGvariant_ok {e : Endian} {header : Header} {buffer : Bytes} {z : Sizes}
    {fds : List Nat} {m : Inbound} (h : parseGvariant e header buffer z fds = .ok m) :
    ∃ p s P, footerSignature buffer (wordSize (busMessageSize z)) = .ok (p, s) ∧
      parseFields e header z.fieldsSize (slice buffer busHeaderSize z.fieldsSize) = .ok P ∧
      checkParsed P fds = true ∧
      SameMessage
        { version := 2, endian := e, header := P.header, fieldsSize := z.fieldsSize
          bodySize := z.bodySize, userBodySize := userBodySize buffer z.bodySize p
          body := buffer.drop (busHeaderSize + SizeT.w64.align8 z.fieldsSize)
          root := { signature := some s } } m := by
  unfold parseGvariant at h
  split at h
  · cases h
  rename_i p s hs
  dsimp only at h
  split at h
  · cases h
  rename_i P hP
  by_cases hc : checkParsed P fds = false
  · rw [if_pos hc] at h
    cases h
  rw [if_neg hc] at h
  split at h
  · cases h
  refine ⟨p, s, P, hs, hP, Bool.eq_true_of_not_eq_false hc, ?_⟩
  cases h
  split_ifs
  · exact { readErrorMessage_same _ with }
  · exact ⟨rfl, rfl, rfl, rfl, rfl, rfl, rfl⟩

theorem received_advance_same (m : Received) (n : Nat) :
    (m.advance n).header = m.header ∧ (m.advance n).body = m.body ∧
      (m.advance n).root.signature = m.root.signature := by
  unfold Received.advance Received.setLast Received.last
  split_ifs
  · exact ⟨rfl, rfl, rfl⟩
  · cases hc : m.containers <;> exact ⟨rfl, rfl, rfl⟩

theorem parsedMessage_same (e : Endian) (P : Parsed) (body : Bytes) (fds : List Nat) :
    (parsedMessage e P body fds).header = P.header ∧ (parsedMessage e P body fds).body = body ∧
      (parsedMessage e P body fds).root.signature = P.signature := by
  unfold parsedMessage Received.readErrorMessage
  dsimp only
  split
  swap
  · exact ⟨rfl, rfl, rfl⟩
  split
  swap
  · exact ⟨rfl, rfl, rfl⟩
  rename_i s m hr
  unfold Basu.sdBusMessageReadBasic at hr
  split at hr
  · cases hr
  split at hr
  · cases hr
  split at hr
  · cases hr
  split at hr
  · cases hr
  split at hr
  · cases hr
  cases hr
  exact received_advance_same _ 1

theorem parseDbus1_ok {e : Endian} {header : Header} {buffer : Bytes} {z : Sizes} {fds : List Nat}
    {m : Inbound} (h : parseDbus1 e header buffer z fds = .ok m) :
    ∃ P, parseFieldsLoop e (slice buffer busHeaderSize z.fieldsSize)
        ((slice buffer busHeaderSize z.fieldsSize).length + 1) { header := header } 0 = .ok P ∧
      checkParsed P fds = true ∧
      SameMessage
        { version := 1, endian := e, header := P.header, fieldsSize := z.fieldsSize
          bodySize := z.bodySize, userBodySize := z.bodySize
          body := buffer.drop (busHeaderSize + SizeT.w64.align8 z.fieldsSize)
          root := { signature := P.signature } } m := by
  unfold parseDbus1 busMessageParseFields at h
  cases hP : parseFieldsLoop e (slice buffer busHeaderSize z.fieldsSize)
      ((slice buffer busHeaderSize z.fieldsSize).length + 1) { header := header } 0 with
  | error r =>
    rw [hP] at h
    cases h
  | ok P =>
    rw [hP] at h
    dsimp only at h
    refine ⟨P, rfl, ?_⟩
    split_ifs at h with hfds hreq hloc
    · cases h
    · cases h
    · cases h
    obtain rfl := Except.ok.inj h
    obtain ⟨hh, hb, hs⟩ := parsedMessage_same e P
      (buffer.drop (busHeaderSize + SizeT.w64.align8 z.fieldsSize)) fds
    refine ⟨?_, rfl, hh, rfl, rfl, rfl, hb, hs⟩
    unfold checkParsed
    rw [Bool.eq_true_of_not_eq_false hreq, Bool.eq_true_of_not_eq_false hloc]
    simpa only [Bool.and_true, decide_eq_true_eq, ne_eq, not_not] using hfds

/-! ## Consistent messages -/

def bodyBegin (m : Inbound) : Nat := busHeaderSize + alignUp m.fieldsSize 8

def headerTexts (h : Header) : List Str :=
  [h.path, h.interface, h.member, h.destination, h.sender, h.errorName].filterMap id

def validHeader (h : Header) : Bool :=
  h.path.all objectPathIsValid && h.interface.all interfaceNameIsValid &&
    h.member.all memberNameIsValid && h.errorName.all errorNameIsValid &&
    h.destination.all serviceNameIsValid && h.sender.all serviceNameIsValid

structure Consistent (buffer : Bytes) (m : Inbound) : Prop where
  userBody : m.userBodySize ≤ m.bodySize
  covers : Covers buffer m.fieldsSize m.bodySize
  body : m.body = buffer.drop (bodyBegin m)
  texts : ∀ s ∈ headerTexts m.header, Stored (slice buffer busHeaderSize m.fieldsSize) s
  required : hasRequiredFields m.header = true
  valid : validHeader m.header = true

/-- Where the signature of the body comes from: the fields in version 1, and in version 2 what is
behind the user's part of the body, in brackets between a NUL and the last word. -/
def SignatureIn (buffer : Bytes) (m : Inbound) : Prop :=
  ∀ s ∈ m.root.signature,
    if m.version = 2 then
      At buffer (bodyBegin m + m.userBodySize)
          (0 :: sdBusTypeStructBegin :: (s ++ [sdBusTypeStructEnd])) ∧
        bodyBegin m + m.userBodySize + (s.length + 3) + wordSize buffer.length = buffer.length
    else Stored (slice buffer busHeaderSize m.fieldsSize) s

def bodyText (buffer : Bytes) : Bytes :=
  (buffer.take (buffer.length - wordSize buffer.length)).drop (alignUp (footerWord buffer) 8)

theorem Held.texts {fields : Bytes} {P : Parsed} (h : Held fields P) :
    ∀ s ∈ headerTexts P.header, Stored fields s := by
  intro s hs
  obtain ⟨t, ht, hts⟩ := List.mem_filterMap.mp hs
  have hst : s ∈ t := hts
  simp only [List.mem_cons, List.not_mem_nil, or_false] at ht
  rcases ht with rfl | rfl | rfl | rfl | rfl | rfl
  · exact (h.path s hst).1
  · exact (h.interface s hst).1
  · exact (h.member s hst).1
  · exact (h.destination s hst).1
  · exact (h.sender s hst).1
  · exact (h.errorName s hst).1

theorem all_of_textIn {fields : Bytes} {validate : Str → Bool} {t : Option Str}
    (h : TextIn fields validate t) : t.all validate = true := by
  cases t with
  | none => rfl
  | some s => exact (h s rfl).2

theorem Held.valid {fields : Bytes} {P : Parsed} (h : Held fields P) :
    validHeader P.header = true := by
  unfold validHeader
  rw [all_of_textIn h.path, all_of_textIn h.interface, all_of_textIn h.member,
    all_of_textIn h.errorName, all_of_textIn h.destination, all_of_textIn h.sender]
  rfl

theorem le_length_iff_mem_drop {pre post : Bytes} (hpost : (0 : UInt8) ∉ post) (n : Nat) :
    n ≤ pre.length ↔ (0 : UInt8) ∈ (pre ++ 0 :: post).drop n := by
  constructor
  · intro h
    rw [List.drop_append_of_le_length h]
    exact List.mem_append_right _ List.mem_cons_self
  · intro h
    by_contra hlt
    obtain ⟨k, rfl⟩ := Nat.exists_eq_add_of_le (Nat.lt_of_not_le hlt)
    rw [show pre.length + 1 + k = pre.length + (k + 1) by omega, List.drop_length_add_append,
      List.drop_succ_cons] at h
    exact hpost (List.mem_of_mem_drop h)

theorem userBodySize_of_le {buffer : Bytes} {bodySize b p : Nat} (hlen : buffer.length < 2 ^ 64)
    (hb : b + bodySize = buffer.length) (hp : p < buffer.length) (h : b ≤ p) :
    userBodySize buffer bodySize p = p - b := by
  unfold userBodySize
  rw [show bodySize + SizeT.w64.modulus - (buffer.length - p) =
      (p - b) + SizeT.w64.modulus by simp only [SizeT.modulus]; omega, SizeT.wrap,
    Nat.add_mod_right, Nat.mod_eq_of_lt (by simp only [SizeT.modulus]; omega)]

theorem userBodySize_of_lt {buffer : Bytes} {bodySize b p : Nat} (hlen : buffer.length < 2 ^ 64)
    (hb : b + bodySize = buffer.length) (h : p < b) :
    bodySize < userBodySize buffer bodySize p := by
  unfold userBodySize
  rw [wrap_w64 (by simp only [SizeT.modulus]; omega)]
  simp only [SizeT.modulus]
  omega

theorem consistent_dbus1 {e : Endian} {header : Header} {buffer : Bytes} {z : Sizes}
    {fds : List Nat} {m : Inbound} (hv : charAt buffer 3 ≠ 2)
    (hz : busMessageFromHeader .w64 buffer = .ok z) (hbare : header.bare = header)
    (h : parseDbus1 e header buffer z fds = .ok m) :
    m.version = 1 ∧ Consistent buffer m ∧ SignatureIn buffer m := by
  obtain ⟨P, hP, hc, hm⟩ := parseDbus1_ok h
  obtain ⟨hf, hcovers⟩ := covers_dbus1 hv hz
  have hheld := held_of_takesIn hbare (parseFieldsLoop_takesIn hP)
  unfold checkParsed at hc
  simp only [Bool.and_eq_true] at hc
  refine ⟨hm.version, ⟨?_, ?_, ?_, ?_, ?_, ?_⟩, ?_⟩
  · rw [hm.userBodySize, hm.bodySize]
  · rw [hm.fieldsSize, hm.bodySize]
    exact hcovers
  · rw [hm.body, bodyBegin, hm.fieldsSize, align8_w64 (by omega)]
  · rw [hm.header, hm.fieldsSize]
    exact hheld.texts
  · rw [hm.header]
    exact hc.1.2
  · rw [hm.header]
    exact hheld.valid
  · intro s hs
    rw [hm.signature] at hs
    rw [hm.version, if_neg (show (1 : UInt8) ≠ 2 by decide), hm.fieldsSize]
    exact (hheld.signature s hs).1

theorem consistent_gvariant {e : Endian} {header : Header} {buffer : Bytes} {z : Sizes}
    {fds : List Nat} {m : Inbound} (hlen : buffer.length < 2 ^ 64) (hv : charAt buffer 3 = 2)
    (hz : busMessageFromHeader .w64 buffer = .ok z) (hbare : header.bare = header)
    (h : parseGvariant e header buffer z fds = .ok m) :
    m.version = 2 ∧
      (Consistent buffer m ∧ SignatureIn buffer m ↔ (0 : UInt8) ∈ bodyText buffer) := by
  obtain ⟨p, s, P, hs, hP, hc, hm⟩ := parseGvariant_ok h
  obtain ⟨hf, htaken⟩ := parseFields_ok hP
  obtain ⟨hcovers, hbegin⟩ := covers_gvariant hlen hv hz hf
  rw [busMessageSize_eq hlen hf hcovers] at hs
  obtain ⟨hws, pre, htext, rfl, hs0⟩ := footerSignature_ok hs
  have hheld := held_of_takesIn hbare htaken
  have hpost : (0 : UInt8) ∉ sdBusTypeStructBegin :: (s ++ [sdBusTypeStructEnd]) := by
    simp only [List.mem_cons, List.mem_append, List.not_mem_nil, or_false, not_or]
    exact ⟨by decide, hs0, by decide⟩
  have hpre : pre.length + (s.length + 3) + wordSize buffer.length = buffer.length := by
    have := congrArg List.length htext
    simp only [List.length_take, List.length_append, List.length_cons, List.length_nil] at this
    omega
  have hbb : bodyBegin m = alignUp (footerWord buffer) 8 := by
    rw [bodyBegin, hm.fieldsSize, hbegin]
  have hle : (0 : UInt8) ∈ bodyText buffer ↔ alignUp (footerWord buffer) 8 ≤ pre.length := by
    rw [bodyText, htext]
    exact (le_length_iff_mem_drop hpost _).symm
  have hsum : alignUp (footerWord buffer) 8 + z.bodySize = buffer.length := hbegin ▸ hcovers
  refine ⟨hm.version, ?_⟩
  rw [hle]
  constructor
  · rintro ⟨hcons, -⟩
    have hub := hcons.userBody
    rw [hm.userBodySize, hm.bodySize] at hub
    by_contra hlt
    exact absurd (userBodySize_of_lt hlen hsum (Nat.lt_of_not_le hlt)) (Nat.not_lt.mpr hub)
  · intro hp
    have hub : m.userBodySize = pre.length - alignUp (footerWord buffer) 8 :=
      hm.userBodySize.trans (userBodySize_of_le hlen hsum (by omega) hp)
    unfold checkParsed at hc
    simp only [Bool.and_eq_true] at hc
    refine ⟨⟨?_, ?_, ?_, ?_, ?_, ?_⟩, ?_⟩
    · rw [hub, hm.bodySize]
      dsimp only
      omega
    · rw [hm.fieldsSize, hm.bodySize]
      exact hcovers
    · rw [hm.body, bodyBegin, hm.fieldsSize, align8_w64 (by omega)]
    · rw [hm.header, hm.fieldsSize]
      exact hheld.texts
    · rw [hm.header]
      exact hc.1.2
    · rw [hm.header]
      exact hheld.valid
    · intro t ht
      rw [hm.signature] at ht
      obtain rfl := Option.mem_some_iff.mp ht
      rw [hm.version, if_pos rfl, hbb, hub, Nat.add_sub_cancel' hp]
      refine ⟨?_, hpre⟩
      refine ⟨pre, buffer.drop (buffer.length - wordSize buffer.length), ?_, rfl⟩
      rw [← List.append_assoc, ← htext, List.take_append_drop]

/-! ## A body of one word -/

theorem lastZero_append : ∀ (pre : Bytes) {post : Bytes}, (0 : UInt8) ∉ post →
    lastZero (pre ++ 0 :: post) = some pre.length
  | [], post, h => by
    have hnone : lastZero post = none := by
      by_contra hne
      obtain ⟨i, hi⟩ := Option.ne_none_iff_exists'.mp hne
      obtain ⟨q, r, rfl, -, -⟩ := lastZero_eq_some hi
      exact h (List.mem_append_right _ List.mem_cons_self)
    rw [List.nil_append, lastZero, hnone]
    rfl
  | b :: pre, post, h => by
    rw [List.cons_append, lastZero, lastZero_append pre h]
    rfl

theorem messagePeekFields_at {fieldsSize p n : Nat} {fields q : Bytes} (hn : q.length = n)
    (hq : At fields p q) (hle : p + n ≤ fieldsSize) (hf : fieldsSize < 2 ^ 32) :
    messagePeekFields fieldsSize fields p 1 n = .ok (q, p + n) := by
  unfold messagePeekFields
  rw [alignUp_one, Nat.mod_eq_of_lt hf, if_neg (Nat.not_lt.mpr hle), bufferPeek_at_one hn hq]

theorem parseItem_unknown {fieldsSize start : Nat} {fields pre post : Bytes} (P : Parsed)
    (hdvd : 8 ∣ start) (hitem : At fields start (putWord .little 8 100 ++ (pre ++ 0 :: post)))
    (hpost : (0 : UInt8) ∉ post) (hle : start + 8 + (pre ++ 0 :: post).length ≤ fieldsSize)
    (hf : fieldsSize < 2 ^ 32) :
    parseItem .little fieldsSize fields P start (start + 8 + (pre ++ 0 :: post).length) =
      .ok (P, start + 8) := by
  obtain ⟨hcode, hval⟩ := at_append.mp hitem
  rw [length_putWord] at hval
  have hup : alignUp start 8 = start := alignUp_of_dvd (by decide) hdvd
  have hup' : alignUp (start + 8) 8 = start + 8 :=
    alignUp_of_dvd (by decide) (Nat.dvd_add hdvd (Nat.dvd_refl 8))
  have hpeek : messagePeekFields fieldsSize fields start 8 8 =
      .ok (putWord .little 8 100, start + 8) := by
    unfold messagePeekFields
    rw [hup, Nat.mod_eq_of_lt hf, if_neg (by omega),
      bufferPeek_at (by decide) (length_putWord .little 8 100) (by
        rw [padTo, hup, Nat.sub_self, zeros_zero, List.nil_append]
        exact hcode), hup]
  unfold parseItem
  rw [hpeek]
  dsimp only
  rw [if_neg (by omega), hup', Nat.add_sub_cancel_left, messagePeekFields_at rfl hval hle hf]
  dsimp only
  rw [lastZero_append pre hpost, getWord_putWord_of_lt _ (by decide)]
  rfl


theorem footerSignature_at {pre s word : Bytes} (h0 : (0 : UInt8) ∉ s) :
    footerSignature
      ((pre ++ 0 :: sdBusTypeStructBegin :: (s ++ [sdBusTypeStructEnd])) ++ word) word.length =
      .ok (pre.length, s) := by
  have hpost : (0 : UInt8) ∉ sdBusTypeStructBegin :: (s ++ [sdBusTypeStructEnd]) := by
    simp only [List.mem_cons, List.mem_append, List.not_mem_nil, or_false, not_or]
    exact ⟨by decide, h0, by decide⟩
  unfold footerSignature
  rw [if_neg (by simp only [List.length_append, List.length_cons]; omega), List.length_append,
    Nat.add_sub_cancel, List.take_left]
  dsimp only
  rw [lastZero_append pre hpost]
  dsimp only
  have hl : (pre ++ 0 :: sdBusTypeStructBegin :: (s ++ [sdBusTypeStructEnd])).length -
      (pre.length + 1) = s.length + 2 := by
    simp only [List.length_append, List.length_cons, List.length_nil]
    omega
  have hdrop : ∀ k, (pre ++ 0 :: sdBusTypeStructBegin :: (s ++ [sdBusTypeStructEnd])).drop
      (pre.length + k) = (0 :: sdBusTypeStructBegin :: (s ++ [sdBusTypeStructEnd])).drop k :=
    List.drop_length_add_append
  have hlast : charAt (pre ++ 0 :: sdBusTypeStructBegin :: (s ++ [sdBusTypeStructEnd]))
      (pre.length + (s.length + 2)) = sdBusTypeStructEnd := by
    rw [charAt_drop, hdrop, List.drop_succ_cons, List.drop_succ_cons, List.drop_left]
    rfl
  rw [hl, hlast, charAt_drop _ (pre.length + 1), hdrop, hdrop, if_neg (by
    rintro (h | h | h)
    · omega
    · exact h rfl
    · exact h rfl)]
  exact congrArg (fun t => Except.ok (pre.length, t)) (List.take_left' (by rw [Nat.add_sub_cancel]))

/-- Two fields with codes that are not known, the second of which holds `n + 1` zeros. -/
def largeFields (n : Nat) : Bytes :=
  (putWord .little 8 100 ++ ([] ++ 0 :: [])) ++ (zeros 7 ++
    ((putWord .little 8 100 ++ (zeros n ++ 0 :: [])) ++ ([9, 0, 0, 0, 232, 0] ++ [40, 41])))

def largeMessage (n : Nat) : Bytes :=
  ([108, 9, 0, 2, 0, 0, 0, 0] ++ putWord .little 8 1) ++ (largeFields n ++ [0, 1, 40, 41])

theorem length_largeFields (n : Nat) : (largeFields n).length = n + 33 := by
  simp only [largeFields, List.length_append, length_putWord, length_zeros, List.length_cons,
    List.length_nil]
  omega

theorem length_largeMessage (n : Nat) : (largeMessage n).length = n + 53 := by
  simp only [largeMessage, List.length_append, length_putWord, length_largeFields,
    List.length_cons, List.length_nil]
  omega

theorem wordSize_four {n : Nat} (h : 0xffff < n) (h' : n ≤ 0xffffffff) : wordSize n = 4 := by
  unfold wordSize
  rw [if_neg (by omega), if_neg (by omega), if_pos h']

theorem largeMessage_at (n : Nat) :
    At (largeMessage n) 8 (putWord .little 8 1) ∧ At (largeMessage n) 16 (largeFields n) ∧
      At (largeMessage n) (n + 49) [0, 1, 40, 41] := by
  refine ⟨⟨[108, 9, 0, 2, 0, 0, 0, 0], largeFields n ++ [0, 1, 40, 41], ?_, rfl⟩,
    ⟨[108, 9, 0, 2, 0, 0, 0, 0] ++ putWord .little 8 1, [0, 1, 40, 41], rfl, rfl⟩,
    ⟨([108, 9, 0, 2, 0, 0, 0, 0] ++ putWord .little 8 1) ++ largeFields n, [], ?_, ?_⟩⟩
  · rw [largeMessage, List.append_assoc]
  · rw [largeMessage, List.append_nil, ← List.append_assoc]
  · rw [List.length_append, length_largeFields]
    change 16 + (n + 33) = _
    omega

theorem largeFields_at (n : Nat) :
    At (largeFields n) 0 (putWord .little 8 100 ++ ([] ++ 0 :: [])) ∧
      At (largeFields n) 16 (putWord .little 8 100 ++ (zeros n ++ 0 :: [])) ∧
      At (largeFields n) (n + 25) [9, 0, 0, 0, 232, 0, 40, 41] ∧
      At (largeFields n) (n + 29) [232, 0, 40, 41] := by
  have hat := at_self (rfl : largeFields n = _)
  obtain ⟨h0, hat⟩ := at_append.mp hat
  obtain ⟨-, hat⟩ := at_append.mp hat
  obtain ⟨h1, hat⟩ := at_append.mp hat
  have hlen : 0 + (putWord .little 8 100 ++ ([] ++ 0 :: [])).length + (zeros 7).length = 16 := rfl
  rw [hlen] at h1 hat
  have hpos : 16 + (putWord .little 8 100 ++ (zeros n ++ 0 :: [])).length = n + 25 := by
    simp only [List.length_append, length_putWord, length_zeros, List.length_cons, List.length_nil]
    omega
  rw [hpos] at hat
  refine ⟨h0, h1, hat, ?_⟩
  exact (at_append.mp (show At (largeFields n) (n + 25) ([9, 0, 0, 0] ++ [232, 0, 40, 41])
    from hat)).2

section
variable {n : Nat} (hn : n + 25 = 0x292800e8)

include hn

theorem footerWord_largeMessage : footerWord (largeMessage n) = 0x29280100 := by
  have hword : slice (largeMessage n) (n + 49) 4 = [0, 1, 40, 41] := (largeMessage_at n).2.2.slice_eq
  unfold footerWord
  rw [length_largeMessage, wordSize_four (by omega) (by omega),
    show n + 53 - 4 = n + 49 by omega, hword]
  decide

theorem fromHeader_largeMessage :
    busMessageFromHeader .w64 (largeMessage n) = .ok ⟨0x292800f0, 4⟩ := by
  have hcookie := (largeMessage_at n).1.slice_eq
  rw [length_putWord] at hcookie
  have hc : charAt (largeMessage n) 3 = 2 ∧ charAt (largeMessage n) 1 = 9 ∧
      charAt (largeMessage n) 0 = 108 := ⟨rfl, rfl, rfl⟩
  unfold busMessageFromHeader
  rw [length_largeMessage, hc.1, hc.2.1, hc.2.2, hcookie, footerWord_largeMessage hn,
    show n + 53 = 0x29280104 by omega]
  dsimp only
  rw [if_neg (by decide), if_neg (by decide), if_neg (by decide),
    show endianOfCode 108 = some .little from rfl]
  dsimp only
  rw [if_pos rfl, getWord_putWord_of_lt _ (by decide), if_neg (by decide),
    wordSize_four (by decide) (by decide), if_neg (by decide), if_neg (by decide),
    if_neg (by decide)]
  decide

theorem fieldOffsets_largeFields : fieldOffsets 0x292800f0 (largeFields n) =
    .ok ([9, 0, 0, 0, 232, 0, 40, 41], 2) := by
  obtain ⟨-, -, htable, hlast⟩ := largeFields_at n
  rw [hn] at htable
  rw [show n + 29 = 0x292800f0 - 4 by omega] at hlast
  unfold fieldOffsets
  dsimp only
  rw [show wordSize 0x292800f0 = 4 by decide, if_neg (by decide),
    messagePeekFields_at (n := 4) rfl hlast (by decide) (by decide)]
  dsimp only
  rw [show getWord .little [232, 0, 40, 41] = 0x292800e8 by decide, if_neg (by decide),
    if_neg (by decide), show 0x292800f0 - 0x292800e8 = 8 by decide,
    messagePeekFields_at (n := 8) rfl htable (by decide) (by decide)]

theorem parseFields_largeFields (header : Header) :
    parseFields .little header 0x292800f0 (largeFields n) = .ok { header := header } := by
  obtain ⟨h0, h1, -, -⟩ := largeFields_at n
  have hitem := parseItem_unknown { header := header } (Nat.dvd_zero _) h0 List.not_mem_nil
    (show 0 + 8 + ([] ++ 0 :: [] : Bytes).length ≤ 0x292800f0 from Nat.le_of_ble_eq_true rfl) (by decide)
  rw [show 0 + 8 + ([] ++ 0 :: [] : Bytes).length = 9 from rfl, Nat.zero_add] at hitem
  have hlen : 16 + 8 + (zeros n ++ 0 :: []).length = 0x292800e8 := by
    rw [List.length_append, length_zeros, List.length_cons, List.length_nil]
    omega
  have hitem' := parseItem_unknown (P := { header := header }) ⟨2, rfl⟩ h1 List.not_mem_nil
    (hlen.le.trans (by decide : 0x292800e8 ≤ 0x292800f0)) (by decide)
  rw [hlen] at hitem'
  unfold parseFields
  rw [fieldOffsets_largeFields hn]
  dsimp only
  rw [show wordSize 0x292800f0 = 4 by decide, parseItems, if_neg (by decide), if_neg (by decide)]
  dsimp only
  rw [if_pos rfl, show tableWord 4 [9, 0, 0, 0, 232, 0, 40, 41] 0 = 9 by decide, hitem]
  dsimp only
  rw [parseItems, if_neg (by decide), if_neg (by decide)]
  dsimp only
  rw [if_neg (by decide), show alignUp (tableWord 4 [9, 0, 0, 0, 232, 0, 40, 41] (0 + 1 - 1)) 8 = 16
    by decide, show tableWord 4 [9, 0, 0, 0, 232, 0, 40, 41] (0 + 1) = 0x292800e8 by decide, hitem']
  dsimp only
  rw [parseItems, if_neg (by decide), if_pos (by decide)]

omit hn in
theorem largeMessage_eq : ∃ pre : Bytes, pre.length = n + 46 ∧ largeMessage n =
    (pre ++ 0 :: sdBusTypeStructBegin :: ([] ++ [sdBusTypeStructEnd])) ++ [0, 1, 40, 41] := by
  refine ⟨([108, 9, 0, 2, 0, 0, 0, 0] ++ putWord .little 8 1) ++
    ((putWord .little 8 100 ++ ([] ++ 0 :: [])) ++ (zeros 7 ++
      ((putWord .little 8 100 ++ (zeros n ++ 0 :: [])) ++ [9, 0, 0, 0, 232]))), ?_, ?_⟩
  · simp only [List.length_append, length_putWord, length_zeros, List.length_cons, List.length_nil]
    omega
  · simp only [largeMessage, largeFields, List.append_assoc, List.cons_append, List.nil_append]
    rfl

theorem fromMalloc_largeMessage : ∃ m, busMessageFromMalloc (largeMessage n) [] = .ok m ∧
    m.bodySize < m.userBodySize := by
  obtain ⟨pre, hpre, heq⟩ := largeMessage_eq (n := n)
  have hsig : footerSignature (largeMessage n) 4 = .ok (n + 46, []) := by
    rw [heq, ← hpre]
    exact footerSignature_at List.not_mem_nil
  have hsize : busMessageSize ⟨0x292800f0, 4⟩ = 0x29280104 := by decide
  have hfields : slice (largeMessage n) busHeaderSize 0x292800f0 = largeFields n := by
    have h := (largeMessage_at n).2.1.slice_eq
    rw [length_largeFields, show n + 33 = 0x292800f0 by omega] at h
    exact h
  have hbody : (largeMessage n).drop 0x29280100 = [0, 1, 40, 41] := by
    have hlen : (pre ++ 0 :: sdBusTypeStructBegin :: ([] ++ [sdBusTypeStructEnd])).length =
        0x29280100 := by
      simp only [List.length_append, hpre, List.length_cons, List.length_nil]
      omega
    rw [heq, ← hlen, List.drop_left]
  have huser : userBodySize (largeMessage n) 4 (n + 46) = 2 ^ 64 - 3 := by
    unfold userBodySize
    rw [length_largeMessage, show n + 53 - (n + 46) = 7 by omega]
    decide
  unfold busMessageFromMalloc
  rw [fromHeader_largeMessage hn, show charAt (largeMessage n) 0 = 108 from rfl,
    show charAt (largeMessage n) 1 = 9 from rfl, show charAt (largeMessage n) 2 = 0 from rfl,
    show charAt (largeMessage n) 3 = 2 from rfl, show endianOfCode 108 = some .little from rfl]
  dsimp only
  rw [if_pos rfl, if_pos rfl]
  unfold parseGvariant
  rw [hsize, wordSize_four (by decide) (by decide), hsig]
  dsimp only
  rw [hfields, parseFields_largeFields hn, huser]
  dsimp only
  have hcheck : ∀ (f : Bytes) (k : Nat),
      checkParsed { header := { type := 9, fields := f, serial := k } } [] = true := fun _ _ => rfl
  rw [hcheck, if_neg (show ¬true = false by decide),
    show busHeaderSize + SizeT.w64.align8 0x292800f0 = 0x29280100 by decide, hbody]
  unfold buildStructOffsets messagePeekBody
  rw [if_pos rfl]
  dsimp only
  rw [if_neg (by decide), if_neg (by decide), if_neg (by decide), if_neg (by decide)]
  dsimp only
  rw [if_neg (by decide)]
  dsimp only
  rw [if_neg (show (9 : UInt8) ≠ sdBusMessageMethodError by decide)]
  exact ⟨_, rfl, show 4 < 2 ^ 64 - 3 by decide⟩

end

/-! ## What is accepted is consistent -/

/-- An accepted message is consistent, and its signature is where it is looked for, if and only if,
in version 2, a NUL stands in the body in front of the last word. -/
theorem accepted_consistent {buffer : Bytes} {fds : List Nat} {m : Inbound}
    (hlen : buffer.length < 2 ^ 64) (h : busMessageFromMalloc buffer fds = .ok m) :
    Consistent buffer m ∧ SignatureIn buffer m ↔
      (m.version = 2 → (0 : UInt8) ∈ bodyText buffer) := by
  unfold busMessageFromMalloc at h
  split at h
  · cases h
  · cases h
  rename_i z e hz he
  dsimp only at h
  split at h
  · rename_i hv
    obtain ⟨hver, hiff⟩ := consistent_gvariant hlen hv hz rfl h
    exact hiff.trans ⟨fun h0 _ => h0, fun h0 => h0 hver⟩
  · rename_i hv
    obtain ⟨hver, hcons⟩ := consistent_dbus1 hv hz rfl h
    exact iff_of_true hcons fun h2 => absurd (hver.symm.trans h2) (by decide)

def shortMessage : Bytes :=
  [108, 1, 0, 2, 0, 0, 0, 0, 1, 0, 0, 0, 0, 0, 0, 0] ++
    [1, 0, 0, 0, 0, 0, 0, 0, 47, 0, 0, 111, 0, 0, 0, 0, 3, 0, 0, 0, 0, 0, 0, 0, 77, 0, 0, 115, 12,
      28, 0, 0] ++ [7, 0, 0, 0, 0, 40, 117, 41, 46]

theorem fromMalloc_shortMessage : ∃ m, busMessageFromMalloc shortMessage [] = .ok m ∧
    m.version = 2 ∧ m.root.signature = some [sdBusTypeUint32] := by
  have h : (busMessageFromMalloc shortMessage []).toOption.map
      (fun m => (m.version, m.root.signature)) = some (2, some [sdBusTypeUint32]) := by
    decide +kernel
  obtain ⟨m, hm, hs⟩ := Option.map_eq_some_iff.mp h
  cases hr : busMessageFromMalloc shortMessage [] with
  | error r =>
    rw [hr] at hm
    cases hm
  | ok m' =>
    rw [hr] at hm
    cases hm
    exact ⟨m, rfl, congrArg Prod.fst hs, congrArg Prod.snd hs⟩

theorem accepted_consistent_short : ∃ m, busMessageFromMalloc shortMessage [] = .ok m ∧
    Consistent shortMessage m ∧ SignatureIn shortMessage m := by
  obtain ⟨m, hm, -, -⟩ := fromMalloc_shortMessage
  exact ⟨m, hm, (accepted_consistent (by decide) hm).mpr fun _ => by decide⟩

/-- The signature of a version 2 message does not end with a NUL in the message, and where no NUL
stands in the body the size of the user's part wraps around. -/
theorem not_accepted_consistent :
    (∃ m, busMessageFromMalloc shortMessage [] = .ok m ∧
      ∃ s ∈ m.root.signature, ¬ Stored shortMessage s) ∧
    ∃ m, busMessageFromMalloc (largeMessage 0x292800cf) [] = .ok m ∧
      m.bodySize < m.userBodySize := by
  refine ⟨?_, fromMalloc_largeMessage (by decide)⟩
  obtain ⟨m, hm, -, hs⟩ := fromMalloc_shortMessage
  refine ⟨m, hm, _, hs, ?_⟩
  rintro ⟨-, i, hat⟩
  have hle : i < 57 := by
    have := hat.le_length
    exact Nat.lt_of_lt_of_le (by omega : i < i + 2) this
  exact absurd hat.slice_eq ((by decide : ∀ i < 57, slice shortMessage i 2 ≠ [sdBusTypeUint32, 0])
    i hle)

end Basu.GVariant
