import Basu.Message.Parse

/-! Header fields, written and parsed. The bytes the constructors and setters leave behind are
the encoded list of the fields they were given, and the parser gets the same fields back from
them, provided each one passes its own check. -/

namespace Basu
open Lib

def encFields (e : Endian) : List Field → Nat → Bytes
  | [], _ => []
  | f :: fs, p =>
    (zeros (padTo p 8) ++ f.bytes e) ++
      encFields e fs (p + (zeros (padTo p 8) ++ f.bytes e).length)

theorem encFields_append (e : Endian) (fs gs : List Field) (p : Nat) :
    encFields e (fs ++ gs) p =
      encFields e fs p ++ encFields e gs (p + (encFields e fs p).length) := by
  induction fs generalizing p with
  | nil => simp [encFields]
  | cons f fs ih =>
    simp only [List.cons_append, encFields, ih, List.append_assoc, List.length_append,
      Nat.add_assoc]

theorem encFields_singleton (e : Endian) (f : Field) (p : Nat) :
    encFields e [f] p = zeros (padTo p 8) ++ f.bytes e := by simp [encFields]

theorem messageExtendFields_ok {m m' : Message} {fill : Bytes}
    (h : messageExtendFields m fill = .ok m') :
    m' = { m with header := { m.header with
      fields := m.header.fields ++ (zeros (padTo m.header.fields.length 8) ++ fill) } } ∧
    busHeaderSize + m'.header.fields.length ≤ uint32Max := by
  have hal : alignUp (busHeaderSize + m.header.fields.length) 8 =
      busHeaderSize + alignUp m.header.fields.length 8 :=
    alignUp_add_of_dvd (by decide) (by decide)
  have hpad := add_padTo m.header.fields.length (a := 8) (by decide)
  have hsub : alignUp (busHeaderSize + m.header.fields.length) 8 -
      (busHeaderSize + m.header.fields.length) = padTo m.header.fields.length 8 := by
    rw [hal, padTo]
    omega
  simp only [messageExtendFields, hsub] at h
  split_ifs at h with h1 h2
  obtain rfl := (Except.ok.inj h).symm
  refine ⟨rfl, ?_⟩
  simp only [List.length_append, length_zeros]
  omega

theorem addField_ok {m m' : Message} {f : Field} (h : m.addField f = .ok m') :
    m' = { m with header := { m.header.add f with
      fields := m.header.fields ++ encFields m.endian [f] m.header.fields.length } } ∧
    busHeaderSize + m'.header.fields.length ≤ uint32Max := by
  have hmain : ∀ {g : Except Errno Message}, (∀ m₁, g = .ok m₁ →
      messageExtendFields m (f.bytes m.endian) = .ok m₁) →
      g.map (fun m => { m with header := m.header.add f }) = .ok m' →
      m' = { m with header := { m.header.add f with
        fields := m.header.fields ++ encFields m.endian [f] m.header.fields.length } } ∧
      busHeaderSize + m'.header.fields.length ≤ uint32Max := by
    intro g hg hmap
    cases g with
    | error r => exact absurd hmap (by simp [Except.map])
    | ok m₁ =>
      obtain ⟨rfl, hlen⟩ := messageExtendFields_ok (hg m₁ rfl)
      obtain rfl := (Except.ok.inj hmap).symm
      rw [encFields_singleton]
      cases f <;> exact ⟨rfl, hlen⟩
  unfold Message.addField at h
  cases f with
  | replySerial x =>
    refine hmain (fun m₁ hm => ?_) h
    simp only [messageAppendReplyCookie] at hm
    split_ifs at hm
    exact hm
  | unixFds x => exact hmain (fun m₁ hm => hm) h
  | signature s =>
    refine hmain (fun m₁ hm => ?_) h
    simp only [messageAppendFieldSignature] at hm
    split_ifs at hm
    exact hm
  | _ =>
    refine hmain (fun m₁ hm => ?_) h
    simp only [messageAppendFieldString] at hm
    split_ifs at hm
    exact hm

def Field.Clean : Field → Prop
  | .replySerial x | .unixFds x => x < 256 ^ 4
  | .path s | .interface s | .member s | .errorName s | .destination s | .sender s
  | .signature s => (0 : UInt8) ∉ s

def Field.valid : Field → Bool
  | .path s => objectPathIsValid s
  | .interface s => interfaceNameIsValid s
  | .member s => memberNameIsValid s
  | .errorName s => errorNameIsValid s
  | .replySerial x => x ≠ 0
  | .destination s | .sender s => serviceNameIsValid s
  | .signature s => validSignature s && s.length ≤ 254
  | .unixFds _ => true

def Header.bare (h : Header) : Header :=
  { type := h.type, flags := h.flags, serial := h.serial, fields := h.fields }

structure HInv (m : Message) (fs : List Field) : Prop where
  bytes : m.header.fields = encFields m.endian fs 0
  header : m.header = fs.foldl Header.add m.header.bare
  nodup : (fs.map Field.code).Nodup
  clean : ∀ f ∈ fs, f.Clean
  size : busHeaderSize + m.header.fields.length ≤ uint32Max

theorem Header.foldl_congr (fs : List Field) (h h' : Header)
    (he : h' = { h with type := h'.type, flags := h'.flags, serial := h'.serial,
                        fields := h'.fields }) :
    fs.foldl Header.add h' = { fs.foldl Header.add h with
      type := h'.type, flags := h'.flags, serial := h'.serial, fields := h'.fields } := by
  induction fs generalizing h h' with
  | nil => exact he
  | cons f fs ih =>
    rw [List.foldl_cons, List.foldl_cons]
    have := ih (h.add f) (h'.add f) (by rw [he]; cases f <;> rfl)
    rw [this]
    cases f <;> rfl

theorem HInv.addField {m m' : Message} {fs : List Field} {f : Field} (inv : HInv m fs)
    (hf : f.Clean) (hnew : f.code ∉ fs.map Field.code) (h : m.addField f = .ok m') :
    HInv m' (fs ++ [f]) := by
  obtain ⟨hm, hsize⟩ := addField_ok h
  have he : m'.endian = m.endian := by rw [hm]
  refine ⟨?_, ?_, ?_, ?_, hsize⟩
  · rw [he, encFields_append, Nat.zero_add, ← inv.bytes, hm]
  · rw [List.foldl_append, List.foldl_cons, List.foldl_nil]
    have hc := Header.foldl_congr fs m.header.bare m'.header.bare rfl
    rw [hc, ← inv.header, hm]
    cases f <;> rfl
  · rw [List.map_append, List.nodup_append]
    refine ⟨inv.nodup, by simp, ?_⟩
    intro a ha b hb hab
    subst hab
    simp only [List.map_cons, List.map_nil, List.mem_singleton] at hb
    exact hnew (hb ▸ ha)
  · intro g hg
    rcases List.mem_append.mp hg with hg | hg
    · exact inv.clean g hg
    · rw [List.mem_singleton.mp hg]
      exact hf

theorem HInv.addFields {m m' : Message} {fs gs : List Field} (inv : HInv m fs)
    (hg : ∀ g ∈ gs, g.Clean) (hnew : ((fs ++ gs).map Field.code).Nodup)
    (h : m.addFields gs = .ok m') : HInv m' (fs ++ gs) := by
  induction gs generalizing m fs with
  | nil =>
    obtain rfl := Except.ok.inj h
    simpa using inv
  | cons g gs ih =>
    simp only [Message.addFields] at h
    split at h
    · exact absurd h (by simp)
    · rename_i m₁ hm₁
      have hc : g.code ∉ fs.map Field.code := by
        rw [List.map_append, List.nodup_append] at hnew
        intro hmem
        exact hnew.2.2 _ hmem g.code (by simp) rfl
      have inv₁ := inv.addField (hg g (by simp)) hc hm₁
      have := ih inv₁ (fun g' hg' => hg g' (by simp [hg'])) (by simpa using hnew) h
      simpa using this

theorem addFields_frame {m m' : Message} {gs : List Field} (h : m.addFields gs = .ok m') :
    m' = { m with header := m'.header } ∧ m'.header.type = m.header.type ∧
      m'.header.flags = m.header.flags ∧ m'.header.serial = m.header.serial := by
  induction gs generalizing m with
  | nil =>
    obtain rfl := Except.ok.inj h
    exact ⟨rfl, rfl, rfl, rfl⟩
  | cons g gs ih =>
    simp only [Message.addFields] at h
    split at h
    · exact absurd h (by simp)
    · rename_i m₁ hm₁
      obtain ⟨hm, -⟩ := addField_ok hm₁
      obtain ⟨h1, h2, h3, h4⟩ := ih h
      rw [hm] at h1 h2 h3 h4
      refine ⟨by rw [h1], ?_, ?_, ?_⟩
      · rw [h2]; cases g <;> rfl
      · rw [h3]; cases g <;> rfl
      · rw [h4]; cases g <;> rfl

def Parsed.Lacks (P : Parsed) : Field → Prop
  | .path _ => P.header.path = none
  | .interface _ => P.header.interface = none
  | .member _ => P.header.member = none
  | .errorName _ => P.header.errorName = none
  | .replySerial _ => P.header.replyCookie = 0
  | .destination _ => P.header.destination = none
  | .sender _ => P.header.sender = none
  | .signature _ => P.signature = none
  | .unixFds _ => P.unixFds = none

theorem Parsed.Lacks.add {P : Parsed} {f g : Field} (h : P.Lacks g) (hfg : f.code ≠ g.code) :
    (P.add f).Lacks g := by
  cases f <;> cases g <;> first | exact h | exact absurd rfl hfg

theorem Field.type_mem (f : Field) :
    f.type ∈ [sdBusTypeObjectPath, sdBusTypeSignature, sdBusTypeUint32, sdBusTypeString] := by
  cases f <;> simp [Field.type]

theorem Field.validSignature_type (f : Field) : validSignature [f.type] = true := by
  have h : ∀ t ∈ [sdBusTypeObjectPath, sdBusTypeSignature, sdBusTypeUint32, sdBusTypeString],
      validSignature [t] = true := by decide +kernel
  exact h _ f.type_mem

theorem Field.type_ne_zero (f : Field) : f.type ≠ 0 := by
  have h := f.type_mem
  simp only [List.mem_cons, List.not_mem_nil, or_false] at h
  rcases h with h | h | h | h <;> rw [h] <;> decide

theorem parseField_at {e : Endian} {fields : Bytes} {P : Parsed} {ri : Nat} {f : Field}
    (h : At fields ri (zeros (padTo ri 8) ++ f.bytes e)) :
    parseField e fields P ri =
      parseFieldValue e fields P f.code [f.type] (alignUp ri 8 + 4) ∧
    At fields (alignUp ri 8 + 4) (f.payload e) := by
  have hcut : zeros (padTo ri 8) ++ f.bytes e =
      (zeros (padTo ri 8) ++ [f.code]) ++ (sigBytes [f.type] ++ f.payload e) := by
    simp [Field.bytes, sigBytes]
  rw [hcut] at h
  obtain ⟨hcode, hrest⟩ := at_append.mp h
  rw [List.length_append, length_zeros, List.length_singleton, ← Nat.add_assoc,
    add_padTo ri (by decide)] at hrest
  obtain ⟨hsig, hpay⟩ := at_append.mp hrest
  have hp := bufferPeek_at (n := 1) (by decide) rfl hcode
  have hs := peekSignature_at hsig (by simpa using f.type_ne_zero.symm) (by simp)
  rw [if_pos f.validSignature_type, length_sigBytes, List.length_singleton] at hs
  rw [length_sigBytes, List.length_singleton] at hpay
  have h4 : alignUp ri 8 + 1 + (1 + 2) = alignUp ri 8 + 4 := by omega
  rw [h4] at hpay hs
  refine ⟨?_, hpay⟩
  simp only [parseField, hp, hs, charAt_cons_zero]

theorem parseStringField_at {e : Endian} {fields : Bytes} {type : UInt8} {s : Str}
    {validate : Str → Bool} {add : Str → Parsed} {p : Nat} (hat : At fields p (strBytes e s))
    (hp : 4 ∣ p) (h0 : (0 : UInt8) ∉ s) (hlen : fields.length ≤ uint32Max) :
    parseStringField e fields none [type] type validate add p =
      if validate s then .ok (add s, p + (strBytes e s).length) else .error .ebadmsg := by
  have hal : alignUp p 4 = p := alignUp_of_dvd (by decide) hp
  have hpad : padTo p 4 = 0 := by rw [padTo, hal, Nat.sub_self]
  have hle := hat.le_length
  have hs : s.length < uint32Max := by
    simp only [strBytes, List.length_append, length_putWord, List.length_singleton] at hle
    omega
  have hpadded : At fields p (zeros (padTo p 4) ++ strBytes e s) := by
    rwa [hpad, zeros_zero, List.nil_append]
  have := peekString_at validate hpadded h0 hs
  rw [hal] at this
  simp only [parseStringField, this, Option.isSome_none, Bool.false_eq_true, ne_eq,
    not_true_eq_false, if_false]
  split_ifs <;> rfl

theorem parseFieldValue_at {e : Endian} {fields : Bytes} {P : Parsed} {f : Field} {p : Nat}
    (hat : At fields p (f.payload e)) (hp : 4 ∣ p) (hc : f.Clean)
    (hlen : fields.length ≤ uint32Max) (hP : P.Lacks f) :
    (f.valid = true → parseFieldValue e fields P f.code [f.type] p =
      .ok (P.add f, p + (f.payload e).length)) ∧
    ∀ r, parseFieldValue e fields P f.code [f.type] p = .ok r → f.valid = true := by
  have hstr : ∀ {s : Str} {type : UInt8} {validate : Str → Bool} {add : Str → Parsed}
      {g : Except Errno (Parsed × Nat)}, At fields p (strBytes e s) → (0 : UInt8) ∉ s →
      g = parseStringField e fields none [type] type validate add p →
      (validate s = true → g = .ok (add s, p + (strBytes e s).length)) ∧
      ∀ r, g = .ok r → validate s = true := by
    intro s type validate add g hs h0 hg
    rw [hg, parseStringField_at hs hp h0 hlen]
    refine ⟨fun hv => by rw [if_pos hv], fun r hr => ?_⟩
    by_contra hv
    rw [if_neg hv] at hr
    exact absurd hr (by simp)
  have hal : alignUp p 4 = p := alignUp_of_dvd (by decide) hp
  have hpad : padTo p 4 = 0 := by rw [padTo, hal, Nat.sub_self]
  cases f with
  | path s =>
    have heq : parseFieldValue e fields P 1 [sdBusTypeObjectPath] p =
        parseStringField e fields none [sdBusTypeObjectPath] sdBusTypeObjectPath objectPathIsValid
          (fun s => P.add (.path s)) p := by
      simp only [parseFieldValue, show P.header.path = none from hP]
      rfl
    exact hstr hat hc heq
  | interface s =>
    have heq : parseFieldValue e fields P 2 [sdBusTypeString] p =
        parseStringField e fields none [sdBusTypeString] sdBusTypeString interfaceNameIsValid
          (fun s => P.add (.interface s)) p := by
      simp only [parseFieldValue, show P.header.interface = none from hP]
      rfl
    exact hstr hat hc heq
  | member s =>
    have heq : parseFieldValue e fields P 3 [sdBusTypeString] p =
        parseStringField e fields none [sdBusTypeString] sdBusTypeString memberNameIsValid
          (fun s => P.add (.member s)) p := by
      simp only [parseFieldValue, show P.header.member = none from hP]
      rfl
    exact hstr hat hc heq
  | errorName s =>
    have heq : parseFieldValue e fields P 4 [sdBusTypeString] p =
        parseStringField e fields none [sdBusTypeString] sdBusTypeString errorNameIsValid
          (fun s => P.add (.errorName s)) p := by
      simp only [parseFieldValue, show P.header.errorName = none from hP]
      rfl
    exact hstr hat hc heq
  | destination s =>
    have heq : parseFieldValue e fields P 6 [sdBusTypeString] p =
        parseStringField e fields none [sdBusTypeString] sdBusTypeString serviceNameIsValid
          (fun s => P.add (.destination s)) p := by
      simp only [parseFieldValue, show P.header.destination = none from hP]
      rfl
    exact hstr hat hc heq
  | sender s =>
    have heq : parseFieldValue e fields P 7 [sdBusTypeString] p =
        parseStringField e fields none [sdBusTypeString] sdBusTypeString serviceNameIsValid
          (fun s => P.add (.sender s)) p := by
      simp only [parseFieldValue, show P.header.sender = none from hP]
      rfl
    exact hstr hat hc heq
  | signature s =>
    have heq : parseFieldValue e fields P 8 [sdBusTypeSignature] p =
        (peekSignature fields p).map fun r => (P.add (.signature r.1), r.2) := by
      simp only [parseFieldValue, show P.signature = none from hP]
      rfl
    change (_ → parseFieldValue e fields P 8 [sdBusTypeSignature] p = _) ∧
      ∀ r, parseFieldValue e fields P 8 [sdBusTypeSignature] p = .ok r → _
    rw [heq]
    constructor
    · intro hv
      simp only [Field.valid, Bool.and_eq_true, decide_eq_true_eq] at hv
      rw [peekSignature_at hat hc hv.2, if_pos hv.1]
      rfl
    · intro r hr
      by_cases hl : s.length ≤ 254
      · rw [peekSignature_at hat hc hl] at hr
        by_cases hv : validSignature s = true
        · simp [Field.valid, hv, hl]
        · rw [if_neg hv] at hr
          exact absurd hr (by simp [Except.map])
      · cases hs : peekSignature fields p with
        | error x => rw [hs] at hr; exact absurd hr (by simp [Except.map])
        | ok x => exact absurd hs (peekSignature_long hat hc (by omega) x)
  | replySerial x =>
    have hpadded : At fields p (zeros (padTo p 4) ++ putWord e 4 x) := by
      rw [hpad, zeros_zero, List.nil_append]
      exact hat
    have hw := peekUint32_at hc hpadded
    rw [hal] at hw
    have heq : parseFieldValue e fields P 5 [sdBusTypeUint32] p =
        if x = 0 then .error .ebadmsg else .ok (P.add (.replySerial x), p + 4) := by
      simp only [parseFieldValue, show P.header.replyCookie = 0 from hP, hw]
      rfl
    change (_ → parseFieldValue e fields P 5 [sdBusTypeUint32] p = _) ∧
      ∀ r, parseFieldValue e fields P 5 [sdBusTypeUint32] p = .ok r → _
    rw [heq]
    constructor
    · intro hv
      rw [if_neg (by simpa [Field.valid] using hv)]
      simp [Field.payload]
    · intro r hr
      by_cases hx : x = 0
      · rw [if_pos hx] at hr
        exact absurd hr (by simp)
      · simpa [Field.valid] using hx
  | unixFds x =>
    have hpadded : At fields p (zeros (padTo p 4) ++ putWord e 4 x) := by
      rw [hpad, zeros_zero, List.nil_append]
      exact hat
    have hw := peekUint32_at hc hpadded
    rw [hal] at hw
    refine ⟨fun _ => ?_, fun _ _ => rfl⟩
    have heq : parseFieldValue e fields P 9 [sdBusTypeUint32] p =
        .ok (P.add (.unixFds x), p + 4) := by
      simp only [parseFieldValue, show P.unixFds = none from hP, hw]
      rfl
    simpa [Field.payload, Field.code, Field.type] using heq

theorem parseFieldsLoop_at {e : Endian} {fields : Bytes} {fs : List Field} {P : Parsed}
    {ri fuel : Nat} (hat : At fields ri (encFields e fs ri))
    (hend : ri + (encFields e fs ri).length = fields.length) (hc : ∀ f ∈ fs, f.Clean)
    (hn : (fs.map Field.code).Nodup) (hP : ∀ f ∈ fs, P.Lacks f) (hfuel : fs.length < fuel)
    (hlen : fields.length ≤ uint32Max) :
    ((∀ f ∈ fs, f.valid = true) →
      parseFieldsLoop e fields fuel P ri = .ok (fs.foldl Parsed.add P)) ∧
    ∀ r, parseFieldsLoop e fields fuel P ri = .ok r → ∀ f ∈ fs, f.valid = true := by
  induction fs generalizing P ri fuel with
  | nil =>
    obtain ⟨fuel, rfl⟩ : ∃ k, fuel = k + 1 := ⟨fuel - 1, by simp at hfuel; omega⟩
    simp only [encFields, List.length_nil, Nat.add_zero] at hend
    refine ⟨fun _ => ?_, by simp⟩
    rw [parseFieldsLoop, if_pos (by omega)]
    rfl
  | cons f fs ih =>
    obtain ⟨fuel, rfl⟩ : ∃ k, fuel = k + 1 := ⟨fuel - 1, by simp at hfuel; omega⟩
    rw [encFields] at hat hend
    obtain ⟨hf, hrest⟩ := at_append.mp hat
    obtain ⟨hparse, hpay⟩ := parseField_at (P := P) hf
    have hdvd : 4 ∣ alignUp ri 8 + 4 :=
      Nat.dvd_add (Nat.dvd_trans (by decide) (dvd_alignUp ri 8)) (by decide)
    have hval := parseFieldValue_at hpay hdvd (hc f (by simp)) hlen (hP f (by simp))
    have hpos : ri + (zeros (padTo ri 8) ++ f.bytes e).length =
        alignUp ri 8 + 4 + (f.payload e).length := by
      rw [List.length_append, length_zeros, ← Nat.add_assoc, add_padTo ri (by decide),
        Field.bytes, List.length_append]
      simp only [List.length_cons, List.length_nil]
      omega
    rw [List.map_cons, List.nodup_cons] at hn
    have ih' := @ih (P.add f) _ fuel hrest
      (by rw [List.length_append] at hend; omega) (fun g hg => hc g (by simp [hg])) hn.2
      (fun g hg => (hP g (by simp [hg])).add fun he =>
        hn.1 (List.mem_map.mpr ⟨g, hg, he.symm⟩))
      (by rw [List.length_cons] at hfuel; omega)
    have hlt : ¬ fields.length ≤ ri := by
      have := hf.le_length
      simp only [Field.bytes, List.length_append, length_zeros, List.length_cons,
        List.length_nil] at this
      omega
    rw [parseFieldsLoop, if_neg hlt, hparse]
    rw [hpos] at ih'
    constructor
    · intro hall
      rw [hval.1 (hall f (by simp)), List.foldl_cons]
      exact ih'.1 fun g hg => hall g (by simp [hg])
    · intro r hr
      cases hv : parseFieldValue e fields P f.code [f.type] (alignUp ri 8 + 4) with
      | error x => rw [hv] at hr; exact absurd hr (by simp)
      | ok x =>
        have hfv := hval.2 x hv
        rw [hval.1 hfv] at hr
        intro g hg
        rcases List.mem_cons.mp hg with rfl | hg
        · exact hfv
        · exact ih'.2 r hr g hg

end Basu
