import Basu.Message.Draft

/-! Sealed messages and their bytes: what sealing adds to a draft, and what
`bus_message_from_malloc` makes of the bytes that come out. -/

namespace Basu
open Lib

structure SealedAs (s : Message) (fs : List Field) (vs : List Val) : Prop where
  fields : HInv s (fs ++ sealFields (Ty.sigs (Val.tys vs)) s.fds)
  signature : strempty s.root.signature = Ty.sigs (Val.tys vs)
  body : s.body = Val.encs s.endian vs 0
  bodySize : s.bodySize = s.body.length
  limit : s.bodySize ≤ uint32Max
  serial : s.header.serial ≤ uint32Max

theorem HInv.withSerial {m : Message} {fs : List Field} (inv : HInv m fs) (serial : Nat) :
    HInv { m with header := { m.header with serial := serial } } fs := by
  refine ⟨inv.bytes, ?_, inv.nodup, inv.clean, inv.size⟩
  have := Header.foldl_congr fs m.header.bare { m.header.bare with serial := serial } rfl
  rw [← inv.header] at this
  exact this.symm

theorem sealFields_code {sig : Str} {fds : List Nat} {f : Field} (h : f ∈ sealFields sig fds) :
    8 ≤ f.code := by
  simp only [sealFields, List.mem_append] at h
  rcases h with h | h
  · split_ifs at h
    · exact absurd h (by simp)
    · rw [List.mem_singleton.mp h]; simp [Field.code]
  · split_ifs at h
    · exact absurd h (by simp)
    · rw [List.mem_singleton.mp h]; simp [Field.code]

theorem nodup_sealFields {fs : List Field} (h : (fs.map Field.code).Nodup)
    (hp : ∀ f ∈ fs, f.code < 8) (sig : Str) (fds : List Nat) :
    ((fs ++ sealFields sig fds).map Field.code).Nodup := by
  rw [List.map_append, List.nodup_append]
  refine ⟨h, ?_, ?_⟩
  · unfold sealFields
    split_ifs <;> simp [Field.code]
  · intro a ha b hb hab
    obtain ⟨f, hf, rfl⟩ := List.mem_map.mp ha
    obtain ⟨g, hg, rfl⟩ := List.mem_map.mp hb
    have h1 := hp f hf
    have h2 := sealFields_code hg
    rw [hab] at h1
    exact absurd h1 (UInt8.not_lt.mpr h2)

theorem addFields_header {m m' : Message} {gs : List Field} (hg : ∀ g ∈ gs, 8 ≤ g.code)
    (h : m.addFields gs = .ok m') :
    m'.header = { m.header with fields := m'.header.fields } := by
  induction gs generalizing m with
  | nil =>
    obtain rfl := Except.ok.inj h
    rfl
  | cons g gs ih =>
    simp only [Message.addFields] at h
    split at h
    · exact absurd h (by simp)
    · rename_i m₁ hm₁
      obtain ⟨hm, -⟩ := addField_ok hm₁
      have hcode := hg g (by simp)
      have hadd : m.header.add g = m.header := by
        cases g with
        | signature s => rfl
        | unixFds x => rfl
        | _ => exact absurd hcode (by simp [Field.code])
      rw [ih (fun g' hg' => hg g' (by simp [hg'])) h, hm, hadd]

theorem Draft.seal {m s : Message} {fs : List Field} {T : Tree} {cookie : Nat} (d : Draft m fs T)
    (h : sdBusMessageSeal m cookie = .ok s) :
    T.frames = [] ∧ s.fds = T.fds ∧ s.endian = m.endian ∧
      s.header = { m.header with fields := s.header.fields, serial := cookie } ∧
      SealedAs s fs T.root := by
  unfold sdBusMessageSeal at h
  split_ifs at h with h1 h2 h3 h4 h5
  rw [not_not] at h2
  have hsigs := d.body.sigs
  rcases hsigs.current with ⟨-, hfr, -, -, hsig, -⟩ | ⟨c, cs, f, fs', hcs, -⟩
  swap
  · exact absurd (h2.symm.trans hcs) (by simp)
  split at h
  · exact absurd h (by simp)
  · rename_i m₁ hm₁
    obtain rfl := (Except.ok.inj h).symm
    obtain ⟨hframe, -, -, -⟩ := addFields_frame hm₁
    have hheader := addFields_header (fun g hg => sealFields_code hg) hm₁
    have hfds : m₁.fds = m.fds := by rw [hframe]
    have hend : m₁.endian = m.endian := by rw [hframe]
    have hbody : m₁.body = m.body := by rw [hframe]; rfl
    have hsize : m₁.bodySize = m.bodySize := by rw [hframe]
    have hroot : m₁.root = m.root := by rw [hframe]
    have henc := d.body.body_eq
    rw [Tree.enc, hfr, encStack] at henc
    have hclean : ∀ g ∈ sealFields (strempty m.root.signature) m.fds, g.Clean := by
      intro g hg
      have hz : (0 : UInt8) ∉ strempty m.root.signature := by
        rw [hsig]; exact Ty.zero_notMem_sigs _
      have hlt : m.fds.length < 256 ^ 4 := by rw [d.body.fds]; exact d.body.fds_lt
      simp only [sealFields, List.mem_append] at hg
      rcases hg with hg | hg
      · split_ifs at hg
        · exact absurd hg (by simp)
        · rw [List.mem_singleton.mp hg]; exact hz
      · split_ifs at hg
        · exact absurd hg (by simp)
        · rw [List.mem_singleton.mp hg]; exact hlt
    have inv₁ := d.fields.addFields hclean (nodup_sealFields d.fields.nodup d.plain _ _) hm₁
    rw [hsig, ← hfds] at inv₁
    refine ⟨hfr, hfds.trans d.body.fds, hend, ?_, ?_⟩
    · exact congrArg (fun h : Header => { h with serial := cookie }) hheader
    refine ⟨(inv₁.withSerial cookie).keep rfl rfl, ?_, ?_, ?_, ?_, ?_⟩
    · exact (congrArg (fun c : Container => strempty c.signature) hroot).trans hsig
    · change m₁.body = Val.encs m₁.endian T.root 0
      rw [hbody, hend, henc]
    · change m₁.bodySize = m₁.body.length
      rw [hbody, hsize, d.body.body.size, Message.body_eq]
    · change m₁.bodySize ≤ uint32Max
      rw [hsize]
      exact d.body.limit
    · change cookie ≤ uint32Max
      omega

theorem Written.runs {bus : Bus} {ops ops' : List Op} {m m' : Message} (w : Written bus ops m)
    (h : Runs m ops' m') : Written bus (ops ++ ops') m' := by
  induction h generalizing ops with
  | nil m => simpa using w
  | cons h _ ih => simpa using ih (w.call h)

/-- As long as no refused call was misplaced, the message is what its successful calls made it:
the next refusal leaves it intact unless it is misplaced, and sealing yields a body that matches
the signature. -/
theorem calls_intact {bus : Bus} {ops done : List Op} {m m' : Message} (w : Written bus ops m)
    (h : Calls m done m') :
    (∀ (op : Op) (r : Errno) (m'' : Message), op.exec m' = (.error r, m'') → r ≠ .enomem →
      (Intact m' m'' ↔ ¬ op.Misplaced m')) ∧
    ∀ cookie s, sdBusMessageSeal m' cookie = .ok s → ∃ T, Tree.empty.Steps (ops ++ done) T ∧
      T.frames = [] ∧ strempty s.root.signature = Ty.sigs (Val.tys T.root) ∧
      s.body = Val.encs s.endian T.root 0 ∧ s.fds = T.fds := by
  refine ⟨fun op r m'' hexec hr => intact_iff hexec hr, fun cookie s hs => ?_⟩
  obtain ⟨fs, T, d, hsteps⟩ := (w.runs h.runs).draft
  obtain ⟨hfr, hfds, -, -, hsealed⟩ := d.seal hs
  exact ⟨T, hsteps, hfr, hsealed.signature, hsealed.body, hfds⟩

theorem written_blankSignal : Written { nativeEndian := .little } [] blankSignal := by
  have h : sdBusMessageNew { nativeEndian := .little } 4 = .ok blankSignal := rfl
  exact .new h

def unknownTypeOp : Op := .appendBasic (.other 122 rfl)

theorem calls_unknownType : ∃ m', Calls blankSignal [.appendBasic (.num .byte 7)] m' := by
  have h : unknownTypeOp.exec blankSignal = (.error .einval, blankSignal) := rfl
  refine ⟨_, .refused h (by decide) ?_ (.success rfl (.nil _))⟩
  rintro ⟨-, -, -, -, href⟩
  exact absurd href (by decide)

theorem calls_intact_unknownType : ∃ m', Calls blankSignal [.appendBasic (.num .byte 7)] m' ∧
    ∀ (op : Op) (r : Errno) (m'' : Message), op.exec m' = (.error r, m'') → r ≠ .enomem →
      (Intact m' m'' ↔ ¬ op.Misplaced m') := by
  obtain ⟨m', h⟩ := calls_unknownType
  exact ⟨m', h, (calls_intact written_blankSignal h).1⟩

/-- A missing object path at the top level leaves an 'o' in the signature. -/
theorem not_intact_missingPath :
    ¬ ∀ (bus : Bus) (ops : List Op) (m m' : Message) (op : Op) (r : Errno), Written bus ops m →
      op.exec m = (.error r, m') → r ≠ .enomem → Intact m m' := by
  intro hall
  have h := hall _ _ _ _ (.appendBasic (.objectPath none)) .einval written_blankSignal rfl
    (by decide)
  exact absurd h.root (by decide)

theorem endianOfCode_code (e : Endian) : endianOfCode (Endian.code e) = some e := by
  cases e <;> rfl

theorem Message.length_headerBytes (m : Message) : m.headerBytes.length = busHeaderSize := by
  simp [Message.headerBytes, busHeaderSize]

theorem fromMalloc_blob {s : Message} (hb : s.bodySize = s.body.length)
    (hl : s.bodySize ≤ uint32Max) (hs : s.header.serial ≤ uint32Max)
    (hf : s.header.fields.length ≤ uint32Max) (fds : List Nat) :
    busMessageFromMalloc s.blob fds =
      if s.header.type = 0 then .error .ebadmsg
      else if s.header.serial = 0 then .error .ebadmsg
      else busMessageParseFields s.endian s.header.bare s.header.fields s.body fds := by
  have h256 : (256 : Nat) ^ 4 = uint32Max + 1 := by decide
  have hpad := add_padTo s.header.fields.length (a := 8) (by decide)
  have hlen : s.blob.length = busHeaderSize + alignUp s.header.fields.length 8 + s.bodySize := by
    simp only [Message.blob, List.length_append, s.length_headerBytes, length_zeros]
    omega
  have hcode : charAt s.blob 0 = Endian.code s.endian := rfl
  have htype : charAt s.blob 1 = s.header.type := rfl
  have hflags : charAt s.blob 2 = s.header.flags := rfl
  have hver : charAt s.blob 3 = 1 := rfl
  have hword : ∀ (pre rest : Bytes) {x : Nat}, s.blob = pre ++ (putWord s.endian 4 x ++ rest) →
      x ≤ uint32Max → getWord s.endian (slice s.blob pre.length 4) = x := by
    intro pre rest x hblob hx
    rw [hblob, slice_middle rfl (length_putWord _ _ _), getWord_putWord_of_lt _ (by omega)]
  have hw4 := hword [Endian.code s.endian, s.header.type, s.header.flags, 1]
    (putWord s.endian 4 s.header.serial ++ (putWord s.endian 4 s.header.fields.length ++
      (s.header.fields ++ (zeros (padTo s.header.fields.length 8) ++ s.body))))
    (by simp [Message.blob, Message.headerBytes]) hl
  have hw8 := hword ([Endian.code s.endian, s.header.type, s.header.flags, 1] ++
      putWord s.endian 4 s.bodySize) (putWord s.endian 4 s.header.fields.length ++
      (s.header.fields ++ (zeros (padTo s.header.fields.length 8) ++ s.body)))
    (by simp [Message.blob, Message.headerBytes]) hs
  have hw12 := hword ([Endian.code s.endian, s.header.type, s.header.flags, 1] ++
      (putWord s.endian 4 s.bodySize ++ putWord s.endian 4 s.header.serial))
    (s.header.fields ++ (zeros (padTo s.header.fields.length 8) ++ s.body))
    (by simp [Message.blob, Message.headerBytes]) hf
  simp only [List.length_append, List.length_cons, List.length_nil, length_putWord] at hw4 hw8 hw12
  have hfields : slice s.blob busHeaderSize s.header.fields.length = s.header.fields :=
    slice_middle s.length_headerBytes rfl
  have hbody : s.blob.drop (busHeaderSize + alignUp s.header.fields.length 8) = s.body := by
    have hcut : s.blob = (s.headerBytes ++ (s.header.fields ++
        zeros (padTo s.header.fields.length 8))) ++ s.body := by
      simp [Message.blob]
    rw [hcut]
    refine List.drop_left' ?_
    simp only [List.length_append, s.length_headerBytes, length_zeros]
    omega
  have hlt : ¬ s.blob.length < busHeaderSize := by omega
  simp only [busMessageFromMalloc, hcode, htype, hflags, hver, hw4, hw8, hw12, hfields, hbody,
    endianOfCode_code, hlen]
  rw [if_neg (by omega)]
  simp only [ne_eq, not_true_eq_false, if_false]
  rfl

theorem length_le_encFields (e : Endian) (fs : List Field) (p : Nat) :
    fs.length ≤ (encFields e fs p).length := by
  induction fs generalizing p with
  | nil => simp [encFields]
  | cons f fs ih =>
    have := ih (p + (zeros (padTo p 8) ++ f.bytes e).length)
    have hb : 1 ≤ (zeros (padTo p 8) ++ f.bytes e).length := by
      rw [Field.bytes, List.length_append, List.length_append, List.length_cons]
      omega
    rw [encFields, List.length_append, List.length_cons]
    omega

theorem Parsed.foldl_header (fs : List Field) (P : Parsed) :
    (fs.foldl Parsed.add P).header = fs.foldl Header.add P.header := by
  induction fs generalizing P with
  | nil => rfl
  | cons f fs ih =>
    rw [List.foldl_cons, List.foldl_cons, ih]
    cases f <;> rfl

theorem Parsed.foldl_plain {fs : List Field} (hp : ∀ f ∈ fs, f.code < 8) (P : Parsed) :
    (fs.foldl Parsed.add P).signature = P.signature ∧
      (fs.foldl Parsed.add P).unixFds = P.unixFds := by
  induction fs generalizing P with
  | nil => exact ⟨rfl, rfl⟩
  | cons f fs ih =>
    have hf := hp f (by simp)
    obtain ⟨h1, h2⟩ := ih (fun g hg => hp g (by simp [hg])) (P.add f)
    rw [List.foldl_cons, h1, h2]
    cases f with
    | signature s => exact absurd hf (by simp [Field.code])
    | unixFds x => exact absurd hf (by simp [Field.code])
    | _ => exact ⟨rfl, rfl⟩

def Message.parsed (s : Message) (signature : Str) : Parsed where
  header := s.header
  signature := if signature = [] then none else some signature
  unixFds := if s.fds = [] then none else some s.fds.length

theorem HInv.parsed {s : Message} {fs : List Field} {sig : Str}
    (inv : HInv s (fs ++ sealFields sig s.fds)) (hp : ∀ f ∈ fs, f.code < 8) :
    (fs ++ sealFields sig s.fds).foldl Parsed.add { header := s.header.bare } =
      s.parsed sig := by
  have hh := Parsed.foldl_header (fs ++ sealFields sig s.fds) { header := s.header.bare }
  rw [← inv.header] at hh
  obtain ⟨h1, h2⟩ := Parsed.foldl_plain hp { header := s.header.bare }
  rw [List.foldl_append] at hh ⊢
  generalize fs.foldl Parsed.add { header := s.header.bare } = P at hh h1 h2 ⊢
  unfold sealFields at hh ⊢
  obtain ⟨h, sg, n⟩ := P
  simp only at h1 h2
  subst h1 h2
  unfold Message.parsed
  by_cases hs : sig = [] <;> by_cases hf : s.fds = [] <;>
    simp_all [Parsed.add]

theorem Header.foldl_errorName_of_notMem {fs : List Field} (hn : (4 : UInt8) ∉ fs.map Field.code)
    (h : Header) : (fs.foldl Header.add h).errorName = h.errorName := by
  induction fs generalizing h with
  | nil => rfl
  | cons f fs ih =>
    rw [List.map_cons, List.mem_cons, not_or] at hn
    rw [List.foldl_cons, ih hn.2]
    cases f with
    | errorName s => exact absurd rfl hn.1
    | _ => rfl

theorem Header.foldl_errorName {fs : List Field} (hn : (fs.map Field.code).Nodup) {h : Header}
    (h0 : h.errorName = none) (n : Str) :
    (fs.foldl Header.add h).errorName = some n ↔ Field.errorName n ∈ fs := by
  induction fs generalizing h with
  | nil => simp [h0]
  | cons f fs ih =>
    rw [List.map_cons, List.nodup_cons] at hn
    rw [List.foldl_cons]
    cases f with
    | errorName s =>
      rw [Header.foldl_errorName_of_notMem hn.1]
      simp only [Header.add, Option.some.injEq, List.mem_cons, Field.errorName.injEq]
      constructor
      · rintro rfl
        exact .inl rfl
      · rintro (rfl | hmem)
        · rfl
        · exact absurd (List.mem_map.mpr ⟨_, hmem, rfl⟩) hn.1
    | _ =>
      rw [ih hn.2 (by exact h0)]
      simp

end Basu
