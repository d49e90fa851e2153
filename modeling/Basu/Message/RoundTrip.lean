import Basu.Message.Sealed

/-! What is written is read back: the bytes of a sealed message parse, and its values are read from
them, exactly when the header keeps the rules of the parser and the values keep the limits of the
read side. -/

namespace Basu
open Lib

/-- What the parser asks of a header and the calls that make it do not. -/
structure Header.Acceptable (h : Header) : Prop where
  type : h.type ≠ 0
  serial : h.serial ≠ 0
  required : hasRequiredFields h = true
  notLocal : notLocal h = true
  errorName : ∀ n, h.errorName = some n → errorNameIsValid n = true

instance (h : Header) : Decidable h.Acceptable :=
  decidable_of_iff (h.type ≠ 0 ∧ h.serial ≠ 0 ∧ hasRequiredFields h = true ∧
      Basu.notLocal h = true ∧ h.errorName.all errorNameIsValid = true)
    ⟨fun ⟨h1, h2, h3, h4, h5⟩ => ⟨h1, h2, h3, h4, by simpa [Option.all_eq_true] using h5⟩,
      fun a => ⟨a.1, a.2, a.3, a.4, by simpa [Option.all_eq_true] using a.5⟩⟩

/-- The limits of the read side: the signature of the message is a valid one of at most 254
characters, and so is what the values hold. -/
def Tree.Readable (e : Endian) (T : Tree) : Prop :=
  (validSignature (Ty.sigs (Val.tys T.root)) = true ∧ (Ty.sigs (Val.tys T.root)).length ≤ 254) ∧
    Val.AllReadable e T.fds.length T.root 0 0

theorem sealFields_valid {sig : Str} (fds : List Nat) :
    (∀ f ∈ sealFields sig fds, f.valid = true) ↔
      (validSignature sig = true ∧ sig.length ≤ 254) := by
  have hnil : validSignature [] = true := @signatureIsValid_sigs [] true (by simp) (by decide)
  unfold sealFields
  by_cases hs : sig = [] <;> by_cases hf : fds = [] <;> simp [hs, hf, Field.valid, hnil]

theorem SealedAs.parse {s : Message} {fs : List Field} {vs : List Val} (h : SealedAs s fs vs)
    (hp : ∀ f ∈ fs, f.code < 8) :
    ((∀ f ∈ fs ++ sealFields (Ty.sigs (Val.tys vs)) s.fds, f.valid = true) →
      parseFieldsLoop s.endian s.header.fields (s.header.fields.length + 1)
        { header := s.header.bare } 0 = .ok (s.parsed (Ty.sigs (Val.tys vs)))) ∧
    ∀ P, parseFieldsLoop s.endian s.header.fields (s.header.fields.length + 1)
        { header := s.header.bare } 0 = .ok P →
      ∀ f ∈ fs ++ sealFields (Ty.sigs (Val.tys vs)) s.fds, f.valid = true := by
  have inv := h.fields
  have hb := inv.bytes
  rw [← inv.parsed hp]
  have hcount := length_le_encFields s.endian (fs ++ sealFields (Ty.sigs (Val.tys vs)) s.fds) 0
  refine parseFieldsLoop_at (at_self hb) ?_ inv.clean inv.nodup ?_ ?_ ?_
  · rw [Nat.zero_add, ← hb]
  · intro f _
    cases f <;> rfl
  · rw [← hb] at hcount
    omega
  · have := inv.size
    omega

theorem SealedAs.errorName {s : Message} {fs : List Field} {vs : List Val} (h : SealedAs s fs vs)
    (hv : ∀ f ∈ fs, f.code ≠ 4 → f.valid = true) :
    (∀ f ∈ fs, f.valid = true) ↔
      ∀ n, s.header.errorName = some n → errorNameIsValid n = true := by
  have inv := h.fields
  have hname := fun n => Header.foldl_errorName inv.nodup (h := s.header.bare) rfl n
  rw [← inv.header] at hname
  constructor
  · intro hall n hn
    rcases List.mem_append.mp ((hname n).mp hn) with hmem | hmem
    · exact hall _ hmem
    · exact absurd (sealFields_code hmem) (by simp [Field.code])
  · intro hn f hf
    by_cases hc : f.code = 4
    · cases f with
      | errorName n => exact hn n ((hname n).mpr (List.mem_append.mpr (.inl hf)))
      | _ => exact absurd hc (by simp [Field.code])
    · exact hv f hf hc

theorem SealedAs.fromMalloc_iff {s : Message} {fs : List Field} {vs : List Val} {r : Received}
    (h : SealedAs s fs vs) (hp : ∀ f ∈ fs, f.code < 8)
    (hv : ∀ f ∈ fs, f.code ≠ 4 → f.valid = true) :
    busMessageFromMalloc s.blob s.fds = .ok r ↔
      s.header.Acceptable ∧ (validSignature (Ty.sigs (Val.tys vs)) = true ∧
        (Ty.sigs (Val.tys vs)).length ≤ 254) ∧
      r = parsedMessage s.endian (s.parsed (Ty.sigs (Val.tys vs))) s.body s.fds := by
  have hsize := h.fields.size
  rw [fromMalloc_blob h.bodySize h.limit h.serial (by omega)]
  obtain ⟨hok, hall⟩ := h.parse hp
  have hfields : (∀ f ∈ fs ++ sealFields (Ty.sigs (Val.tys vs)) s.fds, f.valid = true) ↔
      (∀ n, s.header.errorName = some n → errorNameIsValid n = true) ∧
        (validSignature (Ty.sigs (Val.tys vs)) = true ∧ (Ty.sigs (Val.tys vs)).length ≤ 254) := by
    rw [← h.errorName hv, ← sealFields_valid s.fds]
    simp only [List.mem_append, or_imp, forall_and]
  have hcount : s.fds.length = (s.parsed (Ty.sigs (Val.tys vs))).unixFds.getD 0 := by
    by_cases hf : s.fds = [] <;> simp [Message.parsed, hf]
  unfold busMessageParseFields
  constructor
  · intro hr
    split_ifs at hr with h1 h2
    split at hr
    · exact absurd hr (by simp)
    · rename_i P hP
      have hvalid := hall P hP
      obtain rfl := Except.ok.inj ((hok hvalid).symm.trans hP)
      obtain ⟨hname, hsig⟩ := hfields.mp hvalid
      split_ifs at hr with h3 h4 h5
      exact ⟨⟨h1, h2, Bool.not_eq_false _ ▸ h4, Bool.not_eq_false _ ▸ h5, hname⟩, hsig,
        (Except.ok.inj hr).symm⟩
  · rintro ⟨hacc, hsig, rfl⟩
    rw [if_neg hacc.type, if_neg hacc.serial, hok (hfields.mpr ⟨hacc.errorName, hsig⟩)]
    have h4 : ¬ hasRequiredFields (s.parsed (Ty.sigs (Val.tys vs))).header = false := by
      rw [Bool.not_eq_false]; exact hacc.required
    have h5 : ¬ notLocal (s.parsed (Ty.sigs (Val.tys vs))).header = false := by
      rw [Bool.not_eq_false]; exact hacc.notLocal
    simp only [if_neg h4, if_neg h5, ← hcount, ne_eq, not_true_eq_false, if_false]

def Message.received (s : Message) (P : Parsed) : Received :=
  { endian := s.endian, header := s.header, body := s.body, root := { signature := P.signature },
    fds := s.fds }

theorem moved_rewind (m : Received) (p n : Nat) :
    sdBusMessageRewind (m.moved p n) = sdBusMessageRewind m := by
  obtain ⟨e, h, b, r, cs, ri, fs, em⟩ := m
  cases cs with
  | nil =>
    by_cases hr : r.enclosing = sdBusTypeArray <;>
      simp [Received.moved, Received.advance, Received.last, Received.setLast, hr,
        sdBusMessageRewind]
  | cons c cs =>
    by_cases hc : c.enclosing = sdBusTypeArray <;>
      simp [Received.moved, Received.advance, Received.last, Received.setLast, hc,
        sdBusMessageRewind]

def pendingValues (h : Header) : List Val → List Val
  | .basic (.string s) :: vs =>
    if h.type = sdBusMessageMethodError then vs else .basic (.string s) :: vs
  | vs => vs

theorem comeAll_received {s : Message} {fs : List Field} {vs : List Val} (h : SealedAs s fs vs)
    (hsig : validSignature (Ty.sigs (Val.tys vs)) = true)
    (hroot : ∀ v ∈ vs, v.ty.isDictEntry = false) (hm : ∀ v ∈ vs, v.Made)
    (hc : ∀ v ∈ vs, v.Clean) {em : Option Str} :
    ComeAll { s.received (s.parsed (Ty.sigs (Val.tys vs))) with errorMessage := em } vs := by
  have hne : (0 : UInt8) ≠ sdBusTypeArray := by decide
  have hstr : strempty (s.parsed (Ty.sigs (Val.tys vs))).signature = Ty.sigs (Val.tys vs) := by
    by_cases hs : Ty.sigs (Val.tys vs) = [] <;> simp [Message.parsed, hs, strempty]
  refine ⟨fun ha => absurd ha hne, fun _ => ?_, fun u hu => ?_, hm, hc, ?_⟩
  · exact hstr
  · obtain ⟨ts, hts, hfit, hlen⟩ :=
      (signatureIsValid_iff (Ty.zero_notMem_sigs _) true).mp hsig
    obtain rfl := Ty.sigs_injective hts
    refine ⟨?_, (Ty.sig_length_le hu).trans hlen⟩
    rw [Val.tys_eq_map] at hu
    obtain ⟨v, hv, rfl⟩ := List.mem_map.mp hu
    have hd := hroot v hv
    have hf := hfit v.ty (by rw [Val.tys_eq_map]; exact List.mem_map.mpr ⟨v, hv, rfl⟩)
    change v.ty.Fits (decide ((0 : UInt8) = sdBusTypeArray)) 0 0
    rw [decide_eq_false hne]
    cases hty : v.ty with
    | dictEntry k w => rw [hty] at hd; exact absurd hd (by simp [Ty.isDictEntry])
    | _ => rw [hty] at hf; rw [Ty.Fits] at hf ⊢; exact hf
  · refine Val.allStand_of_at (fun v _ p => Val.stands_of_at) ?_
    exact at_self h.body

theorem readBasic_moved {m m' : Received} {type : UInt8} {v : BasicVal}
    (h : sdBusMessageReadBasic m type = .ok (some v, m')) : ∃ ri, m' = m.moved ri 1 := by
  unfold sdBusMessageReadBasic at h
  split at h
  · exact absurd h (by simp)
  · split_ifs at h
    · exact absurd h (by simp)
    · split at h
      · exact absurd h (by simp)
      · simp only [Except.ok.injEq, Prod.mk.injEq] at h
        exact ⟨_, h.2.symm⟩

theorem readErrorMessage_rewind (m : Received) :
    (∃ em, sdBusMessageRewind m.readErrorMessage =
      { sdBusMessageRewind m with errorMessage := em }) ∧
    m.readErrorMessage.header = m.header := by
  unfold Received.readErrorMessage
  split
  · rename_i t m' hread
    obtain ⟨ri, rfl⟩ := readBasic_moved hread
    refine ⟨⟨some t, ?_⟩, (m.moved_frame ri 1).2.2.2.2⟩
    exact congrArg (fun m : Received => { m with errorMessage := some t }) (moved_rewind m ri 1)
  · exact ⟨⟨m.errorMessage, rfl⟩, rfl⟩

theorem parsedMessage_rewind (s : Message) (sig : Str) :
    (∃ em, sdBusMessageRewind (parsedMessage s.endian (s.parsed sig) s.body s.fds) =
      { s.received (s.parsed sig) with errorMessage := em }) ∧
    (parsedMessage s.endian (s.parsed sig) s.body s.fds).header = s.header := by
  unfold parsedMessage
  split_ifs with ht
  · exact readErrorMessage_rewind (s.received (s.parsed sig))
  · exact ⟨⟨none, rfl⟩, rfl⟩

theorem ComeAll.readBasic_string {m : Received} {vs : List Val} (h : ComeAll m vs)
    (hs : ∀ t ws, vs ≠ .basic (.string t) :: ws) (h0 : m.last.enclosing ≠ sdBusTypeArray) :
    ∃ r, sdBusMessageReadBasic m sdBusTypeString = .error r := by
  have hcode : sdBusTypeString = Basic.string.code := rfl
  cases vs with
  | nil =>
    have hend : messageEndOfSignature m = true := by
      have := h.other h0
      simp [messageEndOfSignature, RContainer.cur, this, Val.tys, Ty.sigs, charAt]
    refine ⟨.enxio, ?_⟩
    rw [hcode]
    simp only [sdBusMessageReadBasic, Basic.ofCode_code, hend, if_true]
  | cons v ws =>
    have hnext := h.cons.1.next
    have hcur : m.last.cur ≠ Basic.string.code := by
      rw [hnext.cur]
      intro hhead
      have hty := Ty.eq_basic_of_head hhead
      cases v with
      | basic b =>
        cases b with
        | string t => exact hs t ws rfl
        | _ => exact absurd hty (by simp [Val.ty, BasicVal.type])
      | _ => exact absurd hty (by simp [Val.ty])
    refine ⟨.enxio, ?_⟩
    rw [hcode]
    simp only [sdBusMessageReadBasic, Basic.ofCode_code, hnext.endOfSignature, hnext.1,
      Bool.false_eq_true, if_false, if_pos hcur]

theorem ComeAll.readItems {m : Received} {vs : List Val} (h : ComeAll m vs)
    (hb : m.body.length ≤ uint32Max)
    (hr : Val.AllReadable m.endian m.fds.length vs m.rindex m.containers.length) :
    ReadItems m (Val.items m.fds vs) (m.behind vs) :=
  h.read hb hr fun _ _ _ hc hb hr _ _ hi => hc.read hb hr hi

theorem ComeAll.readItems_iff {m m' : Received} {vs : List Val} {items : List Item}
    (h : ComeAll m vs) (hb : m.body.length ≤ uint32Max) :
    ReadItems m items m' ↔
      Val.AllReadable m.endian m.fds.length vs m.rindex m.containers.length ∧
        items = Val.items m.fds vs ∧ m' = m.behind vs := by
  constructor
  · intro hr
    exact h.of_read hb hr fun _ _ _ hc hb _ _ hr => hc.of_read hb hr
  · rintro ⟨hr, rfl, rfl⟩
    exact h.readItems hb hr

theorem pendingValues_of_ne {h : Header} {vs : List Val}
    (hs : h.type = sdBusMessageMethodError → ∀ t ws, vs ≠ .basic (.string t) :: ws) :
    pendingValues h vs = vs := by
  unfold pendingValues
  split
  · split_ifs with ht
    · exact absurd rfl (hs ht _ _)
    · rfl
  · rfl

theorem ComeAll.readErrorMessage {m : Received} {t : Str} {vs : List Val}
    (h : ComeAll m (.basic (.string t) :: vs)) (hb : m.body.length ≤ uint32Max)
    (hr : Val.AllReadable m.endian m.fds.length (.basic (.string t) :: vs) m.rindex
      m.containers.length) :
    ∃ r', ReadItems m.readErrorMessage (Val.items m.fds vs) r' := by
  obtain ⟨hcome, hrest⟩ := h.cons
  rw [Val.AllReadable] at hr
  have hst := hcome.stands
  have hcl := hcome.clean
  have hrd := hr.1
  rw [Val.Stands] at hst
  rw [Val.Clean] at hcl
  rw [Val.Readable] at hrd
  have hread := readBasic_next (b := .string) hcome.next
  have hval := readBasicValue_at hst hcl hb hrd
  simp only [BasicVal.type] at hval
  rw [hval] at hread
  have hmsg : m.readErrorMessage =
      { m.moved (m.rindex + ((BasicVal.string t).enc m.endian m.rindex).length) 1 with
        errorMessage := some t } := by
    have hcode : sdBusTypeString = Basic.string.code := rfl
    simp only [Received.readErrorMessage, hcode, hread, Except.map, BasicVal.resolve]
  rw [Val.enc, Val.ty, Ty.sig] at hrest
  obtain ⟨he, hbody, hfds, hlen, -⟩ := m.moved_frame
    (m.rindex + ((BasicVal.string t).enc m.endian m.rindex).length) 1
  have hri := m.moved_rindex (m.rindex + ((BasicVal.string t).enc m.endian m.rindex).length) 1
  have hcomes : ComeAll m.readErrorMessage vs := by
    rw [hmsg]
    exact ⟨hrest.1, hrest.2, hrest.3, hrest.4, hrest.5, hrest.6⟩
  have hf : m.readErrorMessage.fds = m.fds := by rw [hmsg]; exact hfds
  rw [← hf]
  refine ⟨_, hcomes.readItems ?_ ?_⟩
  · rw [hmsg]
    exact le_of_eq_of_le (congrArg List.length hbody) hb
  · have h2 := hr.2
    rw [Val.enc] at h2
    rw [hf, hmsg]
    change Val.AllReadable (m.moved _ 1).endian _ vs (m.moved _ 1).rindex
      (m.moved _ 1).containers.length
    rw [he, hri, hlen]
    exact h2

theorem readItems_pending {s : Message} {sig : Str} {vs : List Val}
    (h : ComeAll (s.received (s.parsed sig)) vs) (hb : s.body.length ≤ uint32Max)
    (hr : Val.AllReadable s.endian s.fds.length vs 0 0) :
    ∃ r', ReadItems (parsedMessage s.endian (s.parsed sig) s.body s.fds)
      (Val.items s.fds (pendingValues s.header vs)) r' := by
  have hbase := h.readItems hb hr
  have hmsg : parsedMessage s.endian (s.parsed sig) s.body s.fds =
      if s.header.type = sdBusMessageMethodError then
        (s.received (s.parsed sig)).readErrorMessage else s.received (s.parsed sig) := rfl
  rw [hmsg]
  by_cases ht : s.header.type = sdBusMessageMethodError
  · rw [if_pos ht]
    by_cases hs : ∃ t ws, vs = .basic (.string t) :: ws
    · obtain ⟨t, ws, rfl⟩ := hs
      rw [show pendingValues s.header (.basic (.string t) :: ws) = ws from if_pos ht]
      exact h.readErrorMessage hb hr
    · have hs' : ∀ t ws, vs ≠ .basic (.string t) :: ws := fun t ws he => hs ⟨t, ws, he⟩
      have hne : (s.received (s.parsed sig)).last.enclosing ≠ sdBusTypeArray := by
        change (0 : UInt8) ≠ sdBusTypeArray
        decide
      obtain ⟨r, hread⟩ := h.readBasic_string hs' hne
      have hsame : (s.received (s.parsed sig)).readErrorMessage = s.received (s.parsed sig) := by
        simp only [Received.readErrorMessage, hread]
      rw [pendingValues_of_ne fun _ => hs', hsame]
      exact ⟨_, hbase⟩
  · rw [if_neg ht, pendingValues_of_ne fun h => absurd h ht]
    exact ⟨_, hbase⟩

theorem acceptable_seal {h : Header} {fields : Bytes} {cookie : Nat} :
    Header.Acceptable { h with fields := fields, serial := cookie } ↔
      Header.Acceptable { h with serial := cookie } :=
  ⟨fun a => ⟨a.1, a.2, a.3, a.4, a.5⟩, fun a => ⟨a.1, a.2, a.3, a.4, a.5⟩⟩

/-- The bytes of the message parse, and its values are read from the start of what comes out. -/
def ReadsBack (s : Message) (T : Tree) : Prop :=
  ∃ r r', busMessageFromMalloc s.blob s.fds = .ok r ∧
    ReadItems (sdBusMessageRewind r) (Val.items s.fds T.root) r'

theorem Draft.comeAll {m s : Message} {fs : List Field} {T : Tree} (d : Draft m fs T)
    (hs : SealedAs s fs T.root) (hsig : validSignature (Ty.sigs (Val.tys T.root)) = true)
    (em : Option Str) :
    ComeAll { s.received (s.parsed (Ty.sigs (Val.tys T.root))) with errorMessage := em } T.root :=
  comeAll_received hs hsig d.rooted.1 (Val.allMade_iff.mp d.body.made.1) d.clean.1

theorem Draft.readsBack_iff {m s : Message} {fs : List Field} {T : Tree} {cookie : Nat}
    (d : Draft m fs T) (h : sdBusMessageSeal m cookie = .ok s) :
    ReadsBack s T ↔
      Header.Acceptable { m.header with serial := cookie } ∧ T.Readable m.endian := by
  obtain ⟨-, hfds, hend, hheader, hsealed⟩ := d.seal h
  have hiff := fun r => hsealed.fromMalloc_iff (r := r) d.plain d.valid
  have hb : s.body.length ≤ uint32Max := by rw [← hsealed.bodySize]; exact hsealed.limit
  obtain ⟨⟨em, hrew⟩, -⟩ := parsedMessage_rewind s (Ty.sigs (Val.tys T.root))
  rw [hheader, acceptable_seal] at hiff
  rw [Tree.Readable, ← hend, ← hfds]
  constructor
  · rintro ⟨r, r', hr, hread⟩
    obtain ⟨hacc, hsig, rfl⟩ := (hiff r).mp hr
    rw [hrew] at hread
    exact ⟨hacc, hsig, (((d.comeAll hsealed hsig.1 em).readItems_iff hb).mp hread).1⟩
  · rintro ⟨hacc, hsig, hread⟩
    refine ⟨_, ?_, (hiff _).mpr ⟨hacc, hsig, rfl⟩, ?_⟩
    rotate_left
    · rw [hrew]
      exact (d.comeAll hsealed hsig.1 em).readItems hb hread

/-- A message the public calls accepted and sealed is read back exactly when its header keeps
the rules of the parser and its values the limits of the read side. -/
theorem written_readsBack_iff {bus : Bus} {ops : List Op} {m s : Message} {cookie : Nat}
    (w : Written bus ops m) (h : sdBusMessageSeal m cookie = .ok s) :
    ∃ T, Tree.empty.Steps ops T ∧ (∀ T', Tree.empty.Steps ops T' → T' = T) ∧
      (ReadsBack s T ↔
        Header.Acceptable { m.header with serial := cookie } ∧ T.Readable m.endian) := by
  obtain ⟨fs, T, d, hsteps⟩ := w.draft
  exact ⟨T, hsteps, fun T' h' => h'.unique hsteps, d.readsBack_iff h⟩

def Op.argsValid : Op → Bool
  | .appendBasic (.string (some s)) => utf8IsValid s.1
  | .appendBasic (.objectPath (some s)) => objectPathIsValid s.1
  | .appendBasic (.signature (some s)) => validSignature s.1
  | _ => true

def buildAndSeal (m : Except Errno Message) (ops : List Op) (cookie : Nat) :
    Option (Message × Message) := do
  let m ← m.toOption
  let m ← runAll m ops
  let s ← (sdBusMessageSeal m cookie).toOption
  return (m, s)

theorem buildAndSeal_any {m₀ : Except Errno Message} {ops : List Op} {cookie : Nat}
    {P : Message × Message → Bool} (h : (buildAndSeal m₀ ops cookie).any P = true) :
    ∃ m₁ m s, m₀ = .ok m₁ ∧ Runs m₁ ops m ∧ sdBusMessageSeal m cookie = .ok s ∧
      P (m, s) = true := by
  cases m₀ with
  | error r => exact absurd h (by simp [buildAndSeal, Except.toOption])
  | ok m₁ =>
    cases hr : runAll m₁ ops with
    | none => exact absurd h (by simp [buildAndSeal, Except.toOption, hr])
    | some m =>
      cases hs : sdBusMessageSeal m cookie with
      | error r => exact absurd h (by simp [buildAndSeal, Except.toOption, hr, hs])
      | ok s =>
        refine ⟨m₁, m, s, rfl, runs_of_runAll hr, hs, ?_⟩
        simpa [buildAndSeal, Except.toOption, hr, hs] using h

def littleBus : Bus := { nativeEndian := .little }

/-- A signal from "/", of interface "a.b" and member "c". -/
def sampleSignal : Except Errno Message :=
  sdBusMessageNewSignal littleBus ⟨[47], by decide⟩ ⟨[97, 46, 98], by decide⟩ ⟨[99], by decide⟩

def sampleOps : List Op := [.appendBasic (.num .byte 7)]

def sampleTree : Tree := ⟨[.basic (.num .byte 7)], [], []⟩

theorem steps_sampleOps : Tree.empty.Steps sampleOps sampleTree :=
  .cons (.basic Tree.empty (.num .byte 7)) (.nil _)

theorem readable_sampleTree (e : Endian) : sampleTree.Readable e := by
  refine ⟨⟨?_, by decide⟩, ?_, ?_⟩
  · exact signatureIsValid_sigs (by simp [sampleTree, Val.tys, Val.ty, Ty.Fits]) (by decide)
  · rw [Val.Readable]
    rfl
  · rw [Val.AllReadable]
    trivial

theorem exists_sampleSignal : ∃ m s, Written littleBus sampleOps m ∧
    sdBusMessageSeal m 1 = .ok s ∧ Header.Acceptable { m.header with serial := 1 } := by
  have h : (buildAndSeal sampleSignal sampleOps 1).any
      (fun p => decide (Header.Acceptable { p.1.header with serial := 1 })) = true := by
    decide +kernel
  obtain ⟨m₁, m, s, hm₁, hruns, hs, hacc⟩ := buildAndSeal_any h
  exact ⟨m, s, (Written.newSignal hm₁).runs hruns, hs, of_decide_eq_true hacc⟩

theorem readsBack_sampleSignal : ∃ m s T, Written littleBus sampleOps m ∧
    sdBusMessageSeal m 1 = .ok s ∧ Tree.empty.Steps sampleOps T ∧ ReadsBack s T := by
  obtain ⟨m, s, w, hs, hacc⟩ := exists_sampleSignal
  obtain ⟨T, hsteps, -, hiff⟩ := written_readsBack_iff w hs
  obtain rfl := hsteps.unique steps_sampleOps
  exact ⟨m, s, _, w, hs, hsteps, hiff.mpr ⟨hacc, readable_sampleTree _⟩⟩

def widestSignature : CStr := ⟨List.replicate 255 sdBusTypeByte, by
  intro h
  exact absurd (List.eq_of_mem_replicate h) (by decide)⟩

def widestSignatureOp : Op := .appendBasic (.signature (some widestSignature))

theorem not_readsBack_widestSignature :
    ¬ ∀ (bus : Bus) (ops : List Op) (m s : Message) (cookie : Nat) (T : Tree),
      Written bus ops m → sdBusMessageSeal m cookie = .ok s →
      Header.Acceptable { m.header with serial := cookie } →
      (∀ op ∈ ops, op.argsValid = true) → Tree.empty.Steps ops T → ReadsBack s T := by
  intro hall
  have h : (buildAndSeal sampleSignal [widestSignatureOp] 1).any
      (fun p => decide (Header.Acceptable { p.1.header with serial := 1 })) = true := by
    decide +kernel
  obtain ⟨m₁, m, s, hm₁, hruns, hs, hacc⟩ := buildAndSeal_any h
  have w := (Written.newSignal hm₁).runs hruns
  obtain ⟨fs, T, d, hsteps⟩ := w.draft
  have hback := hall _ _ _ _ _ T w hs (of_decide_eq_true hacc) (by decide +kernel) hsteps
  obtain ⟨-, -, hread⟩ := (d.readsBack_iff hs).mp hback
  obtain rfl := hsteps.unique
    (.cons (.basic Tree.empty (.signature (some widestSignature))) (.nil _))
  have hval := (show Val.AllReadable m.endian _ [Val.basic (.signature widestSignature.1)] 0 0
    from hread)
  rw [Val.AllReadable, Val.Readable] at hval
  exact absurd hval.1 (by decide +kernel)

theorem written_comes {bus : Bus} {ops : List Op} {m s : Message} {cookie : Nat} {T : Tree}
    (w : Written bus ops m) (h : sdBusMessageSeal m cookie = .ok s)
    (hT : Tree.empty.Steps ops T) (hacc : Header.Acceptable { m.header with serial := cookie })
    (hread : T.Readable m.endian) :
    ∃ r em, busMessageFromMalloc s.blob s.fds = .ok r ∧
      sdBusMessageRewind r =
        { s.received (s.parsed (Ty.sigs (Val.tys T.root))) with errorMessage := em } ∧
      ComeAll (sdBusMessageRewind r) T.root ∧ s.body.length ≤ uint32Max ∧ s.fds = T.fds ∧
      Val.AllReadable s.endian s.fds.length T.root 0 0 := by
  obtain ⟨fs, T', d, hsteps⟩ := w.draft
  obtain rfl := hT.unique hsteps
  obtain ⟨-, hfds, hend, hheader, hsealed⟩ := d.seal h
  obtain ⟨⟨em, hrew⟩, -⟩ := parsedMessage_rewind s (Ty.sigs (Val.tys T.root))
  obtain ⟨hsig, hvals⟩ := hread
  rw [← hend, ← hfds] at hvals
  have hacc' : Header.Acceptable s.header := by
    rw [hheader, acceptable_seal]
    exact hacc
  refine ⟨_, em, (hsealed.fromMalloc_iff d.plain d.valid).mpr ⟨hacc', hsig, rfl⟩, hrew, ?_, ?_,
    hfds, hvals⟩
  · rw [hrew]
    exact d.comeAll hsealed hsig.1 em
  · rw [← hsealed.bodySize]
    exact hsealed.limit

/-- The round trip: header, signature and values come back. An error that starts with a string
has had it read as its message, so that reading goes on behind it unless it is rewound. -/
theorem written_round_trip {bus : Bus} {ops : List Op} {m s : Message} {cookie : Nat} {T : Tree}
    (w : Written bus ops m) (h : sdBusMessageSeal m cookie = .ok s)
    (hT : Tree.empty.Steps ops T) (hacc : Header.Acceptable { m.header with serial := cookie })
    (hread : T.Readable m.endian) :
    ∃ r, busMessageFromMalloc s.blob s.fds = .ok r ∧
      r.header = { m.header with fields := s.header.fields, serial := cookie } ∧
      strempty (sdBusMessageRewind r).root.signature = strempty m.root.signature ∧
      (∃ r', ReadItems (sdBusMessageRewind r) (Val.items s.fds T.root) r' ∧
        r'.rindex = s.body.length) ∧
      ∃ r', ReadItems r (Val.items s.fds (pendingValues m.header T.root)) r' := by
  obtain ⟨fs, T', d, hsteps⟩ := w.draft
  obtain rfl := hT.unique hsteps
  obtain ⟨-, hfds, hend, hheader, hsealed⟩ := d.seal h
  have hb : s.body.length ≤ uint32Max := by rw [← hsealed.bodySize]; exact hsealed.limit
  obtain ⟨⟨em, hrew⟩, hh⟩ := parsedMessage_rewind s (Ty.sigs (Val.tys T.root))
  obtain ⟨hsig, hvals⟩ := hread
  rw [← hend, ← hfds] at hvals
  have hcome := d.comeAll hsealed hsig.1
  have hpend : pendingValues m.header T.root = pendingValues s.header T.root := by
    rw [hheader]
    rfl
  refine ⟨_, (hsealed.fromMalloc_iff d.plain d.valid).mpr ⟨?_, hsig, rfl⟩, ?_, ?_, ?_, ?_⟩
  · rw [hheader, acceptable_seal]
    exact hacc
  · rw [hh]
    exact hheader
  · rw [hrew]
    rcases d.body.sigs.current with ⟨-, -, -, -, hroot, -⟩ | ⟨c, cs, f, fs', -, hfr, -⟩
    · rw [hroot]
      have hrest := (hcome em).other (by change (0 : UInt8) ≠ sdBusTypeArray; decide)
      exact hrest
    · exact absurd ((d.seal h).1.symm.trans hfr) (by simp)
  · rw [hrew]
    refine ⟨_, (hcome em).readItems hb hvals, ?_⟩
    rw [Received.behind, Received.moved_rindex]
    exact (Nat.zero_add _).trans (congrArg List.length hsealed.body).symm
  · rw [hpend]
    exact readItems_pending (hcome none) hb hvals

theorem round_trip_sampleSignal : ∃ m s r r', Written littleBus sampleOps m ∧
    sdBusMessageSeal m 1 = .ok s ∧ busMessageFromMalloc s.blob s.fds = .ok r ∧
    ReadItems r (Val.items s.fds sampleTree.root) r' := by
  obtain ⟨m, s, w, hs, hacc⟩ := exists_sampleSignal
  obtain ⟨r, hr, -, -, -, r', hread⟩ :=
    written_round_trip w hs steps_sampleOps hacc (readable_sampleTree _)
  exact ⟨m, s, r, r', w, hs, hr, hread⟩

def sampleError : Except Errno Message :=
  sdBusMessageNewMethodError littleBus { cookie := 1, sender := none, senderValid := by simp }
    ⟨[97, 46, 98], by decide⟩ (some ⟨[120], by decide⟩)

def errorTree : Tree := ⟨[.basic (.string [120])], [], []⟩

theorem steps_errorTree :
    Tree.empty.Steps [.appendBasic (.string (some ⟨[120], by decide⟩))] errorTree :=
  .cons (.basic Tree.empty (.string (some ⟨[120], by decide⟩))) (.nil _)

theorem readable_errorTree (e : Endian) : errorTree.Readable e := by
  refine ⟨⟨?_, by decide⟩, ?_, ?_⟩
  · exact signatureIsValid_sigs (by simp [errorTree, Val.tys, Val.ty, Ty.Fits]) (by decide)
  · rw [Val.Readable]
    decide +kernel
  · rw [Val.AllReadable]
    trivial

/-- The message of the error is not among the values that are read behind parsing. -/
theorem not_round_trip_sampleError :
    ¬ ∀ (bus : Bus) (ops : List Op) (m s : Message) (cookie : Nat) (T : Tree) (r : Received),
      Written bus ops m → sdBusMessageSeal m cookie = .ok s → Tree.empty.Steps ops T →
      Header.Acceptable { m.header with serial := cookie } → T.Readable m.endian →
      busMessageFromMalloc s.blob s.fds = .ok r →
      ∃ r', ReadItems r (Val.items s.fds T.root) r' := by
  intro hall
  have h : (buildAndSeal sampleError [] 1).any (fun p =>
      decide (Header.Acceptable { p.1.header with serial := 1 }) &&
        (busMessageFromMalloc p.2.blob p.2.fds).toOption.any
          (fun r => (sdBusMessagePeekType r).toOption = some none)) = true := by
    decide +kernel
  obtain ⟨m₁, m, s, hm₁, hruns, hs, hP⟩ := buildAndSeal_any h
  rw [Bool.and_eq_true, decide_eq_true_eq] at hP
  cases hr : busMessageFromMalloc s.blob s.fds with
  | error e => rw [hr] at hP; exact absurd hP.2 (by simp [Except.toOption])
  | ok r =>
    have w := (Written.newMethodError hm₁).runs hruns
    obtain ⟨r', hread⟩ := hall _ _ _ _ _ errorTree r w hs steps_errorTree hP.1
      (readable_errorTree _) hr
    have hpeek : sdBusMessagePeekType r = .ok none := by
      have h2 := hP.2
      rw [hr] at h2
      cases hp : sdBusMessagePeekType r with
      | error e => rw [show Except.toOption (.ok r : Except Errno Received) = some r from rfl,
          Option.any_some, hp] at h2; exact absurd h2 (by simp [Except.toOption])
      | ok x =>
        rw [show Except.toOption (.ok r : Except Errno Received) = some r from rfl,
          Option.any_some, hp] at h2
        simpa [Except.toOption] using h2
    exact absurd (hread.eof_inv hpeek).1 (by simp [errorTree, Val.items])

end Basu
