import Basu.Message.Encode

/-! The body of a message is the serialisation of the values that were appended, as long as the tree
of the calls has a wire format, that is as long as no signature outgrows its length byte. -/

namespace Basu
open Lib

structure Message.Fresh (m : Message) : Prop where
  parts : m.parts = []
  bodySize : m.bodySize = 0
  root : m.root = {}
  containers : m.containers = []
  fds : m.fds = []

theorem Message.Fresh.winv {m : Message} (h : m.Fresh) : WInv m Tree.empty := by
  refine ⟨⟨?_, ?_, ?_⟩, ?_, ⟨trivial, by simp [Tree.empty]⟩, h.fds, ?_, ?_⟩
  · simp [h.parts, Tree.empty, encStack, Val.encs]
  · simp [h.parts, h.bodySize]
  · rw [h.containers]
    trivial
  · rw [h.root, h.containers]
    exact ⟨rfl, rfl, rfl⟩
  · simp [h.fds, h.bodySize]
  · simp [h.bodySize]

theorem Kind.eq_of_contents {k k' : Kind} (he : k.enclosing = k'.enclosing)
    (hc : k.contents = k'.contents) : k = k' := by
  cases k with
  | array t =>
    cases k' with
    | array t' => rw [Ty.sig_injective hc]
    | _ => exact absurd he (by simp [Kind.enclosing]; decide)
  | variant t =>
    cases k' with
    | variant t' => rw [Ty.sig_injective hc]
    | _ => exact absurd he (by simp [Kind.enclosing]; decide)
  | struct ts =>
    cases k' with
    | struct ts' => rw [Ty.sigs_injective hc]
    | _ => exact absurd he (by simp [Kind.enclosing]; decide)
  | dictEntry b v =>
    cases k' with
    | dictEntry b' v' =>
      obtain ⟨hb, hv⟩ := List.cons.inj hc
      rw [Basic.code_injective hb, Ty.sig_injective hv]
    | _ => exact absurd he (by simp [Kind.enclosing]; decide)

theorem Tree.Step.unique {T T₁ T₂ : Tree} {op : Op} (h₁ : T.Step op T₁) (h₂ : T.Step op T₂) :
    T₁ = T₂ := by
  cases h₁ with
  | basic p =>
    cases h₂
    rfl
  | opened k contents hk =>
    generalize he : k.enclosing = type at h₂
    cases h₂ with
    | opened k' contents' hk' => rw [Kind.eq_of_contents he (hk.symm.trans hk')]
  | closed f fs hf =>
    cases h₂ with
    | closed f' fs' hf' =>
      obtain ⟨rfl, rfl⟩ := List.cons.inj (hf.symm.trans hf')
      rfl

theorem Tree.Steps.unique {T T₁ T₂ : Tree} {ops : List Op} (h₁ : T.Steps ops T₁)
    (h₂ : T.Steps ops T₂) : T₁ = T₂ := by
  induction h₁ with
  | nil T =>
    cases h₂
    rfl
  | cons h _ ih =>
    cases h₂ with
    | cons h' hs' =>
      obtain rfl := h.unique h'
      exact ih hs'

theorem encStack_append (e : Endian) (stop : Nat) (root : List Val) (fs gs : List Frame) :
    ∃ rest, encStack e stop root (fs ++ gs) = encStack e stop root gs ++ rest := by
  induction fs with
  | nil => exact ⟨[], by simp⟩
  | cons f fs ih =>
    obtain ⟨rest, hr⟩ := ih
    simp only [List.cons_append, encStack]
    rw [hr]
    exact ⟨_, List.append_assoc _ _ _⟩

theorem StackRep.get {e : Endian} {root : List Val} {parts : List Part} {cs : List Container}
    {fs : List Frame} (h : StackRep e root parts cs fs) {i : Nat} {c : Container} {f : Frame}
    (hc : cs[i]? = some c) (hf : fs[i]? = some f) :
    ArrayRep parts c f.kind (stackPos e root (fs.drop (i + 1))) := by
  induction cs generalizing fs i with
  | nil => exact absurd hc (by simp)
  | cons c' cs ih =>
    cases fs with
    | nil => exact absurd hf (by simp)
    | cons f' fs =>
      cases i with
      | zero =>
        simp only [List.getElem?_cons_zero, Option.some.injEq] at hc hf
        subst hc hf
        exact h.1
      | succ i => exact ih h.2 (by simpa using hc) (by simpa using hf)

theorem LocAt.slice {parts : List Part} {loc : Nat × Nat} {pos : Nat} (h : LocAt parts loc pos) :
    ∃ q, parts[loc.1]? = some q ∧ slice q.data loc.2 4 = slice (flat parts) pos 4 := by
  obtain ⟨ps, q, qs, rfl, hlen, hoff, rfl⟩ := h
  refine ⟨q, by simp [← hlen], ?_⟩
  simp only [flat_append, flat_cons]
  rw [slice_append_right]
  unfold Lib.slice
  rw [List.drop_append_of_le_length (by omega), List.take_append_of_le_length]
  rw [List.length_drop]
  omega

def OpenLengths (m : Message) (T : Tree) : Prop :=
  ∀ (i : Nat) (c : Container) (f : Frame), m.containers[i]? = some c → T.frames[i]? = some f →
    f.kind.isArray = true →
    ∃ (loc : Nat × Nat) (q : Part), c.arraySize = some loc ∧ m.parts[loc.1]? = some q ∧
      getWord m.endian (slice q.data loc.2 4) =
        m.bodySize - f.kind.start (stackPos m.endian T.root (T.frames.drop (i + 1)))

theorem WInv.openLengths {m : Message} {T : Tree} (inv : WInv m T) : OpenLengths m T := by
  intro i c f hc hf hk
  have hrep := inv.body.stack.get hc hf
  obtain ⟨k, done⟩ := f
  cases k with
  | array t =>
    obtain ⟨loc, hloc, hat⟩ := hrep
    obtain ⟨q, hq, hslice⟩ := hat.slice
    refine ⟨loc, q, hloc, hq, ?_⟩
    -- cut the stack at the array
    have hcut : T.frames = T.frames.take i ++ ⟨.array t, done⟩ :: T.frames.drop (i + 1) := by
      obtain ⟨hi, hget⟩ := List.getElem?_eq_some_iff.mp hf
      rw [← hget, ← List.drop_eq_getElem_cons hi, List.take_append_drop]
    obtain ⟨rest, hrest⟩ := encStack_append m.endian m.bodySize T.root (T.frames.take i)
      (⟨.array t, done⟩ :: T.frames.drop (i + 1))
    have hflat := inv.body.flat_eq
    rw [hcut, hrest] at hflat
    simp only [encStack, length_encStack_eq, Kind.head, arrayHead, List.append_assoc] at hflat
    rw [hslice, hflat, ← List.append_assoc, slice_middle _ (length_putWord _ _ _),
      getWord_putWord_of_lt]
    · have := inv.limit
      have h256 : (256 : Nat) ^ 4 = uint32Max + 1 := by decide
      omega
    · rw [List.length_append, length_encStack_eq, length_zeros, add_padTo _ (by decide)]
  | _ => exact absurd hk (by simp [Kind.isArray])

structure Serialised (m : Message) (T : Tree) : Prop where
  body : T.wire m.endian = some m.body
  size : m.bodySize = (m.parts.map fun q => q.data.length).sum
  lengths : OpenLengths m T

theorem length_flat (parts : List Part) :
    (flat parts).length = (parts.map fun q => q.data.length).sum := by
  simp [flat, List.length_flatten, Function.comp_def]

theorem WInv.body_eq {m : Message} {T : Tree} (inv : WInv m T) : m.body = T.enc m.endian := by
  rw [Message.body_eq, inv.body.flat_eq, List.append_nil, Tree.enc, inv.bodySize]

theorem WInv.serialised_iff {m : Message} {T : Tree} (inv : WInv m T) :
    Serialised m T ↔ T.sigsFit = true := by
  constructor
  · intro h
    by_contra hfit
    have := h.body
    rw [Tree.wire, if_neg hfit] at this
    exact absurd this (by simp)
  · intro hfit
    refine ⟨by rw [Tree.wire, if_pos hfit, inv.body_eq], ?_, inv.openLengths⟩
    rw [inv.body.size, length_flat]

/-- After any sequence of successful calls the body is the serialisation of the tree the calls
describe exactly when every signature they were given fits its length byte. -/
theorem serialised_iff_sigsFit {m m' : Message} {ops : List Op} (hm : m.Fresh)
    (h : Runs m ops m') :
    ∃ T, Tree.empty.Steps ops T ∧ (∀ T', Tree.empty.Steps ops T' → T' = T) ∧
      (Serialised m' T ↔ ∀ op ∈ ops, op.sigsFit = true) := by
  obtain ⟨T, hsteps, inv, hfit⟩ := hm.winv.runs h
  refine ⟨T, hsteps, fun T' h' => h'.unique hsteps, ?_⟩
  rw [inv.serialised_iff, hfit, Bool.and_eq_true, List.all_eq_true]
  simp [Tree.empty, Tree.sigsFit, Val.allSigsFit]

def blankSignal : Message := { endian := .little, header := { type := 4 } }

theorem blankSignal_fresh : blankSignal.Fresh := ⟨rfl, rfl, rfl, rfl, rfl⟩

def byteArray : CStr := ⟨[sdBusTypeByte], by decide⟩

def openArrayOps : List Op :=
  [.openContainer sdBusTypeArray byteArray, .appendBasic (.num .byte 7)]

theorem runs_openArrayOps : ∃ m', Runs blankSignal openArrayOps m' :=
  exists_runs (by decide +kernel)

theorem serialised_openArrayOps :
    ∃ m' T, Runs blankSignal openArrayOps m' ∧ Tree.empty.Steps openArrayOps T ∧
      Serialised m' T := by
  obtain ⟨m', h⟩ := runs_openArrayOps
  obtain ⟨T, hsteps, -, hiff⟩ := serialised_iff_sigsFit blankSignal_fresh h
  exact ⟨m', T, h, hsteps, hiff.mpr (by decide)⟩

def longSignature : CStr := ⟨List.replicate 256 sdBusTypeByte, by
  intro h
  exact absurd (List.eq_of_mem_replicate h) (by decide)⟩

def longSignatureOp : Op := .appendBasic (.signature (some longSignature))

theorem runs_longSignature : ∃ m', Runs blankSignal [longSignatureOp] m' :=
  exists_runs (by decide +kernel)

theorem not_serialised_longSignature :
    ¬ ∀ (m m' : Message) (ops : List Op), m.Fresh → Runs m ops m' →
      ∃ T, Tree.empty.Steps ops T ∧ Serialised m' T := by
  intro hall
  obtain ⟨m', h⟩ := runs_longSignature
  obtain ⟨T, hsteps, hser⟩ := hall _ _ _ blankSignal_fresh h
  obtain ⟨T', hsteps', inv, hfit⟩ := blankSignal_fresh.winv.runs h
  obtain rfl := hsteps.unique hsteps'
  rw [inv.serialised_iff, hfit] at hser
  exact absurd hser (by decide +kernel)

end Basu
