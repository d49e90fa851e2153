import Basu.Message.Wire

/-! Calls that are refused. `message_append_basic` extends the signature of the top-level
container before it looks at the value, so an argument refused after that leaves a type behind
that no value follows; every other refusal happens before anything is touched. -/

namespace Basu
open Lib

structure Intact (m m' : Message) : Prop where
  root : m'.root = m.root
  containers : m'.containers = m.containers
  body : m'.body = m.body
  bodySize : m'.bodySize = m.bodySize
  fds : m'.fds = m.fds

def BasicArg.refused (allowFds : Bool) : BasicArg → Bool
  | .objectPath none => true
  | .unixFd none _ => true
  | .unixFd (some fd) dup => fd < 0 || !allowFds || !dup.isOk
  | _ => false

/-- A refused argument that comes where the top-level signature ends. -/
def Op.Misplaced (m : Message) : Op → Prop
  | .appendBasic p =>
    m.sealed = false ∧ m.poisoned = false ∧ (messageGetLastContainer m).enclosing = 0 ∧
      (messageGetLastContainer m).cur = 0 ∧ p.refused m.allowFds = true
  | _ => False

theorem openBody_error {m m' : Message} {align : Nat} {fill : Bytes} {r : Errno}
    (h : openBody m align fill = (.error r, m')) : r = .enomem := by
  unfold openBody at h
  split at h
  · simp only [Prod.mk.injEq, Except.error.injEq] at h
    exact h.1.symm
  · exact absurd h (by simp)

theorem openArrayBody_error {m m' : Message} {t : Ty} {r : Errno}
    (h : openArrayBody m t.sig = (.error r, m')) : r = .enomem := by
  unfold openArrayBody at h
  have hal : busTypeGetAlignment (charAt t.sig 0) = some t.align := by
    have := t.charAt_sig_append []
    rw [List.append_nil] at this
    rw [this, busTypeGetAlignment_head]
  simp only [hal] at h
  split at h
  · simp only [Prod.mk.injEq, Except.error.injEq] at h
    exact h.1.symm
  · split at h
    · simp only [Prod.mk.injEq, Except.error.injEq] at h
      exact h.1.symm
    · exact absurd h (by simp)

theorem finishOpen_error {g : Except Errno (Option (Nat × Nat)) × Message} {c : Container}
    {n : Nat} {r : Errno} {m' : Message} (h : finishOpen c n g = (.error r, m')) :
    g = (.error r, m') := by
  obtain ⟨e | a, m⟩ := g
  · exact h
  · exact absurd h (by simp [finishOpen])

theorem eq_of_error {α : Type} {r r' : Errno} {m m' : Message}
    (h : ((.error r' : Except Errno α), m) = (.error r, m')) : m' = m :=
  (Prod.mk.inj h).2.symm

theorem openByType_error {m m' : Message} {type : UInt8} {contents : Str} {r : Errno}
    (h0 : (0 : UInt8) ∉ contents) (h : openByType m type contents = (.error r, m'))
    (hr : r ≠ .enomem) : m' = m := by
  simp only [openByType] at h
  split_ifs at h
  · simp only [busMessageOpenArray] at h
    split_ifs at h with h1 h2 h3 h4 h5
    · exact eq_of_error h
    · exact eq_of_error h
    · exact eq_of_error h
    · obtain ⟨t, rfl, -⟩ := (signatureIsSingle_iff h0 true).mp (by simpa using h1)
      exact absurd (openArrayBody_error (finishOpen_error h)) hr
    · exact eq_of_error h
    · obtain ⟨t, rfl, -⟩ := (signatureIsSingle_iff h0 true).mp (by simpa using h1)
      exact absurd (openArrayBody_error (finishOpen_error h)) hr
  · simp only [busMessageOpenVariant] at h
    split_ifs at h
    · exact eq_of_error h
    · exact eq_of_error h
    · exact eq_of_error h
    · exact absurd (openBody_error (finishOpen_error h)) hr
    · exact eq_of_error h
    · exact absurd (openBody_error (finishOpen_error h)) hr
  · simp only [busMessageOpenStruct] at h
    split_ifs at h
    · exact eq_of_error h
    · exact eq_of_error h
    · exact absurd (openBody_error (finishOpen_error h)) hr
    · exact eq_of_error h
    · exact absurd (openBody_error (finishOpen_error h)) hr
  · simp only [busMessageOpenDictEntry] at h
    split_ifs at h
    · exact eq_of_error h
    · exact eq_of_error h
    · exact eq_of_error h
    · exact absurd (openBody_error h) hr
    · exact eq_of_error h
  · exact eq_of_error h

theorem sdBusMessageOpenContainer_error {m m' : Message} {type : UInt8} {contents : Str}
    {r : Errno} (h0 : (0 : UInt8) ∉ contents)
    (h : sdBusMessageOpenContainer m type contents = (.error r, m')) (hr : r ≠ .enomem) :
    m' = m := by
  simp only [sdBusMessageOpenContainer] at h
  split_ifs at h
  · exact eq_of_error h
  · exact eq_of_error h
  · split at h
    · rename_i e m₁ hopen
      simp only [Prod.mk.injEq, Except.error.injEq] at h
      obtain ⟨rfl, rfl⟩ := h
      exact openByType_error h0 hopen hr
    · exact absurd h (by simp)

theorem sdBusMessageCloseContainer_error {m m' : Message} {r : Errno}
    (h : sdBusMessageCloseContainer m = (.error r, m')) : m' = m := by
  cases hcs : m.containers with
  | nil =>
    simp only [sdBusMessageCloseContainer, hcs] at h
    split_ifs at h <;> exact eq_of_error h
  | cons c cs =>
    simp only [sdBusMessageCloseContainer, hcs] at h
    split_ifs at h
    · exact eq_of_error h
    · exact eq_of_error h
    · exact eq_of_error h
    · exact absurd h (by simp)

theorem argBytes_refused (m : Message) (p : BasicArg) (hp : busTypeIsBasic p.type = true) :
    p.refused m.allowFds = true ↔ ∃ r, argBytes m p = .error r := by
  cases p with
  | num t x => simp [BasicArg.refused, argBytes]
  | boolean p => simp [BasicArg.refused, argBytes]
  | string p => simp [BasicArg.refused, argBytes]
  | objectPath p => cases p <;> simp [BasicArg.refused, argBytes]
  | signature p => simp [BasicArg.refused, argBytes]
  | unixFd p dup =>
    cases p with
    | none => simp [BasicArg.refused, argBytes]
    | some fd =>
      simp only [BasicArg.refused, argBytes, messagePushFd]
      cases dup <;> cases m.allowFds <;> by_cases hfd : fd < 0 <;>
        simp [hfd, Except.map, Except.isOk, Except.toBool]
  | other c hc => exact absurd hp (by rw [BasicArg.type, hc]; decide)

theorem appendBasicValue_error {m m' : Message} {p : BasicArg} {r : Errno}
    (h : appendBasicValue m p = (.error r, m')) (hr : r ≠ .enomem) :
    m' = m ∧ argBytes m p = .error r := by
  unfold appendBasicValue at h
  split at h
  · rename_i e harg
    simp only [Prod.mk.injEq, Except.error.injEq] at h
    exact ⟨h.2.symm, h.1 ▸ harg⟩
  · split at h
    · simp only [Prod.mk.injEq, Except.error.injEq] at h
      exact absurd h.1.symm hr
    · exact absurd h (by simp)

theorem BasicArg.refused_basic {p : BasicArg} {b : Bool} (h : p.refused b = true) :
    busTypeIsBasic p.type = true := by
  cases p with
  | objectPath p => rfl
  | unixFd p dup => rfl
  | _ => exact absurd h (by simp [BasicArg.refused])

theorem strextend_argBytes (m : Message) (s : Str) (p : BasicArg) :
    argBytes (m.strextendSignature s) p = argBytes m p := by
  have hfds : (m.strextendSignature s).fds = m.fds := by
    unfold Message.strextendSignature Message.setLastContainer
    cases m.containers <;> rfl
  have hallow : (m.strextendSignature s).allowFds = m.allowFds := by
    unfold Message.strextendSignature Message.setLastContainer
    cases m.containers <;> rfl
  have hend : (m.strextendSignature s).endian = m.endian := by
    unfold Message.strextendSignature Message.setLastContainer
    cases m.containers <;> rfl
  cases p with
  | objectPath p => cases p <;> simp only [argBytes, hend]
  | unixFd p dup => cases p <;> simp only [argBytes, messagePushFd, hfds, hallow, hend]
  | _ => simp only [argBytes, hend]

theorem messageAppendBasic_misplaced {m : Message} {p : BasicArg}
    (h : (Op.appendBasic p).Misplaced m) :
    ∃ r, messageAppendBasic m p = (.error r, m.strextendSignature [p.type]) := by
  obtain ⟨hs, hp, henc, hcur, href⟩ := h
  have hb := BasicArg.refused_basic href
  obtain ⟨r, hr⟩ := (argBytes_refused m p hb).mp href
  refine ⟨r, ?_⟩
  have hbasic : busTypeIsBasic p.type ≠ false := by simp [hb]
  simp only [messageAppendBasic, hs, hp, henc, hcur]
  simp [hbasic, appendBasicValue, strextend_argBytes, hr]

theorem messageAppendBasic_error {m m' : Message} {p : BasicArg} {r : Errno}
    (h : messageAppendBasic m p = (.error r, m')) (hr : r ≠ .enomem)
    (hp : ¬ (Op.appendBasic p).Misplaced m) : m' = m := by
  simp only [messageAppendBasic] at h
  split_ifs at h with h1 h2 h3 h4 h5 h6
  · exact eq_of_error h
  · exact eq_of_error h
  · exact eq_of_error h
  · exact eq_of_error h
  · exact (appendBasicValue_error h hr).1
  · exact eq_of_error h
  · exfalso
    obtain ⟨-, harg⟩ := appendBasicValue_error h hr
    rw [strextend_argBytes] at harg
    refine hp ⟨by simpa using h1, by simpa using h3, by simpa using h6, by simpa using h4, ?_⟩
    exact (argBytes_refused m p (by simpa using h2)).mpr ⟨r, harg⟩

theorem not_intact_strextend {m : Message} {s : Str} (hs : s ≠ []) :
    ¬ Intact m (m.strextendSignature s) := by
  intro h
  have hlast : messageGetLastContainer (m.strextendSignature s) = messageGetLastContainer m := by
    rw [messageGetLastContainer, h.root, h.containers, messageGetLastContainer]
  have hsig : strempty (messageGetLastContainer (m.strextendSignature s)).signature =
      strempty (messageGetLastContainer m).signature ++ s := by
    unfold Message.strextendSignature Message.setLastContainer
    cases hcs : m.containers <;> simp [messageGetLastContainer, hcs, strempty]
  rw [hlast] at hsig
  exact hs (by simpa using hsig)

theorem eq_of_refused {m m' : Message} {op : Op} {r : Errno} (h : op.exec m = (.error r, m'))
    (hr : r ≠ .enomem) (hp : ¬ op.Misplaced m) : m' = m := by
  cases op with
  | appendBasic p => exact messageAppendBasic_error h hr hp
  | openContainer type contents => exact sdBusMessageOpenContainer_error contents.2 h hr
  | closeContainer => exact sdBusMessageCloseContainer_error h

theorem intact_iff {m m' : Message} {op : Op} {r : Errno} (h : op.exec m = (.error r, m'))
    (hr : r ≠ .enomem) : Intact m m' ↔ ¬ op.Misplaced m := by
  constructor
  · intro hi hmis
    cases op with
    | appendBasic p =>
      obtain ⟨r', hr'⟩ := messageAppendBasic_misplaced hmis
      have : m' = m.strextendSignature [p.type] := eq_of_error (hr'.symm.trans h).symm |>.symm
      rw [this] at hi
      exact not_intact_strextend (by simp) hi
    | openContainer type contents => exact hmis
    | closeContainer => exact hmis
  · intro hmis
    rw [eq_of_refused h hr hmis]
    exact ⟨rfl, rfl, rfl, rfl, rfl⟩

inductive Calls : Message → List Op → Message → Prop
  | nil (m : Message) : Calls m [] m
  | success {m m₁ m₂ : Message} {op : Op} {done : List Op} (h : op.exec m = (.ok (), m₁))
      (hs : Calls m₁ done m₂) : Calls m (op :: done) m₂
  | refused {m m₁ m₂ : Message} {op : Op} {done : List Op} {r : Errno}
      (h : op.exec m = (.error r, m₁)) (hr : r ≠ .enomem) (hp : ¬ op.Misplaced m)
      (hs : Calls m₁ done m₂) : Calls m done m₂

theorem Calls.runs {m m' : Message} {done : List Op} (h : Calls m done m') : Runs m done m' := by
  induction h with
  | nil m => exact .nil m
  | success h _ ih => exact .cons h ih
  | refused h hr hp _ ih =>
    obtain rfl := eq_of_refused h hr hp
    exact ih

end Basu
