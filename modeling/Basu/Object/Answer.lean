import Basu.Object.Order

/-! How a call of a property is answered: with one reply at most, and where a setter succeeded
without a change of the tree, with a method return. -/

namespace Basu
open Lib
open Function

def UserCall.isSet : UserCall → Bool
  | .set .. => true
  | _ => false

def CallRecord.SetSucceeded (c : CallRecord) : Prop :=
  c.call.isSet = true ∧ c.outcome.ret ≠ .neg ∧ c.outcome.error = false

instance (c : CallRecord) : Decidable c.SetSucceeded :=
  inferInstanceAs (Decidable (c.call.isSet = true ∧ c.outcome.ret ≠ .neg ∧ c.outcome.error = false))

def CallRecord.Changes (c : CallRecord) : Prop :=
  (c.outcome.ops.foldl ObjectOp.exec c.bus).nodesModified = true

instance (c : CallRecord) : Decidable c.Changes :=
  inferInstanceAs (Decidable ((c.outcome.ops.foldl ObjectOp.exec c.bus).nodesModified = true))

def WalkEvent.Quiet : WalkEvent → Prop
  | .access .. => True
  | .call c => c.SetSucceeded → c.Changes
  | .reply _ => False

inductive LastEvents : Ret → List WalkEvent → Prop
  | none (r : Ret) : LastEvents r []
  | reply {r : Ret} (hr : r ≠ .zero) (kind : ReplyKind) : LastEvents r [.reply kind]
  | failed (c : CallRecord) : LastEvents .neg [.call c]
  | answered (c : CallRecord) : LastEvents .pos [.call c, .reply .methodReturn]

def Silent (w w' : Walk) : Prop := ∃ q, w'.log = w.log ++ q ∧ ∀ e ∈ q, e.Quiet

def Answers (w : Walk) (r : Walk × Ret) : Prop :=
  ∃ q t, r.1.log = w.log ++ (q ++ t) ∧ (∀ e ∈ q, e.Quiet) ∧ LastEvents r.2 t

def Answering (f : WalkStep) : Prop := ∀ w, Answers w (f w)

section
variable {env : WalkEnv} {wb : WalkBus} {m : ObjectCall} {w w' w'' : Walk} {f g : WalkStep}
  {p served : Str} {rf : Bool} {s n : Nat}

theorem Silent.of_log (h : w'.log = w.log) : Silent w w' :=
  ⟨[], h.trans (List.append_nil _).symm, nofun⟩

theorem Silent.refl (w : Walk) : Silent w w := .of_log rfl

theorem Silent.trans (h : Silent w w') (h' : Silent w' w'') : Silent w w'' := by
  obtain ⟨q, hq, hquiet⟩ := h
  obtain ⟨q', hq', hquiet'⟩ := h'
  refine ⟨q ++ q', by rw [hq', hq, List.append_assoc], fun e he => ?_⟩
  exact (List.mem_append.mp he).elim (hquiet e) (hquiet' e)

theorem Silent.record (w : Walk) {e : WalkEvent} (he : e.Quiet) : Silent w (w.record e) := by
  refine ⟨[e], rfl, fun e' he' => ?_⟩
  rw [List.mem_singleton.mp he']
  exact he

theorem Silent.answers (h : Silent w w') (r : Ret) : Answers w (w', r) := by
  obtain ⟨q, hq, hquiet⟩ := h
  exact ⟨q, [], by rw [List.append_nil, hq], hquiet, .none r⟩

theorem Silent.onward (h : Silent w w') {r : Walk × Ret} (hr : Answers w' r) : Answers w r := by
  obtain ⟨q, hq, hquiet⟩ := h
  obtain ⟨q', t, hlog, hquiet', ht⟩ := hr
  refine ⟨q ++ q', t, by rw [hlog, hq, List.append_assoc, List.append_assoc], fun e he => ?_, ht⟩
  exact (List.mem_append.mp he).elim (hquiet e) (hquiet' e)

theorem Answers.silent {r : Walk × Ret} (h : Answers w r) (hz : r.2 = .zero) : Silent w r.1 := by
  obtain ⟨q, t, hlog, hquiet, ht⟩ := h
  rw [hz] at ht
  cases ht with
  | none => exact ⟨q, by rw [hlog, List.append_nil], hquiet⟩
  | reply hr => exact absurd rfl hr

theorem answers_seq (hf : Answers w (f w)) (hg : Silent w (f w).1 → Answers (f w).1 (g (f w).1)) :
    Answers w (WalkStep.seq f g w) := by
  unfold WalkStep.seq
  split_ifs with hz
  · exact (hf.silent hz).onward (hg (hf.silent hz))
  · exact hf

theorem answers_pure (w : Walk) (r : Ret) : Answers w (w, r) := (Silent.refl w).answers r

theorem Answering.seq (hf : Answering f) (hg : Answering g) : Answering (WalkStep.seq f g) :=
  fun w => answers_seq (hf w) fun _ => hg _

theorem Answering.unlessModified (hf : Answering f) : Answering (unlessModified f) := by
  intro w
  unfold Basu.unlessModified
  split_ifs
  · exact answers_pure w .zero
  · exact hf w

theorem Answering.working (hf : Answering f) (k : Work) : Answering (working env k f) := by
  intro w
  unfold Basu.working
  split_ifs
  · exact hf w
  · exact answers_pure w .neg

theorem Answering.setFound (hf : Answering f) : Answering fun w => f w.setFound :=
  fun w => (Silent.of_log rfl).onward (hf w.setFound)

theorem answers_reply {kind : ReplyKind} {r : Ret} (hr : r ≠ .zero) :
    Answers w ((replyMethod env m kind w).1, r) := by
  rcases replyMethod_fst env m kind w with h | h
  · rw [h]
    exact answers_pure w r
  · rw [h]
    exact ⟨[], [.reply kind], rfl, nofun, .reply hr kind⟩

theorem answering_replyMethod (hm : m.noReply = false) {kind : ReplyKind} :
    Answering (replyMethod env m kind) := by
  intro w
  have hr : (replyMethod env m kind w).2 ≠ .zero := by
    unfold replyMethod
    simp only [hm, Bool.false_eq_true, if_false]
    split_ifs <;> simp
  exact answers_reply hr

theorem answering_sendReply : Answering (sendReply env m) := by
  intro w
  unfold sendReply
  split_ifs
  · exact answers_pure w .pos
  · exact ⟨[], [.reply .methodReturn], rfl, nofun, .reply (r := .pos) nofun .methodReturn⟩
  · exact answers_pure w .neg

theorem answering_busMaybeReplyError {r : Ret} {error : Bool} :
    Answering (busMaybeReplyError env m r error) := by
  intro w
  unfold busMaybeReplyError
  split_ifs
  · exact answers_reply nofun
  · exact answers_pure w r

theorem silent_invoke {c : UserCall} (hc : c.isSet = false) :
    Silent w (w.invoke env p rf served c).1 := by
  refine ⟨[_], rfl, fun e he => ?_⟩
  rw [List.mem_singleton.mp he]
  exact fun h => absurd (hc.symm.trans h.1) nofun

theorem answering_callbackRun {next : WalkStep} (hnext : Answering next) :
    Answering (callbackRun env wb m p rf s next) := by
  intro w
  unfold callbackRun
  split_ifs
  · exact hnext w
  · refine (Silent.of_log rfl).onward (Answering.working (fun w => ?_) .rewind
      (w.markSlot s wb.iterationCounter))
    exact (silent_invoke rfl).onward (answering_busMaybeReplyError.seq hnext _)

theorem answering_nodeCallbacksRun (l : List Nat) :
    Answering (nodeCallbacksRun env wb m p rf l) := by
  induction l with
  | nil => exact fun w => answers_pure w .zero
  | cons s l ih =>
    refine Answering.unlessModified fun w => ?_
    split_ifs
    · exact ih w
    · exact (answering_callbackRun ih).setFound w

theorem answering_checkAccess {c : VtableMember} {next : WalkStep} (hnext : Answering next) :
    Answering (checkAccess env wb m c next) := by
  intro w
  unfold checkAccess
  have hquiet : (WalkEvent.access c.parent c.key (accessGranted env wb w c)).Quiet := trivial
  refine (Silent.record w hquiet).onward ?_
  dsimp only
  split_ifs
  · exact hnext _
  · exact answering_busMaybeReplyError _

theorem silent_nodeVtableGetUserdata :
    Silent w (nodeVtableGetUserdata env p rf served s w).1 := by
  unfold nodeVtableGetUserdata
  split
  · exact .refl w
  · exact silent_invoke rfl

theorem answering_withUserdata {next : WalkStep} (hnext : Answering next) :
    Answering (withUserdata env m p rf s next) := by
  intro w
  unfold withUserdata
  have hs : Silent w (nodeVtableGetUserdata env p rf m.path s w).1 := silent_nodeVtableGetUserdata
  refine hs.onward ?_
  dsimp only
  split_ifs
  · exact hnext.setFound.unlessModified _
  · exact answering_busMaybeReplyError _

theorem answering_methodRun (hm : m.noReply = false) {c : VtableMember} :
    Answering (methodRun env m p rf c) := by
  intro w
  unfold methodRun
  split_ifs
  · exact answering_replyMethod hm w
  · split
    · exact (silent_invoke rfl).onward (answering_busMaybeReplyError _)
    · dsimp only
      split_ifs
      · exact answering_replyMethod hm w
      · exact answers_reply nofun

theorem answering_methodCallbacksRun (hm : m.noReply = false) {c : VtableMember} :
    Answering (methodCallbacksRun env wb m p rf c) := by
  intro w
  unfold methodCallbacksRun
  split
  · exact answers_pure w .zero
  · refine answering_checkAccess (answering_withUserdata fun w => ?_) w
    split_ifs
    · exact answers_pure w .zero
    · exact (Silent.of_log rfl).onward ((answering_methodRun hm).working .rewind _)

theorem silent_invokePropertyGet {e : VtableEntry} :
    Silent w (invokePropertyGet env p rf served s e w).1 := by
  unfold invokePropertyGet
  split
  · exact silent_invoke rfl
  · split_ifs <;> exact .refl w

theorem answering_propertyGetRun {c : VtableMember} :
    Answering (propertyGetRun env m p rf c) := by
  refine Answering.working (fun w => ?_) .openContainer
  unfold orReplyError
  have hs : Silent w (invokePropertyGet env p rf m.path c.parent c.entry w).1 :=
    silent_invokePropertyGet
  refine hs.onward ?_
  dsimp only
  split
  · exact answering_busMaybeReplyError _
  · exact (answering_sendReply.working .closeContainer).unlessModified _

theorem answers_setter (hm : m.noReply = false) {c : CallRecord}
    (hw : w'.log = w.log ++ [.call c]) (hchange : w'.bus.nodesModified = true → c.Changes) :
    Answers w (unlessModified (working env .exitContainer (sendReply env m)) w') := by
  have hlast : Answers w (w', .neg) := ⟨[], [.call c], hw, nofun, .failed c⟩
  unfold unlessModified
  split_ifs with hmod
  · refine Silent.answers ⟨[.call c], hw, fun e he => ?_⟩ .zero
    rw [List.mem_singleton.mp he]
    exact fun _ => hchange hmod
  · unfold working sendReply
    simp only [hm, Bool.false_eq_true, if_false]
    split_ifs
    · refine ⟨[], [.call c, .reply .methodReturn], ?_, nofun, .answered c⟩
      show w'.log ++ [.reply .methodReturn] = _
      rw [hw, List.append_assoc]
      rfl
    · exact hlast
    · exact hlast

theorem answering_setRun (hm : m.noReply = false) {c : VtableMember} :
    Answering (orReplyError env m (invokePropertySet env m p rf c) <|
      unlessModified <| working env .exitContainer <| sendReply env m) := by
  intro w
  unfold orReplyError invokePropertySet
  cases c.entry.setter with
  | none =>
    dsimp only
    split_ifs with hread hneg hneg
    · exact answering_busMaybeReplyError w
    · exact (answering_sendReply.working .exitContainer).unlessModified w
    · exact answering_busMaybeReplyError w
    · exact (answering_sendReply.working .exitContainer).unlessModified w
  | some f =>
    dsimp only
    generalize hr : w.invoke env p rf m.path (.set c.parent c.key) = r
    have hlog : r.1.log = w.log ++ [.call ⟨w.bus, .set c.parent c.key, m.path, p, rf, r.2⟩] := by
      rw [← hr]
      rfl
    have hbus : r.1.bus = r.2.ops.foldl ObjectOp.exec w.bus := by
      rw [← hr]
      rfl
    by_cases hfail : r.2.ret = .neg ∨ r.2.error = true
    · have hcond : (decide (r.2.ret = .neg) || r.2.error) = true := by simpa using hfail
      rw [if_pos hcond, if_pos rfl]
      refine Silent.onward ⟨_, hlog, fun e he => ?_⟩ (answering_busMaybeReplyError _)
      rw [List.mem_singleton.mp he]
      rintro ⟨-, hret, herror⟩
      exact absurd hfail (not_or.mpr ⟨hret, ne_true_of_eq_false herror⟩)
    · have hcond : ¬(decide (r.2.ret = .neg) || r.2.error) = true := by simpa using hfail
      rw [if_neg hcond, if_neg fun h => hfail (Or.inl h)]
      refine answers_setter hm hlog fun hmod => ?_
      unfold CallRecord.Changes
      rw [← hbus]
      exact hmod

theorem answering_propertySetRun (hm : m.noReply = false) {c : VtableMember} :
    Answering (propertySetRun env wb m p rf c) := by
  intro w
  unfold propertySetRun
  split
  · exact answering_replyMethod hm w
  split
  · exact answers_pure w .zero
  have hmark : Silent w (w.markMember .property c.key wb.iterationCounter) := .of_log rfl
  refine hmark.onward ?_
  dsimp only
  split
  · exact answers_pure _ .neg
  split
  · exact answering_replyMethod hm _
  · exact (answering_checkAccess (answering_setRun hm)).working .enterContainer _

theorem answering_propertyGetSetCallbacksRun (hm : m.noReply = false) {isGet : Bool}
    {c : VtableMember} : Answering (propertyGetSetCallbacksRun env wb m p rf isGet c) := by
  intro w
  unfold propertyGetSetCallbacksRun
  split
  · exact answers_pure w .zero
  · refine answering_withUserdata (Answering.working ?_ .newMethodReturn) w
    split
    · exact answering_propertyGetRun
    · exact answering_propertySetRun hm

theorem silent_nodeExistsLoop (l : List Nat) (w : Walk) :
    Silent w (nodeExistsLoop env m p rf l w).1 := by
  induction l generalizing w with
  | nil => exact .refl w
  | cons s l ih =>
    rw [nodeExistsLoop]
    dsimp only
    split
    · exact ih w
    · have hs : Silent w (nodeVtableGetUserdata env p rf m.path s w).1 :=
        silent_nodeVtableGetUserdata
      unfold WalkStep.seq unlessModified
      split_ifs
      · exact hs
      · exact hs.trans (ih _)
      · exact hs

theorem silent_busNodeExists : Silent w (busNodeExists env m p rf n w).1 := by
  unfold busNodeExists
  dsimp only
  split_ifs
  · exact .refl w
  · exact .refl w
  · exact silent_nodeExistsLoop _ w

theorem answering_existsRun : Answering (existsRun env m p rf n) := by
  intro w
  unfold existsRun
  split
  · exact answers_pure w .zero
  · have hs : Silent w (busNodeExists env m p rf n w).1 := silent_busNodeExists
    refine hs.onward ?_
    dsimp only
    split
    · exact answering_busMaybeReplyError _
    · refine Answering.unlessModified (fun w => ?_) _
      refine Silent.answers (Silent.of_log ?_) .zero
      split <;> rfl

structure IsPropertyCall (m : ObjectCall) : Prop where
  interface : m.interface = some propertiesInterface
  member : m.member = str "Get" ∨ m.member = str "Set"
  wantsReply : m.noReply = false

theorem answering_propertiesRun (hm : IsPropertyCall m) {next : WalkStep} (hnext : Answering next) :
    Answering (propertiesRun env wb m p rf n next) := by
  unfold propertiesRun
  have hmember : (m.member = str "Get" || m.member = str "Set") = true := by
    simpa using hm.member
  rw [if_pos hmember]
  refine Answering.working (fun w => ?_) .rewind
  split
  · exact answering_replyMethod hm.wantsReply w
  · split
    · exact hnext w
    · exact (answering_propertyGetSetCallbacksRun hm.wantsReply).seq hnext w

theorem answering_membersRun (hm : IsPropertyCall m) : Answering (membersRun env wb m p rf n) := by
  intro w
  have hbuiltin : Answering (builtinRun env wb m p rf n
      (unlessModified (existsRun env m p rf n))) := by
    unfold builtinRun
    rw [if_pos hm.interface]
    exact answering_propertiesRun hm answering_existsRun.unlessModified
  unfold membersRun
  rw [hm.interface]
  dsimp only
  split
  · exact hbuiltin w
  · exact (answering_methodCallbacksRun hm.wantsReply).seq hbuiltin.unlessModified w

theorem answering_objectFindAndRun (hm : IsPropertyCall m) :
    Answering (objectFindAndRun env wb m p rf) := by
  intro w
  unfold objectFindAndRun
  split
  · exact (Silent.of_log rfl).answers .zero
  · exact (Silent.of_log rfl).onward
      ((answering_nodeCallbacksRun _).seq (answering_membersRun hm).unlessModified _)

theorem answering_prefixesRun (hm : IsPropertyCall m) (l : List Str) :
    Answering (prefixesRun env wb m l) := by
  induction l with
  | nil => exact fun w => answers_pure w .zero
  | cons p l ih => exact ((answering_objectFindAndRun hm).seq ih).unlessModified

theorem answering_walkPass (hm : IsPropertyCall m) : Answering (walkPass env wb m) := fun _ =>
  (Silent.of_log rfl).onward
    ((answering_objectFindAndRun hm).seq (answering_prefixesRun hm _) _)

theorem answering_walkFinish (hm : IsPropertyCall m) : Answering (walkFinish env m) := by
  intro w
  unfold walkFinish
  split
  · exact answers_pure w .zero
  · dsimp only
    split
    · exact answering_replyMethod hm.wantsReply w
    · exact answers_reply nofun

theorem answers_walkLoop (hm : IsPropertyCall m) (fuel : Nat) (w : Walk) :
    Answers w ((walkLoop env wb m fuel w).1, (walkLoop env wb m fuel w).2.getD .zero) := by
  induction fuel generalizing w with
  | zero => exact answers_pure w .zero
  | succ fuel ih =>
    have hpass : Answers w (walkPass env wb m w) := answering_walkPass hm w
    rw [walkLoop]
    split
    · exact hpass
    · next hz =>
      have hs := hpass.silent (not_not.mp hz)
      split
      · exact hs.onward (ih _)
      · exact hs.onward (answering_walkFinish hm _)

def WalkEvent.reply? : WalkEvent → Option ReplyKind
  | .reply kind => some kind
  | _ => none

def WalkEvent.call? : WalkEvent → Option CallRecord
  | .call c => some c
  | _ => none

def Walk.replies (w : Walk) : List ReplyKind := w.log.filterMap WalkEvent.reply?

theorem replies_quiet {q : List WalkEvent} (h : ∀ e ∈ q, e.Quiet) :
    q.filterMap WalkEvent.reply? = [] := by
  rw [List.filterMap_eq_nil_iff]
  intro e he
  cases e with
  | reply kind => exact absurd (h _ he) id
  | _ => rfl

end

/-- A call of `Get` or `Set` is answered once at most, whatever the functions called back do to the
tree. If a setter was run and reported success, and the tree is not marked as changed behind it, the
one reply is a method return; there is none only if the work on it failed. -/
theorem property_call_answered (env : WalkEnv) (wb : WalkBus) (m : ObjectCall)
    (hm : IsPropertyCall m) (fuel : Nat) (b : ObjBus) :
    (busProcessObject env wb m fuel b).1.replies.length ≤ 1 ∧
      ∀ c, .call c ∈ (busProcessObject env wb m fuel b).1.log → c.SetSucceeded → ¬c.Changes →
        (busProcessObject env wb m fuel b).1.replies = [.methodReturn] ∧
            (busProcessObject env wb m fuel b).2 = some .pos ∨
          (busProcessObject env wb m fuel b).1.replies = [] ∧
            (busProcessObject env wb m fuel b).2 = some .neg := by
  have h : Answers { bus := b } ((busProcessObject env wb m fuel b).1,
      (busProcessObject env wb m fuel b).2.getD .zero) := by
    unfold busProcessObject
    split
    · exact answers_pure _ .zero
    · exact answers_walkLoop hm fuel _
  generalize busProcessObject env wb m fuel b = out at h
  obtain ⟨q, t, hlog, hquiet, ht⟩ := h
  have hlog : out.1.log = q ++ t := hlog
  have ht : LastEvents (out.2.getD .zero) t := ht
  have hreplies : out.1.replies = t.filterMap WalkEvent.reply? := by
    unfold Walk.replies
    rw [hlog, List.filterMap_append, replies_quiet hquiet, List.nil_append]
  obtain ⟨r, hr⟩ : ∃ r, out.2.getD .zero = r := ⟨_, rfl⟩
  rw [hr] at ht
  rw [hlog, hreplies]
  constructor
  · cases ht with
    | none => exact Nat.zero_le 1
    | reply => exact le_rfl
    | failed => exact Nat.zero_le 1
    | answered => exact le_rfl
  · intro c hc hs hno
    have hct : .call c ∈ t := (List.mem_append.mp hc).resolve_left fun hq => hno (hquiet _ hq hs)
    have hsome : ∀ {r : Ret}, out.2.getD .zero = r → r ≠ .zero → out.2 = some r := by
      intro r hr hz
      cases ho : out.2 with
      | none => exact absurd (by rw [← hr, ho]; rfl) hz
      | some r' => rw [← hr, ho]; rfl
    cases ht with
    | none => exact absurd hct List.not_mem_nil
    | reply => simp at hct
    | failed c' => exact Or.inr ⟨rfl, hsome hr nofun⟩
    | answered c' => exact Or.inl ⟨rfl, hsome hr nofun⟩

/-- `/a` has the property `a.b.P`, which everybody may write. -/
def busWithWritable : ObjBus :=
  objectRun [.addObjectVtable [47, 97] [97, 46, 98]
    { entries := [.property true sdBusVtableUnprivileged [80] [105] (some 0) (some 1)] }]

def setCall : ObjectCall :=
  { path := [47, 97]
    interface := some propertiesInterface
    member := str "Set"
    readStringString := some ([97, 46, 98], [80])
    peekType := some (sdBusTypeVariant, [105]) }

def settingEnv (ops : List ObjectOp) : WalkEnv :=
  { respond := fun _ _ _ => { ops := ops, ret := .pos }
    work := fun _ _ => true
    isOpen := fun _ => true
    privilege := fun _ _ => .zero
    setOrder := id }

theorem mem_log_of_call {log : List WalkEvent} {c : CallRecord}
    (h : c ∈ log.filterMap WalkEvent.call?) : .call c ∈ log := by
  obtain ⟨e, he, hec⟩ := List.mem_filterMap.mp h
  cases e with
  | call d => exact Option.some.inj hec ▸ he
  | access => cases hec
  | reply => cases hec

theorem isPropertyCall_setCall : IsPropertyCall setCall := ⟨rfl, Or.inr rfl, rfl⟩

/-- The setter is run, leaves the tree alone, and a method return follows. -/
theorem property_call_answered_set :
    (busProcessObject (settingEnv []) { iterationCounter := 1 } setCall 1
        busWithWritable).1.replies.length ≤ 1 ∧
      ∃ c, .call c ∈ (busProcessObject (settingEnv []) { iterationCounter := 1 } setCall 1
          busWithWritable).1.log ∧ c.SetSucceeded ∧
        (busProcessObject (settingEnv []) { iterationCounter := 1 } setCall 1
          busWithWritable).1.replies = [.methodReturn] := by
  obtain ⟨hone, hanswer⟩ := property_call_answered (settingEnv []) { iterationCounter := 1 } setCall
    isPropertyCall_setCall 1 busWithWritable
  have hset : ((busProcessObject (settingEnv []) { iterationCounter := 1 } setCall 1
      busWithWritable).1.log.filterMap WalkEvent.call?).any
        (fun c => decide (c.SetSucceeded ∧ ¬c.Changes)) = true := by decide +kernel
  obtain ⟨c, hc, hs⟩ := List.any_eq_true.mp hset
  obtain ⟨hs, hno⟩ := of_decide_eq_true hs
  have hin := mem_log_of_call hc
  have hpos : (busProcessObject (settingEnv []) { iterationCounter := 1 } setCall 1
      busWithWritable).2 = some .pos := by decide +kernel
  refine ⟨hone, c, hin, hs, (hanswer c hin hs hno).elim And.left fun h => ?_⟩
  exact absurd (hpos.symm.trans h.2) nofun

/-- A setter that adds an object manager and succeeds: the walk starts again, does not run the
setter again, and finds nothing else. -/
theorem not_property_call_answered :
    ¬∀ (env : WalkEnv) (wb : WalkBus) (m : ObjectCall), IsPropertyCall m → ∀ (fuel : Nat) (b : ObjBus),
      (busProcessObject env wb m fuel b).1.replies.length ≤ 1 ∧
        ∀ c, .call c ∈ (busProcessObject env wb m fuel b).1.log → c.SetSucceeded →
          .methodError ∉ (busProcessObject env wb m fuel b).1.replies := by
  intro h
  have hall := (h (settingEnv [.addObjectManager [47, 98]]) { iterationCounter := 1 } setCall
    isPropertyCall_setCall 2 busWithWritable).2
  have herror : .methodError ∈ (busProcessObject (settingEnv [.addObjectManager [47, 98]])
      { iterationCounter := 1 } setCall 2 busWithWritable).1.replies := by decide +kernel
  have hset : ((busProcessObject (settingEnv [.addObjectManager [47, 98]])
      { iterationCounter := 1 } setCall 2 busWithWritable).1.log.filterMap WalkEvent.call?).any
        (fun c => decide c.SetSucceeded) = true := by decide +kernel
  obtain ⟨c, hc, hs⟩ := List.any_eq_true.mp hset
  exact hall c (mem_log_of_call hc) (of_decide_eq_true hs) herror

end Basu
