import Basu.Reply.Once

/-! Which callback a completion calls. A call with a slot has an entry in the registry also when it
was made without a callback, and the three completions do not ask. -/

namespace Basu
open Lib
open Function

def ReplyOp.completing (b : ReplyBus) : ReplyOp → Option Nat
  | .reply cookie hasFds =>
    if b.mayProcess ∧ b.state.writes ∧ (hasFds → b.canFds) then b.replyCallbacks.lookup cookie
    else none
  | .timeout now =>
    if b.mayProcess ∧ b.state.writes then
      b.prioq.peek.filter fun id => (b.slots id).timeoutUsec ≤ now
    else none
  | .closing =>
    if b.mayProcess ∧ b.state = .closing then b.replyCallbacks.head?.map Prod.snd else none
  | _ => none

/-- The bus with the callback every slot has, `none` for `NULL`, and the calls of callbacks so
far. -/
structure CallbackBus (κ : Type) where
  bus : ReplyBus
  callback : Nat → Option κ := fun _ => none
  called : List (Nat × Option κ) := []

variable {κ : Type}

def CallbackBus.exec (c : CallbackBus κ) (op : ReplyOp) (f : κ) : CallbackBus κ where
  bus := op.exec c.bus
  callback := match op with
    | .callAsync a => update c.callback c.bus.nSlots (if a.callback then some f else none)
    | _ => c.callback
  called := match op.completing c.bus with
    | some id => c.called ++ [(id, c.callback id)]
    | none => c.called

def replyCallbackRun (c : CallbackBus κ) (ops : List (ReplyOp × κ)) : CallbackBus κ :=
  ops.foldl (fun c op => c.exec op.1 op.2) c

/-- Every completion has called the callback that was registered, which is not `NULL`, and its slot
is neither in the registry nor in the queue any more. -/
structure CallsReal (c : CallbackBus κ) : Prop where
  completed : c.called.map Prod.fst = c.bus.invoked.map Invocation.slot
  registered : ∀ e ∈ c.called, e.2 = c.callback e.1 ∧ e.2 ≠ none
  removed : ∀ e ∈ c.called, (∀ k, (k, e.1) ∉ c.bus.replyCallbacks) ∧ ¬ c.bus.prioq.Mem e.1

/-- No step of the run completes a call that was made without a callback. -/
def HasCallbacks : CallbackBus κ → List (ReplyOp × κ) → Prop
  | _, [] => True
  | c, op :: ops =>
    (∀ id, op.1.completing c.bus = some id → c.callback id ≠ none) ∧
      HasCallbacks (c.exec op.1 op.2) ops

section Step

variable {b : ReplyBus} {op : ReplyOp}

theorem exec_invoked (hinv : RegistryInv b) (hsound : op.Sound b) :
    (op.exec b).invoked.map Invocation.slot =
      b.invoked.map Invocation.slot ++ (op.completing b).toList := by
  have hsame : ∀ {b' : ReplyBus}, b'.invoked = b.invoked →
      b'.invoked.map Invocation.slot = b.invoked.map Invocation.slot ++ [] := fun h => by
    rw [h, List.append_nil]
  have hkeeps : ∀ {b' : ReplyBus}, Keeps b b' →
      b'.invoked.map Invocation.slot = b.invoked.map Invocation.slot ++ [] :=
    fun h => hsame (h hinv).2.invoked
  cases op with
  | opening => simp only [ReplyOp.exec]; split <;> exact hsame rfl
  | authenticating => simp only [ReplyOp.exec]; split <;> exact hsame rfl
  | startRunning now canFds => simp only [ReplyOp.exec]; split <;> exact hsame rfl
  | helloDone => simp only [ReplyOp.exec]; split <;> exact hsame rfl
  | enterClosing => exact hsame rfl
  | close => exact hsame rfl
  | send cookie => exact hsame rfl
  | callAsync a =>
    simp only [ReplyOp.exec]
    split
    · rcases sdBusCallAsync_cases b a with ⟨frames, cookie, n, hn, hb⟩ |
        ⟨cookie, timeout, frames, last, -, -, -, hb⟩
      · rw [hb]
        exact hsame rfl
      · rw [hb]
        obtain ⟨-, -, -, hi, -⟩ := register_state { b with cookie := last } a cookie timeout
        exact hsame hi
    · exact hsame rfl
  | sendDone ok => exact hkeeps (keeps_slotRel.sendDone hsound)
  | reply cookie hasFds =>
    simp only [ReplyOp.exec, ReplyOp.completing]
    by_cases hc : b.mayProcess ∧ b.state.writes ∧ (hasFds → b.canFds)
    · rw [if_pos hc, if_pos hc]
      unfold processReply
      cases b.replyCallbacks.lookup cookie with
      | none => exact hsame rfl
      | some id =>
        dsimp only
        split <;> simp [invoke, ReplyBus.setSlot, ReplyBus.prioqRemove]
    · rw [if_neg hc, if_neg hc]
      exact hsame rfl
  | timeout now =>
    simp only [ReplyOp.exec, ReplyOp.completing]
    by_cases hc : b.mayProcess ∧ b.state.writes
    · rw [if_pos hc, if_pos hc]
      unfold processTimeout
      cases b.prioq.peek with
      | none => exact hsame rfl
      | some id =>
        dsimp only
        by_cases hlt : now < (b.slots id).timeoutUsec
        · rw [if_pos hlt, Option.filter_some_neg]
          · exact hsame rfl
          · simpa using hlt
        · rw [if_neg hlt, Option.filter_some_pos]
          · simp [invoke, ReplyBus.setSlot]
          · simpa using hlt
    · rw [if_neg hc, if_neg hc]
      exact hsame rfl
  | closing =>
    simp only [ReplyOp.exec, ReplyOp.completing]
    by_cases hc : b.mayProcess ∧ b.state = .closing
    · rw [if_pos hc, if_pos hc]
      unfold processClosing
      cases b.replyCallbacks with
      | nil => exact hsame rfl
      | cons e m =>
        dsimp only
        split <;> simp [invoke, ReplyBus.setSlot, ReplyBus.prioqRemove]
    · rw [if_neg hc, if_neg hc]
      exact hsame rfl
  | callbackDone => exact hkeeps (keeps_slotRel.callbackDone b)
  | slotRef id =>
    simp only [ReplyOp.exec]
    split <;> [exact hkeeps (keeps_slotRel.ref b id); exact hsame rfl]
  | slotUnref id =>
    simp only [ReplyOp.exec]
    split <;> [exact hkeeps (keeps_slotRel.unref b id); exact hsame rfl]
  | setFloating id floating =>
    simp only [ReplyOp.exec]
    split <;> [exact hkeeps (keeps_slotRel.setFloating b id floating); exact hsame rfl]
  | disconnect id =>
    simp only [ReplyOp.exec]
    split <;> [exact hkeeps (keeps_slotRel.disconnect b id); exact hsame rfl]

end Step

structure CallbackInv (c : CallbackBus κ) : Prop where
  registry : RegistryInv c.bus
  invoked : InvokedInv c.bus
  completed : c.called.map Prod.fst = c.bus.invoked.map Invocation.slot
  registered : ∀ e ∈ c.called, e.2 = c.callback e.1

variable {c : CallbackBus κ} {op : ReplyOp} {f : κ}

theorem CallbackInv.invocation (h : CallbackInv c) {e : Nat × Option κ} (he : e ∈ c.called) :
    ∃ v ∈ c.bus.invoked, v.slot = e.1 := by
  have hmem := List.mem_map_of_mem (f := Prod.fst) he
  rw [h.completed] at hmem
  exact List.mem_map.mp hmem

theorem exec_called (c : CallbackBus κ) (op : ReplyOp) (f : κ) :
    (c.exec op f).called =
      c.called ++ (op.completing c.bus).toList.map fun id => (id, c.callback id) := by
  simp only [CallbackBus.exec]
  cases op.completing c.bus with
  | none => exact (List.append_nil _).symm
  | some id => rfl

theorem exec_callback (c : CallbackBus κ) (op : ReplyOp) (f : κ) {id : Nat}
    (hid : id < c.bus.nSlots) : (c.exec op f).callback id = c.callback id := by
  cases op with
  | callAsync a => exact update_of_ne (ne_of_lt hid) _ _
  | _ => rfl

theorem exec_callback_completing {id : Nat} (hid : op.completing c.bus = some id) :
    (c.exec op f).callback id = c.callback id := by
  cases op with
  | callAsync a => exact nomatch hid
  | _ => rfl

theorem CallbackInv.exec (h : CallbackInv c) (hsound : op.Sound c.bus) :
    CallbackInv (c.exec op f) := by
  refine ⟨exec_registryInv h.registry hsound, exec_invokedInv h.registry h.invoked hsound, ?_,
    fun e he => ?_⟩
  · rw [exec_called, List.map_append, h.completed, List.map_map]
    exact (congrArg _ (List.map_id _)).trans (exec_invoked h.registry hsound).symm
  · rw [exec_called] at he
    rcases List.mem_append.mp he with he | he
    · obtain ⟨v, hv, hslot⟩ := h.invocation he
      rw [exec_callback c op f (hslot ▸ (h.invoked.done v hv).1)]
      exact h.registered e he
    · obtain ⟨id, hid, rfl⟩ := List.mem_map.mp he
      exact (exec_callback_completing (Option.mem_toList.mp hid)).symm

theorem CallbackInv.removed (h : CallbackInv c) {e : Nat × Option κ} (he : e ∈ c.called) :
    (∀ k, (k, e.1) ∉ c.bus.replyCallbacks) ∧ ¬ c.bus.prioq.Mem e.1 := by
  obtain ⟨v, hv, hslot⟩ := h.invocation he
  have hdone := (h.invoked.done v hv).2
  rw [hslot] at hdone
  constructor
  · intro k hk
    obtain ⟨hc, hcookie, hne⟩ := h.registry.stored k e.1 hk
    exact hne (hcookie.symm.trans (hdone hc).1)
  · intro hm
    obtain ⟨hc, ht⟩ := (h.registry.queued e.1).mp hm
    exact ht (hdone hc).2

theorem CallbackInv.callsReal_iff (h : CallbackInv c) :
    CallsReal c ↔ ∀ e ∈ c.called, e.2 ≠ none :=
  ⟨fun hr e he => (hr.registered e he).2, fun hne =>
    ⟨h.completed, fun e he => ⟨h.registered e he, hne e he⟩, fun _ he => h.removed he⟩⟩

theorem replyCallbackRun_iff (ops : List (ReplyOp × κ)) : ∀ (c : CallbackBus κ), CallbackInv c →
    RunAll (fun b op => op.Sound b) c.bus (ops.map Prod.fst) →
    (CallsReal (replyCallbackRun c ops) ↔ (∀ e ∈ c.called, e.2 ≠ none) ∧ HasCallbacks c ops) := by
  induction ops with
  | nil => exact fun c h _ => h.callsReal_iff.trans (and_iff_left trivial).symm
  | cons op ops ih =>
    intro c h hall
    have hstep := ih (c.exec op.1 op.2) (h.exec hall.1) hall.2
    rw [exec_called] at hstep
    refine hstep.trans ?_
    rw [HasCallbacks, ← and_assoc]
    refine and_congr_left fun _ => ?_
    rw [List.forall_mem_append]
    refine and_congr_right fun _ => ?_
    constructor
    · intro hnew id hid
      exact hnew _ (List.mem_map_of_mem (Option.mem_toList.mpr hid))
    · intro hnew e he
      obtain ⟨id, hid, rfl⟩ := List.mem_map.mp he
      exact hnew id (Option.mem_toList.mp hid)

/-- In a run in which no call is registered under the cookie 0 and none completes before its
`sd_bus_call_async` is done, the completions call what was registered exactly if none of them comes
to a call without a callback. -/
theorem replyCallbackRun_callsReal (b : ReplyBus) (ops : List (ReplyOp × κ))
    (hops : RunAll (fun b op => op.Sound b) b.fresh (ops.map Prod.fst)) :
    CallsReal (replyCallbackRun { bus := b.fresh } ops) ↔
      HasCallbacks { bus := b.fresh, callback := fun _ => (none : Option κ) } ops := by
  have hfresh : InvokedInv b.fresh := ⟨List.nodup_nil, fun v hv => absurd hv List.not_mem_nil,
    fun v hv => absurd hv List.not_mem_nil, fun hc => absurd hc (by simp [ReplyBus.fresh])⟩
  refine (replyCallbackRun_iff ops { bus := b.fresh } ⟨fresh_registryInv b, hfresh, rfl,
    fun e he => absurd he List.not_mem_nil⟩ hops).trans (and_iff_right ?_)
  exact fun e he => absurd he List.not_mem_nil

theorem replyCallbackRun_callsReal_timeout :
    let b : ReplyBus := {}
    let ops : List (ReplyOp × Nat) := [(.opening, 0),
      (.callAsync (slotCall (.draft false) false), 7), (.sendDone true, 0), (.authenticating, 0),
      (.startRunning 200 false, 0), (.timeout 300, 0), (.callbackDone, 0), (.reply 1 false, 0)]
    (replyCallbackRun { bus := b.fresh } ops).called = [(0, some 7)] ∧
      (CallsReal (replyCallbackRun { bus := b.fresh } ops) ↔
        HasCallbacks { bus := b.fresh } ops) := by
  refine ⟨by decide +kernel, replyCallbackRun_callsReal _ _ ⟨trivial, ?_, ?_, trivial, trivial,
    trivial, trivial, trivial, trivial⟩⟩
  · intro cookie timeout hseal
    obtain ⟨rfl, -⟩ := Prod.mk.inj (Option.some.inj hseal)
    decide +kernel
  · intro _ id cookie waits frames hframes
    obtain ⟨h1, -⟩ := List.cons.inj hframes
    obtain ⟨hid, rfl, -⟩ := CallFrame.sending.inj h1
    obtain rfl := Option.some.inj hid
    decide +kernel

/-- A call with a slot and no callback whose reply comes. -/
theorem not_replyCallbackRun_callsReal :
    let b : ReplyBus := {}
    let a : AsyncCall := { slotCall (.draft false) false with callback := false }
    ¬ CallsReal (replyCallbackRun { bus := b.fresh } [(.opening, 0), (.callAsync a, 7),
      (.sendDone true, 0), (.authenticating, 0), (.startRunning 200 false, 0),
      (.reply 1 false, 0)]) := by
  intro b a h
  exact (h.registered (0, none) (by decide +kernel)).2 rfl

end Basu
