import Basu.Reply.Invariant

/-! Every call completes at most once: a slot whose callback is invoked can be found by nothing any
more, and nothing brings it back. -/

namespace Basu
open Lib
open Function

/-- No callback was invoked twice, and those of slots still connected are not found any more. -/
structure InvokedInv (b : ReplyBus) : Prop where
  once : (b.invoked.map Invocation.slot).Nodup
  valid : ∀ v ∈ b.invoked, v.connected = true ∧ v.completion ≠ .inconsistent
  done : ∀ v ∈ b.invoked, v.slot < b.nSlots ∧ ((b.slots v.slot).connected = true →
    (b.slots v.slot).cookie = 0 ∧ (b.slots v.slot).timeoutUsec = 0)
  fds : b.canFds = true → b.acceptFd = true

section Step

variable {b b' : ReplyBus}

theorem InvokedInv.calm (h : InvokedInv b) (hn : b.nSlots ≤ b'.nSlots)
    (hs : CalmSlots b.slots b'.slots) (hi : b'.invoked = b.invoked)
    (hfds : b'.canFds = true → b'.acceptFd = true) : InvokedInv b' := by
  refine ⟨hi ▸ h.once, hi ▸ h.valid, fun v hv => ?_, hfds⟩
  rw [hi] at hv
  obtain ⟨hlt, hdone⟩ := h.done v hv
  refine ⟨lt_of_lt_of_le hlt hn, fun hc => ?_⟩
  obtain ⟨hc', hcookie, htime⟩ := hs _ hc
  obtain ⟨h1, h2⟩ := hdone hc'
  refine ⟨?_, ?_⟩
  · rcases hcookie with hk | hk
    · exact hk.trans h1
    · exact hk
  · rcases htime with ⟨ht, -⟩ | ht
    · exact ht.trans h2
    · exact ht

theorem InvokedInv.keeps (h : InvokedInv b) (hinv : RegistryInv b) (hb : Keeps b b') :
    InvokedInv b' := by
  have hcalm := (hb hinv).2
  refine h.calm (le_of_eq hcalm.nSlots.symm) hcalm.slots hcalm.invoked ?_
  rw [hcalm.fds.1, hcalm.fds.2]
  exact h.fds

theorem Completes.invokedInv {id : Nat} {completion : Completion}
    (hb : Completes b b' id completion) (hinv : RegistryInv b) (h : InvokedInv b)
    (hreply : completion ≠ .inconsistent) : InvokedInv b' := by
  obtain ⟨hcalm, hcookie, htime⟩ := hb.calmSlots
  obtain ⟨hc, hne, rfl⟩ := hb
  have hself : (b.without id { b.slots id with cookie := 0, timeoutUsec := 0 }).slots id =
      { b.slots id with cookie := 0, timeoutUsec := 0 } := update_self _ _ _
  -- a slot that was completed before has no cookie, so it is not this one
  have hnew : ∀ v ∈ b.invoked, v.slot ≠ id := by
    rintro v hv rfl
    exact hne ((h.done v hv).2 hc).1
  refine ⟨?_, fun v hv => ?_, fun v hv => ?_, h.fds⟩
  · simp only [invoke, ReplyBus.setSlot, ReplyBus.without, List.map_append, List.map_cons,
      List.map_nil]
    rw [List.nodup_append]
    refine ⟨h.once, by simp, fun i hi j hj hij => ?_⟩
    obtain ⟨v, hv, rfl⟩ := List.mem_map.mp hi
    exact hnew v hv (hij.trans (List.mem_singleton.mp hj))
  · rcases List.mem_append.mp hv with hv | hv
    · exact h.valid v hv
    · rw [List.mem_singleton.mp hv]
      simp only [hself]
      exact ⟨hc, hreply⟩
  · rcases List.mem_append.mp hv with hv | hv
    · obtain ⟨hlt, hdone⟩ := h.done v hv
      have hslot : (invoke (b.without id { b.slots id with cookie := 0, timeoutUsec := 0 }) id
          completion).slots v.slot = b.slots v.slot :=
        (update_of_ne (hnew v hv) _ _).trans (update_of_ne (hnew v hv) _ _)
      rw [hslot]
      exact ⟨hlt, hdone⟩
    · rw [List.mem_singleton.mp hv]
      exact ⟨hinv.bound id hc, fun _ => ⟨hcookie, htime⟩⟩

theorem exec_invokedInv {op : ReplyOp} (hinv : RegistryInv b) (h : InvokedInv b)
    (hsound : op.Sound b) : InvokedInv (op.exec b) := by
  have hsame : ∀ {b' : ReplyBus}, b.nSlots ≤ b'.nSlots → b'.slots = b.slots →
      b'.invoked = b.invoked → b'.canFds = b.canFds → b'.acceptFd = b.acceptFd → InvokedInv b' := by
    intro b' hn hs hi hcan haccept
    refine h.calm hn (hs ▸ CalmSlots.refl _) hi ?_
    rw [hcan, haccept]
    exact h.fds
  cases op with
  | opening => simp only [ReplyOp.exec]; split <;> exact hsame le_rfl rfl rfl rfl rfl
  | authenticating => simp only [ReplyOp.exec]; split <;> exact hsame le_rfl rfl rfl rfl rfl
  | startRunning now canFds =>
    simp only [ReplyOp.exec]
    split
    · refine ⟨h.once, h.valid, fun v hv => ⟨(h.done v hv).1, fun hc => ?_⟩, fun hcan => ?_⟩
      · rw [busStartRunning_connected hinv] at hc
        obtain ⟨h1, h2⟩ := (h.done v hv).2 hc
        rw [busStartRunning_slots hinv now canFds hc]
        exact ⟨(start_sameSlot now _).2.1.trans h1, (start_sameSlot now _).2.2.mpr h2⟩
      · exact (Bool.and_eq_true_iff.mp hcan).1
    · exact h
  | helloDone => simp only [ReplyOp.exec]; split <;> exact hsame le_rfl rfl rfl rfl rfl
  | enterClosing => exact hsame le_rfl rfl rfl rfl rfl
  | close => exact hsame le_rfl rfl rfl rfl rfl
  | send cookie => exact hsame le_rfl rfl rfl rfl rfl
  | callAsync a =>
    simp only [ReplyOp.exec]
    split
    · rcases sdBusCallAsync_cases b a with ⟨frames, cookie, n, hn, hb⟩ |
        ⟨cookie, timeout, frames, last, -, -, -, hb⟩
      · rw [hb]
        exact hsame hn rfl rfl rfl rfl
      · rw [hb]
        obtain ⟨-, -, hn, hi, haccept, hcan⟩ :=
          register_state { b with cookie := last } a cookie timeout
        refine ⟨?_, ?_, fun v hv => ?_, ?_⟩
        · simp only [hi]
          exact h.once
        · simp only [hi]
          exact h.valid
        · simp only [hi] at hv
          obtain ⟨hlt, hdone⟩ := h.done v hv
          simp only [register_slots, hn, update_of_ne (ne_of_lt hlt)]
          exact ⟨Nat.lt_succ_of_lt hlt, hdone⟩
        · simp only [haccept, hcan]
          exact h.fds
    · exact h
  | sendDone ok => exact h.keeps hinv (keeps_slotRel.sendDone hsound)
  | reply cookie hasFds =>
    simp only [ReplyOp.exec]
    split
    · rename_i hcond
      rcases processReply_completes hinv cookie hasFds with hb | ⟨id, hb⟩
      · rw [hb]
        exact h
      · refine hb.invokedInv hinv h ?_
        rw [if_neg]
        · simp
        · simp only [Bool.and_eq_true, Bool.not_eq_true', not_and, Bool.not_eq_false]
          exact fun hf => h.fds (hcond.2.2 hf)
    · exact h
  | timeout now =>
    simp only [ReplyOp.exec]
    split
    · rcases processTimeout_completes hinv now with hb | ⟨id, hb⟩
      · rw [hb]
        exact h
      · exact hb.invokedInv hinv h (by simp)
    · exact h
  | closing =>
    simp only [ReplyOp.exec]
    split
    · rcases processClosing_completes hinv with hb | ⟨id, hb⟩
      · rw [hb]
        exact hsame le_rfl rfl rfl rfl rfl
      · exact hb.invokedInv hinv h (by simp)
    · exact h
  | callbackDone => exact h.keeps hinv (keeps_slotRel.callbackDone b)
  | slotRef id =>
    simp only [ReplyOp.exec]
    split <;> [exact h.keeps hinv (keeps_slotRel.ref b id); exact h]
  | slotUnref id =>
    simp only [ReplyOp.exec]
    split <;> [exact h.keeps hinv (keeps_slotRel.unref b id); exact h]
  | setFloating id floating =>
    simp only [ReplyOp.exec]
    split <;> [exact h.keeps hinv (keeps_slotRel.setFloating b id floating); exact h]
  | disconnect id =>
    simp only [ReplyOp.exec]
    split <;> [exact h.keeps hinv (keeps_slotRel.disconnect b id); exact h]

end Step

/-- The callback of a call is invoked at most once, with a reply or the error that there is none,
and while its slot is connected. -/
def CompletesOnce (b : ReplyBus) : Prop :=
  (b.invoked.map Invocation.slot).Nodup ∧ ∀ v ∈ b.invoked, v.connected = true ∧
    (v.completion = .reply ∨ v.completion = .timedOut ∨ v.completion = .terminated)

/-- Calls complete at most once, whatever the order of replies, timeouts, closing and slots given
up, as long as none is registered under the cookie 0 and none completes before its
`sd_bus_call_async` is done. -/
theorem replyRun_completesOnce (b : ReplyBus) (ops : List ReplyOp)
    (hops : RunAll (fun b op => op.Sound b) b.fresh ops) :
    CompletesOnce (replyRun b.fresh ops) := by
  have h := RunAll.invariant (I := fun b => RegistryInv b ∧ InvokedInv b)
    (fun b op hI hP => ⟨exec_registryInv hI.1 hP, exec_invokedInv hI.1 hI.2 hP⟩) ops
    ⟨fresh_registryInv b, ⟨List.nodup_nil, fun v hv => absurd hv List.not_mem_nil,
      fun v hv => absurd hv List.not_mem_nil, fun hc => absurd hc (by simp [ReplyBus.fresh])⟩⟩ hops
  refine ⟨h.2.once, fun v hv => ⟨(h.2.valid v hv).1, ?_⟩⟩
  have hne := (h.2.valid v hv).2
  revert hne
  cases v.completion <;> simp

/-- A reply that comes twice, and the connection that goes. -/
theorem replyRun_completesOnce_duplicate :
    let b : ReplyBus := {}
    let ops := [.opening, .callAsync (slotCall (.draft false) false), .sendDone true,
      .authenticating, .startRunning 200 false, .reply 1 false, .callbackDone, .reply 1 false,
      .timeout 1000, .enterClosing, .closing]
    (replyRun b.fresh ops).invoked =
      [{ slot := 0, completion := .reply, connected := true }] ∧
      CompletesOnce (replyRun b.fresh ops) := by
  refine ⟨by decide +kernel, replyRun_completesOnce _ _ ⟨trivial, ?_, ?_, trivial, trivial, trivial,
    trivial, trivial, trivial, trivial, trivial, trivial⟩⟩
  · intro cookie timeout hseal
    obtain ⟨rfl, -⟩ := Prod.mk.inj (Option.some.inj hseal)
    decide +kernel
  · intro _ id cookie waits frames hframes
    obtain ⟨h1, -⟩ := List.cons.inj hframes
    obtain ⟨hid, rfl, -⟩ := CallFrame.sending.inj h1
    obtain rfl := Option.some.inj hid
    decide +kernel

/-- The slot of a call under the cookie 0 is given up, and its callback invoked all the same when
the connection closes. -/
theorem not_completesOnce_cookieZero :
    let b : ReplyBus := {}
    ¬ CompletesOnce (replyRun b.fresh [.opening, .callAsync (slotCall (.sealed false 0 5) false),
      .sendDone true, .slotUnref 0, .enterClosing, .closing]) := by
  rintro b ⟨-, hall⟩
  have := (hall { slot := 0, completion := .terminated, connected := false } (by decide +kernel)).1
  exact absurd this (by decide)

end Basu
