import Basu.Reply.Invariant

/-! The deadline of a call: the timeout passes through sealing, the message and possibly its
remarshalling, becomes a time when the call is made or when the connection is up, and stays as it is
until the call completes. -/

namespace Basu
open Lib
open Function

def busDefaultTimeout : UInt64 := 25000000

def sdBusGetMethodCallTimeout (stored : UInt64) (env : Option UInt64) : UInt64 :=
  if stored ≠ 0 then stored
  else match env with
    | some usec => if usec ≠ 0 then usec else busDefaultTimeout
    | none => busDefaultTimeout

/-- `bus_message_remarshal`, on the timeout: the copy is sealed with that of the message, or with
the default. -/
def remarshalTimeout (fallback : UInt64) (noReply : Bool) (timeout : UInt64) : UInt64 :=
  let timeout := if timeout = 0 ∧ noReply = false then fallback else timeout
  if noReply then 0 else timeout

/-- A message that does not have the version or the byte order of the bus is copied behind
`bus_seal_message`, here a sealed one: the copy of a fresh one has the same timeout. -/
def AsyncCall.remarshal (a : AsyncCall) (fallback : UInt64) : AsyncCall :=
  { a with message := match a.message with
    | .draft noReply => .draft noReply
    | .sealed noReply cookie timeout =>
      .sealed noReply cookie (remarshalTimeout fallback noReply timeout) }

def AsyncCall.wanted (a : AsyncCall) (fallback : UInt64) : UInt64 :=
  if a.usec = 0 then fallback else a.usec

def AsyncCall.given (a : AsyncCall) (fallback : UInt64) : UInt64 :=
  match a.message with
  | .draft noReply => if noReply then 0 else a.wanted fallback
  | .sealed _ _ timeout => timeout

def sealRemarshalled (b : ReplyBus) (a : AsyncCall) : Option (Nat × UInt64) × Nat :=
  let noReply := match a.message with
    | .draft noReply => noReply || (!a.callback && !a.slot)
    | .sealed noReply .. => noReply
  ((sealCall b a).1.map fun p => (p.1, remarshalTimeout b.methodCallTimeout noReply p.2),
    (sealCall b a).2)

theorem sealCall_given {b : ReplyBus} {a : AsyncCall} (hcallback : a.callback = true)
    {cookie : Nat} {timeout : UInt64} (h : (sealCall b a).1 = some (cookie, timeout)) :
    timeout = a.given b.methodCallTimeout := by
  obtain ⟨slot, callback, message, usec, hasFds, now⟩ := a
  obtain rfl : callback = true := hcallback
  unfold sealCall at h
  unfold AsyncCall.given
  cases message with
  | sealed noReply cookie' timeout' => exact (Prod.mk.inj (Option.some.inj h)).2.symm
  | draft noReply =>
    dsimp only at h ⊢
    by_cases hcookie : uint32Max < (b.cookie + 1) % 2 ^ 64
    · rw [if_pos hcookie] at h
      exact nomatch h
    · rw [if_neg hcookie] at h
      rw [← (Prod.mk.inj (Option.some.inj h)).2, Bool.not_true, Bool.false_and, Bool.or_false]
      rfl

def Steady (b b' : ReplyBus) : Prop :=
  ∀ id, (b'.slots id).connected = true → SameSlot (b.slots id) (b'.slots id)

theorem SameSlot.trans {s s' s'' : ReplySlot} (h : SameSlot s s') (h' : SameSlot s' s'') :
    SameSlot s s'' :=
  ⟨h'.connected.trans h.connected, h'.cookie.trans h.cookie, h'.timeoutUsec.trans h.timeoutUsec,
    h'.asked.trans h.asked, h'.began.trans h.began⟩

theorem steady_slotRel : SlotRel Steady where
  refl _ _ _ := SameSlot.refl _
  trans h h' id hc :=
    have hs := h' id hc
    (h id (hs.connected ▸ hc)).trans hs
  frames _ _ _ _ := SameSlot.refl _
  setSlot hs j _ := by
    simp only [ReplyBus.setSlot, update_apply]
    split
    · rename_i hj
      rw [hj]
      exact hs
    · exact SameSlot.refl _
  detach b id j hc := by
    by_cases hid : (b.slots id).connected = true
    · rw [slotDetach_eq hid] at hc ⊢
      simp only [ReplyBus.without, update_apply] at hc ⊢
      by_cases hj : j = id
      · rw [if_pos hj] at hc
        exact absurd hc (by simp)
      · rw [if_neg hj]
        exact SameSlot.refl _
    · have hkeep : slotDetach b id = b := if_pos (Bool.not_eq_true _ ▸ hid)
      rw [hkeep]
      exact SameSlot.refl _

def ReplySlot.Waits (s : ReplySlot) : Prop := s.connected = true ∧ s.cookie ≠ 0

instance (s : ReplySlot) : Decidable s.Waits :=
  inferInstanceAs (Decidable (s.connected = true ∧ s.cookie ≠ 0))

def ReplyOp.Starts (b : ReplyBus) (op : ReplyOp) : Prop :=
  match op with
  | .startRunning _ _ => b.mayProcess ∧ (b.state = .opening ∨ b.state = .authenticating)
  | _ => False

def BusState.isUp : BusState → Bool
  | .unset | .opening | .authenticating => false
  | .hello | .running | .closing | .closed => true

structure Stays (b b' : ReplyBus) : Prop where
  nSlots : b.nSlots ≤ b'.nSlots
  isUp : b.state.isUp = true → b'.state.isUp = true
  slots : ∀ id < b.nSlots, (b'.slots id).Waits →
    (b.slots id).Waits ∧ (b'.slots id).timeoutUsec = (b.slots id).timeoutUsec

theorem Stays.refl (b : ReplyBus) : Stays b b :=
  ⟨le_rfl, fun h => h, fun _ _ h => ⟨h, rfl⟩⟩

theorem Stays.trans {b b' b'' : ReplyBus} (h : Stays b b') (h' : Stays b' b'') : Stays b b'' := by
  refine ⟨h.nSlots.trans h'.nSlots, fun hup => h'.isUp (h.isUp hup), fun id hid hw => ?_⟩
  obtain ⟨hw', ht'⟩ := h'.slots id (hid.trans_le h.nSlots) hw
  obtain ⟨hw, ht⟩ := h.slots id hid hw'
  exact ⟨hw, ht'.trans ht⟩

section Step

variable {b b' : ReplyBus} {op : ReplyOp}

theorem Stays.of_slots (hn : b.nSlots ≤ b'.nSlots)
    (hup : b.state.isUp = true → b'.state.isUp = true) (hs : b'.slots = b.slots) : Stays b b' :=
  ⟨hn, hup, fun id _ hw => by
    rw [hs] at hw ⊢
    exact ⟨hw, rfl⟩⟩

theorem Stays.of_steady (hinv : RegistryInv b) (hk : Keeps b b') (hs : Steady b b') :
    Stays b b' := by
  obtain ⟨-, hcalm⟩ := hk hinv
  refine ⟨le_of_eq hcalm.nSlots.symm, fun hup => hcalm.state.symm ▸ hup, fun id _ hw => ?_⟩
  have hsame := hs id hw.1
  exact ⟨⟨hsame.connected ▸ hw.1, hsame.cookie ▸ hw.2⟩, hsame.timeoutUsec⟩

theorem Completes.stays {id : Nat} {completion : Completion} (h : Completes b b' id completion) :
    Stays b b' := by
  obtain ⟨-, -, rfl⟩ := h
  refine ⟨le_rfl, fun hup => hup, fun j _ hw => ?_⟩
  have hslot : (invoke (b.without id { b.slots id with cookie := 0, timeoutUsec := 0 }) id
      completion).slots j =
      if j = id then { b.slots id with
        cookie := 0, timeoutUsec := 0, nRef := (b.slots id).nRef + 1 } else b.slots j := by
    simp only [invoke, ReplyBus.setSlot, ReplyBus.without, update_self, update_idem, update_apply]
  rw [hslot] at hw ⊢
  by_cases hj : j = id
  · rw [if_pos hj] at hw
    exact absurd rfl hw.2
  · rw [if_neg hj] at hw ⊢
    exact ⟨hw, rfl⟩

theorem exec_stays (hinv : RegistryInv b) (hsound : op.Sound b) (hstart : ¬ op.Starts b) :
    Stays b (op.exec b) := by
  have hkeep : ∀ {b' : ReplyBus}, Keeps b b' → Steady b b' → Stays b b' := Stays.of_steady hinv
  have hK := keeps_slotRel
  have hS := steady_slotRel
  cases op with
  | opening =>
    simp only [ReplyOp.exec]
    split
    · rename_i hst
      exact .of_slots le_rfl (fun hup => absurd hup (by rw [hst]; decide)) rfl
    · exact .refl b
  | authenticating =>
    simp only [ReplyOp.exec]
    split
    · rename_i hst
      exact .of_slots le_rfl (fun hup => absurd hup (by rw [hst]; decide)) rfl
    · exact .refl b
  | startRunning now canFds =>
    have hidle : ReplyOp.exec b (.startRunning now canFds) = b := if_neg hstart
    rw [hidle]
    exact .refl b
  | helloDone =>
    simp only [ReplyOp.exec]
    split
    · exact .of_slots le_rfl (fun _ => rfl) rfl
    · exact .refl b
  | enterClosing =>
    refine .of_slots le_rfl (fun hup => ?_) rfl
    revert hup
    simp only [ReplyOp.exec]
    cases b.state <;> decide
  | close => exact .of_slots le_rfl (fun _ => rfl) rfl
  | send cookie => exact .of_slots le_rfl (fun hup => hup) rfl
  | callAsync a =>
    simp only [ReplyOp.exec]
    split
    · rcases sdBusCallAsync_cases b a with ⟨frames, cookie, n, hn, hb⟩ |
        ⟨cookie, timeout, frames, last, -, -, -, hb⟩
      · rw [hb]
        exact .of_slots hn (fun hup => hup) rfl
      · rw [hb]
        obtain ⟨hst, -, hn, -⟩ := register_state { b with cookie := last } a cookie timeout
        refine ⟨(Nat.le_succ _).trans_eq hn.symm, fun hup => hst.symm ▸ hup, fun id hid hw => ?_⟩
        simp only [register_slots, update_of_ne (ne_of_lt hid)] at hw ⊢
        exact ⟨hw, trivial⟩
    · exact .refl b
  | sendDone ok => exact hkeep (hK.sendDone hsound) (hS.sendDone hsound)
  | reply cookie hasFds =>
    simp only [ReplyOp.exec]
    split
    · rcases processReply_completes hinv cookie hasFds with hb | ⟨id, hb⟩
      · rw [hb]
        exact .refl b
      · exact hb.stays
    · exact .refl b
  | timeout now =>
    simp only [ReplyOp.exec]
    split
    · rcases processTimeout_completes hinv now with hb | ⟨id, hb⟩
      · rw [hb]
        exact .refl b
      · exact hb.stays
    · exact .refl b
  | closing =>
    simp only [ReplyOp.exec]
    split
    · rcases processClosing_completes hinv with hb | ⟨id, hb⟩
      · rw [hb]
        exact .of_slots le_rfl (fun _ => rfl) rfl
      · exact hb.stays
    · exact .refl b
  | callbackDone => exact hkeep (hK.callbackDone b) (hS.callbackDone b)
  | slotRef id =>
    simp only [ReplyOp.exec]
    split <;> [exact hkeep (hK.ref b id) (hS.ref b id); exact .refl b]
  | slotUnref id =>
    simp only [ReplyOp.exec]
    split <;> [exact hkeep (hK.unref b id) (hS.unref b id); exact .refl b]
  | setFloating id floating =>
    simp only [ReplyOp.exec]
    split <;> [exact hkeep (hK.setFloating b id floating) (hS.setFloating b id floating);
      exact .refl b]
  | disconnect id =>
    simp only [ReplyOp.exec]
    split <;> [exact hkeep (hK.disconnect b id) (hS.disconnect b id); exact .refl b]

theorem Starts.isUp {now : UInt64} {canFds : Bool}
    (h : (ReplyOp.startRunning now canFds).Starts b) :
    ((ReplyOp.startRunning now canFds).exec b).state.isUp = true := by
  have hexec : (ReplyOp.startRunning now canFds).exec b = busStartRunning b now canFds := if_pos h
  rw [hexec, busStartRunning]
  cases b.busClient <;> rfl

theorem Starts.not_isUp (h : op.Starts b) : b.state.isUp = false := by
  cases op with
  | startRunning now canFds =>
    obtain ⟨-, hst | hst⟩ := h
    · rw [hst]
      rfl
    · rw [hst]
      rfl
  | _ => exact absurd h id

end Step

theorem RunAll.append {P : ReplyBus → ReplyOp → Prop} {ops ops' : List ReplyOp} :
    ∀ {b : ReplyBus},
      RunAll P b (ops ++ ops') ↔ RunAll P b ops ∧ RunAll P (replyRun b ops) ops' := by
  induction ops with
  | nil => exact fun {b} => ⟨fun h => ⟨trivial, h⟩, fun h => h.2⟩
  | cons op ops ih =>
    intro b
    exact (and_congr_right fun _ => ih).trans and_assoc.symm

theorem replyRun_registryInv {b : ReplyBus} (h : RegistryInv b) (ops : List ReplyOp)
    (hops : RunAll (fun b op => op.Sound b) b ops) : RegistryInv (replyRun b ops) :=
  RunAll.invariant (fun _ _ hI hP => exec_registryInv hI hP) ops h hops

theorem replyRun_stays (ops : List ReplyOp) : ∀ {b : ReplyBus}, RegistryInv b →
    RunAll (fun b op => op.Sound b) b ops →
    b.state.isUp = true ∨ (replyRun b ops).state.isUp = false → Stays b (replyRun b ops) := by
  induction ops with
  | nil => exact fun {b} _ _ _ => .refl b
  | cons op ops ih =>
    intro b hinv hops hup
    have hinv' := exec_registryInv hinv hops.1
    by_cases hstart : op.Starts b
    · have hlast := hup.resolve_left (by rw [Starts.not_isUp hstart]; exact Bool.false_ne_true)
      have hnow : (op.exec b).state.isUp = true := by
        cases op with
        | startRunning now canFds => exact Starts.isUp hstart
        | _ => exact absurd hstart id
      have hstay := ih hinv' hops.2 (.inl hnow)
      exact nomatch (hstay.isUp hnow).symm.trans hlast
    · have hstep := exec_stays hinv hops.1 hstart
      refine hstep.trans (ih hinv' hops.2 ?_)
      rcases hup with hup | hup
      · exact .inl (hstep.isUp hup)
      · exact .inr hup

/-- A call has no deadline exactly if it asks for none, and otherwise the sum of the time it starts
at and of what it asks for, which stops at the end of the clock. -/
def DeadlineLaw (timeoutUsec start usec : UInt64) : Prop :=
  (timeoutUsec = 0 ↔ usec = usecInfinity) ∧
    (usec ≠ usecInfinity → timeoutUsec.toNat = min (start.toNat + usec.toNat) (2 ^ 64 - 1))

/-- On a connection that is up the message has the timeout asked for, and the sum does not overflow;
or the sums come to the same all the same. -/
def AgreesNow (now given usec : UInt64) : Prop :=
  if usec = usecInfinity then given = usecInfinity ∨ now + given = 0
  else given ≠ usecInfinity ∧ now + given ≠ 0 ∧ now.toNat + given.toNat < 2 ^ 64 ∧
    (given = usec ∨ now.toNat + given.toNat = 2 ^ 64 - 1 ∧ given ≤ usec)

def AgreesLater (now given usec : UInt64) : Prop :=
  if usec = usecInfinity then given = usecInfinity ∨ given = 0
  else given ≠ usecInfinity ∧ given ≠ 0 ∧
    (given = usec ∨ 2 ^ 64 - 1 ≤ now.toNat + given.toNat ∧ 2 ^ 64 - 1 ≤ now.toNat + usec.toNat)

theorem deadlineLaw_infinity {timeoutUsec start usec : UInt64} (h : usec = usecInfinity) :
    DeadlineLaw timeoutUsec start usec ↔ timeoutUsec = 0 :=
  ⟨fun hl => hl.1.mpr h, fun h0 => ⟨iff_of_true h0 h, fun hne => absurd h hne⟩⟩

theorem deadlineLaw_finite {timeoutUsec start usec : UInt64} (h : usec ≠ usecInfinity) :
    DeadlineLaw timeoutUsec start usec ↔ timeoutUsec ≠ 0 ∧
      timeoutUsec.toNat = min (start.toNat + usec.toNat) (2 ^ 64 - 1) :=
  ⟨fun hl => ⟨fun h0 => h (hl.1.mp h0), hl.2 h⟩, fun hl => ⟨iff_of_false hl.1 h, fun _ => hl.2⟩⟩

theorem toNat_lt_of_ne_infinity {a : UInt64} (h : a ≠ usecInfinity) : a.toNat < 2 ^ 64 - 1 := by
  have hinf : usecInfinity.toNat = 2 ^ 64 - 1 := rfl
  have hne : a.toNat ≠ usecInfinity.toNat := fun heq => h (UInt64.toNat_inj.mp heq)
  have := a.toNat_lt
  omega

theorem deadlineLaw_now (now given usec : UInt64) :
    DeadlineLaw (if given = usecInfinity then 0 else now + given) now usec ↔
      AgreesNow now given usec := by
  unfold AgreesNow
  by_cases hu : usec = usecInfinity
  · rw [deadlineLaw_infinity hu, if_pos hu]
    by_cases hg : given = usecInfinity
    · rw [if_pos hg]
      exact iff_of_true rfl (.inl hg)
    · rw [if_neg hg]
      exact (or_iff_right hg).symm
  · rw [deadlineLaw_finite hu, if_neg hu]
    by_cases hg : given = usecInfinity
    · rw [if_pos hg]
      exact iff_of_false (fun h => h.1 rfl) fun h => h.1 hg
    · rw [if_neg hg, and_iff_right hg]
      refine and_congr_right fun _ => ?_
      have hlt := toNat_lt_of_ne_infinity hg
      have hnow := now.toNat_lt
      have heq : given = usec ↔ given.toNat = usec.toNat := UInt64.toNat_inj.symm
      rw [UInt64.toNat_add, heq, UInt64.le_iff_toNat_le]
      -- a sum that has wrapped is below the time it starts from
      omega

theorem deadlineLaw_later (now given usec : UInt64) :
    DeadlineLaw (if given = usecInfinity ∨ given = 0 then 0 else usecAdd now given) now usec ↔
      AgreesLater now given usec := by
  unfold AgreesLater
  by_cases hu : usec = usecInfinity
  · rw [deadlineLaw_infinity hu, if_pos hu]
    by_cases hg : given = usecInfinity ∨ given = 0
    · rw [if_pos hg]
      exact iff_of_true rfl hg
    · rw [if_neg hg]
      rw [not_or] at hg
      exact iff_of_false (usecAdd_ne_zero now hg.2) fun h => h.elim hg.1 hg.2
  · rw [deadlineLaw_finite hu, if_neg hu]
    by_cases hg : given = usecInfinity ∨ given = 0
    · rw [if_pos hg]
      exact iff_of_false (fun h => h.1 rfl) fun h => hg.elim h.1 h.2.1
    · rw [if_neg hg]
      rw [not_or] at hg
      have heq : given = usec ↔ given.toNat = usec.toNat := UInt64.toNat_inj.symm
      rw [and_iff_right (usecAdd_ne_zero now hg.2), and_iff_right hg.1, and_iff_right hg.2,
        usecAdd_toNat, heq]
      have hlt := toNat_lt_of_ne_infinity hg.1
      have hu' := toNat_lt_of_ne_infinity hu
      omega

def AsyncCall.sent (a : AsyncCall) (b : ReplyBus) (remarshals : Bool) : AsyncCall :=
  if remarshals then a.remarshal b.methodCallTimeout else a

theorem start_timeoutUsec (now : UInt64) (s : ReplySlot) :
    (s.start now).timeoutUsec = if s.timeoutUsec = 0 then 0 else usecAdd now s.timeoutUsec := by
  unfold ReplySlot.start
  by_cases h : s.timeoutUsec = 0
  · rw [if_pos h, if_pos h, h]
  · rw [if_neg h, if_neg h]

theorem callAsync_slot {b : ReplyBus} {a : AsyncCall} (hinv : RegistryInv b)
    (hcallback : a.callback = true)
    (hmade : (((ReplyOp.callAsync a).exec b).slots b.nSlots).Waits) :
    b.nSlots < ((ReplyOp.callAsync a).exec b).nSlots ∧ b.state.isOpen = true ∧
      ((ReplyOp.callAsync a).exec b).state = b.state ∧
      (((ReplyOp.callAsync a).exec b).slots b.nSlots).timeoutUsec =
        calcElapse b.state a.now (a.given b.methodCallTimeout) := by
  have hfree : ¬ (b.slots b.nSlots).connected = true :=
    fun hc => absurd (hinv.bound _ hc) (Nat.lt_irrefl _)
  simp only [ReplyOp.exec] at hmade ⊢
  by_cases hmay : b.mayCall = true
  · rw [if_pos hmay] at hmade ⊢
    rcases sdBusCallAsync_cases b a with ⟨frames, cookie, n, hn, hb⟩ |
      ⟨cookie, timeout, frames, last, hseal, hopen, -, hb⟩
    · rw [hb] at hmade
      exact absurd hmade.1 hfree
    · obtain ⟨hst, -, hn, -⟩ := register_state { b with cookie := last } a cookie timeout
      rw [hb]
      refine ⟨(Nat.lt_succ_self _).trans_eq hn.symm, hopen, hst, ?_⟩
      simp only [register_slots, update_self, AsyncCall.newSlot]
      rw [sealCall_given hcallback hseal]
  · rw [if_neg hmay] at hmade
    exact absurd hmade.1 hfree

/-- Whatever happens between: a call that waits has the deadline it asked for, from the time it was
made or from the time the connection was up, exactly if its message carries the timeout asked for
and the sum of a call made later does not overflow. -/
theorem sdBusCallAsync_deadline (b₀ : ReplyBus) (ops₁ ops₂ : List ReplyOp) (a : AsyncCall)
    (remarshals : Bool) (hcallback : a.callback = true) :
    let b := replyRun b₀.fresh ops₁
    let call := ReplyOp.callAsync (a.sent b remarshals)
    RunAll (fun b op => op.Sound b) b₀.fresh (ops₁ ++ call :: ops₂) →
    ((call.exec b).slots b.nSlots).Waits →
    ((replyRun (call.exec b) ops₂).slots b.nSlots).Waits →
    let timeoutUsec := ((replyRun (call.exec b) ops₂).slots b.nSlots).timeoutUsec
    let usec := a.wanted b.methodCallTimeout
    let given := (a.sent b remarshals).given b.methodCallTimeout
    (b.state.isUp = true →
      (DeadlineLaw timeoutUsec a.now usec ↔ AgreesNow a.now given usec)) ∧
    ∀ before now canFds after, ops₂ = before ++ .startRunning now canFds :: after →
      (ReplyOp.startRunning now canFds).Starts (replyRun (call.exec b) before) →
      (DeadlineLaw timeoutUsec now usec ↔ AgreesLater now given usec) := by
  intro b call hops hmade hwaits
  have hinv₀ := fresh_registryInv b₀
  obtain ⟨hops₁, hops₂⟩ := RunAll.append.mp hops
  have hinv : RegistryInv b := replyRun_registryInv hinv₀ ops₁ hops₁
  have hinv' : RegistryInv (call.exec b) := exec_registryInv hinv hops₂.1
  have hnow : (a.sent b remarshals).now = a.now := by
    unfold AsyncCall.sent
    split <;> rfl
  have hcall : (a.sent b remarshals).callback = true := by
    unfold AsyncCall.sent
    split <;> exact hcallback
  obtain ⟨hlt, hopen, hst, htime⟩ := callAsync_slot hinv hcall hmade
  rw [hnow] at htime
  constructor
  · intro hup
    have hstay := replyRun_stays ops₂ hinv' hops₂.2 (.inl (hst.symm ▸ hup))
    have hsetup : ¬ (b.state = .opening ∨ b.state = .authenticating) := by
      rintro (h | h) <;> exact absurd hup (by rw [h]; decide)
    rw [(hstay.slots _ hlt hwaits).2, htime, calcElapse, if_neg hsetup]
    exact deadlineLaw_now _ _ _
  · rintro before now canFds after rfl hstart
    obtain ⟨hbefore, hsound, hafter⟩ := RunAll.append.mp hops₂.2
    have hrun : replyRun (call.exec b) (before ++ .startRunning now canFds :: after) =
        replyRun ((ReplyOp.startRunning now canFds).exec (replyRun (call.exec b) before)) after :=
      List.foldl_append
    have hdown := Starts.not_isUp hstart
    have hinv₂ := replyRun_registryInv hinv' before hbefore
    have hstay := replyRun_stays before hinv' hbefore (.inr hdown)
    have hexec : (ReplyOp.startRunning now canFds).exec (replyRun (call.exec b) before) =
        busStartRunning (replyRun (call.exec b) before) now canFds := if_pos hstart
    have hstay' := replyRun_stays after (exec_registryInv hinv₂ hsound) hafter
      (.inl (Starts.isUp hstart))
    rw [hrun] at hwaits ⊢
    obtain ⟨hw', ht'⟩ := hstay'.slots b.nSlots (by
      rw [hexec]
      exact hlt.trans_le hstay.nSlots) hwaits
    -- the start has turned the timeout into a time
    rw [hexec] at hw' ht'
    have hc := busStartRunning_connected hinv₂ now canFds b.nSlots ▸ hw'.1
    rw [busStartRunning_slots hinv₂ now canFds hc] at hw' ht'
    have hw : ((replyRun (call.exec b) before).slots b.nSlots).Waits :=
      ⟨hc, (start_sameSlot now _).2.1 ▸ hw'.2⟩
    have hkept := (hstay.slots _ hlt hw).2
    have hsetup : b.state = .opening ∨ b.state = .authenticating := by
      have hdown' : ¬ b.state.isUp = true := fun hup =>
        absurd (hstay.isUp (hst.symm ▸ hup)) (by rw [hdown]; exact Bool.false_ne_true)
      revert hdown' hopen
      cases b.state <;> decide
    rw [hexec, ht', start_timeoutUsec, hkept, htime, calcElapse, if_pos hsetup,
      ← deadlineLaw_later]
    generalize (a.sent b remarshals).given b.methodCallTimeout = given
    by_cases hinf : given = usecInfinity
    · rw [if_pos hinf, if_pos rfl, if_pos (Or.inl hinf)]
    · rw [if_neg hinf]
      simp only [hinf, false_or]

theorem sdBusCallAsync_deadline_later :
    let b : ReplyBus := {}
    let ops : List ReplyOp := [.sendDone true, .authenticating, .startRunning 200 false]
    DeadlineLaw ((replyRun ((ReplyOp.callAsync (slotCall (.draft false) false)).exec
      (replyRun b.fresh [.opening])) ops).slots 0).timeoutUsec 200 5 := by
  intro b ops
  have hagrees : AgreesLater 200 5 5 := by
    rw [AgreesLater, if_neg (by decide)]
    decide
  refine ((sdBusCallAsync_deadline b [.opening] ops (slotCall (.draft false) false) false rfl
    ⟨trivial, ?_, ?_, trivial, trivial, trivial⟩ (by decide +kernel) (by decide +kernel)).2
    [.sendDone true, .authenticating] 200 false [] rfl
    ⟨by decide +kernel, .inr (by decide +kernel)⟩).mpr hagrees
  · intro cookie timeout hseal
    obtain ⟨rfl, -⟩ := Prod.mk.inj (Option.some.inj hseal)
    decide +kernel
  · intro _ id cookie waits frames hframes
    obtain ⟨h1, -⟩ := List.cons.inj hframes
    obtain ⟨hid, rfl, -⟩ := CallFrame.sending.inj h1
    obtain rfl := Option.some.inj hid
    decide +kernel

/-- A received call that is forwarded with a timeout of 5 us: it carries the timeout 0, so it times
out at once when the connection is up, and never when it is not up yet. -/
theorem not_sdBusCallAsync_deadline :
    let b : ReplyBus := {}
    let call := ReplyOp.callAsync (slotCall (.sealed false 7 0) false)
    ¬ DeadlineLaw ((replyRun b.fresh [.opening, .authenticating, .startRunning 50 false, .helloDone,
        call, .sendDone true]).slots 0).timeoutUsec 100 5 ∧
      ¬ DeadlineLaw ((replyRun b.fresh [.opening, call, .sendDone true, .authenticating,
        .startRunning 200 false]).slots 0).timeoutUsec 200 5 := by
  refine ⟨?_, ?_⟩
  · rintro ⟨-, h⟩
    exact absurd (h (by decide)) (by decide +kernel)
  · rintro ⟨h, -⟩
    exact absurd (h.mp (by decide +kernel)) (by decide)

end Basu
