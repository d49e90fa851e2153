import Basu.Reply.Registry
import Mathlib.Data.List.Nodup

/-! A slot is found by its cookie and by its timeout as long as it has one, and by nothing else;
all timeouts count from the same time. -/

namespace Basu
open Lib
open Function

/-! ## Comparing timeouts -/

theorem cmpUsec_flip (a b : UInt64) : cmpUsec a b < 0 ↔ 0 < cmpUsec b a := by
  unfold cmpUsec
  by_cases h1 : a < b
  · rw [if_pos h1, if_neg (UInt64.lt_asymm h1), if_pos h1]
    decide
  · rw [if_neg h1]
    by_cases h2 : b < a
    · rw [if_pos h2, if_pos h2]
      decide
    · rw [if_neg h2, if_neg h2, if_neg h1]

theorem cmpUsec_le_iff (a b : UInt64) : cmpUsec a b ≤ 0 ↔ a ≤ b := by
  unfold cmpUsec
  by_cases h1 : a < b
  · rw [if_pos h1]
    exact ⟨fun _ => UInt64.le_of_lt h1, fun _ => by decide⟩
  · rw [if_neg h1]
    by_cases h2 : b < a
    · rw [if_pos h2]
      exact ⟨fun h => absurd h (by decide), fun h => absurd h (UInt64.not_le.mpr h2)⟩
    · rw [if_neg h2]
      exact ⟨fun _ => UInt64.not_lt.mp h2, fun _ => le_rfl⟩

theorem timeoutCompare_le_iff (slots : Nat → ReplySlot) (x y : Nat) :
    timeoutCompare slots x y ≤ 0 ↔
      (slots y).timeoutUsec = 0 ∨
        (slots x).timeoutUsec ≠ 0 ∧ (slots x).timeoutUsec ≤ (slots y).timeoutUsec := by
  unfold timeoutCompare
  simp only
  by_cases hx : (slots x).timeoutUsec = 0
  · by_cases hy : (slots y).timeoutUsec = 0
    · simp [hx, hy, cmpUsec]
    · simp [hx, hy]
  · by_cases hy : (slots y).timeoutUsec = 0
    · simp [hx, hy]
    · simp [hx, hy, cmpUsec_le_iff]

theorem timeoutCompare_isCompare (slots : Nat → ReplySlot) :
    Prioq.IsCompare (timeoutCompare slots) := by
  constructor
  · intro x y
    unfold timeoutCompare
    simp only
    by_cases hx : (slots x).timeoutUsec = 0
    · by_cases hy : (slots y).timeoutUsec = 0
      · simp [hx, hy, cmpUsec]
      · simp [hx, hy]
    · by_cases hy : (slots y).timeoutUsec = 0
      · simp [hx, hy]
      · simp [hx, hy, cmpUsec_flip]
  · intro x y z hxy hyz
    rw [timeoutCompare_le_iff] at hxy hyz ⊢
    rcases hyz with hz | ⟨hy, hyz⟩
    · exact Or.inl hz
    · rcases hxy with hy' | ⟨hx, hxy⟩
      · exact absurd hy' hy
      · exact Or.inr ⟨hx, UInt64.le_trans hxy hyz⟩

theorem timeoutCompare_congr {slots slots' : Nat → ReplySlot} {x y : Nat}
    (hx : (slots' x).timeoutUsec = (slots x).timeoutUsec)
    (hy : (slots' y).timeoutUsec = (slots y).timeoutUsec) :
    timeoutCompare slots' x y = timeoutCompare slots x y := by
  simp only [timeoutCompare, hx, hy]

theorem usecAdd_toNat (a b : UInt64) : (usecAdd a b).toNat = min (a.toNat + b.toNat) (2 ^ 64 - 1) := by
  have ha := a.toNat_lt
  have hb := b.toNat_lt
  unfold usecAdd
  split
  · rename_i h
    rw [UInt64.lt_iff_toNat_lt, UInt64.lt_iff_toNat_lt, UInt64.toNat_add] at h
    change 2 ^ 64 - 1 = _
    omega
  · rename_i h
    rw [UInt64.lt_iff_toNat_lt, UInt64.lt_iff_toNat_lt, UInt64.toNat_add] at h
    rw [UInt64.toNat_add]
    omega

theorem usecAdd_le {a b : UInt64} (n : UInt64) (h : a ≤ b) : usecAdd n a ≤ usecAdd n b := by
  rw [UInt64.le_iff_toNat_le] at h ⊢
  rw [usecAdd_toNat, usecAdd_toNat]
  omega

theorem usecAdd_ne_zero {a : UInt64} (n : UInt64) (h : a ≠ 0) : usecAdd n a ≠ 0 := by
  intro h0
  have hsum := usecAdd_toNat n a
  rw [h0] at hsum
  refine h (UInt64.toNat_inj.mp ?_)
  have hzero : (0 : UInt64).toNat = 0 := rfl
  rw [hzero] at hsum ⊢
  omega

structure RegistryInv (b : ReplyBus) : Prop where
  keys : (b.replyCallbacks.map Prod.fst).Nodup
  stored : ∀ k id, (k, id) ∈ b.replyCallbacks →
    (b.slots id).connected = true ∧ (b.slots id).cookie = k ∧ k ≠ 0
  found : ∀ id, (b.slots id).connected = true → (b.slots id).cookie ≠ 0 →
    ((b.slots id).cookie, id) ∈ b.replyCallbacks
  queue : b.prioq.Valid (timeoutCompare b.slots)
  queued : ∀ id, b.prioq.Mem id ↔ (b.slots id).connected = true ∧ (b.slots id).timeoutUsec ≠ 0
  waiting : ∀ id, (b.slots id).connected = true → (b.slots id).timeoutUsec ≠ 0 →
    (b.slots id).cookie ≠ 0
  bound : ∀ id, (b.slots id).connected = true → id < b.nSlots

structure SameSlot (s s' : ReplySlot) : Prop where
  connected : s'.connected = s.connected
  cookie : s'.cookie = s.cookie
  timeoutUsec : s'.timeoutUsec = s.timeoutUsec
  asked : s'.asked = s.asked
  began : s'.began = s.began

theorem SameSlot.refl (s : ReplySlot) : SameSlot s s := ⟨rfl, rfl, rfl, rfl, rfl⟩

def CalmSlots (slots slots' : Nat → ReplySlot) : Prop :=
  ∀ id, (slots' id).connected = true → (slots id).connected = true ∧
    ((slots' id).cookie = (slots id).cookie ∨ (slots' id).cookie = 0) ∧
    ((slots' id).timeoutUsec = (slots id).timeoutUsec ∧
      (slots' id).asked = (slots id).asked ∧ (slots' id).began = (slots id).began ∨
      (slots' id).timeoutUsec = 0)

theorem CalmSlots.refl (slots : Nat → ReplySlot) : CalmSlots slots slots :=
  fun _ h => ⟨h, Or.inl rfl, Or.inl ⟨rfl, rfl, rfl⟩⟩

structure Calms (b b' : ReplyBus) : Prop where
  nSlots : b'.nSlots = b.nSlots
  slots : CalmSlots b.slots b'.slots
  invoked : b'.invoked = b.invoked
  state : b'.state = b.state
  started : b'.started = b.started
  fds : b'.acceptFd = b.acceptFd ∧ b'.canFds = b.canFds

theorem Calms.refl (b : ReplyBus) : Calms b b :=
  ⟨rfl, CalmSlots.refl _, rfl, rfl, rfl, rfl, rfl⟩

theorem Calms.trans {b b' b'' : ReplyBus} (h : Calms b b') (h' : Calms b' b'') : Calms b b'' := by
  refine ⟨h'.nSlots.trans h.nSlots, fun id hid => ?_, h'.invoked.trans h.invoked,
    h'.state.trans h.state, h'.started.trans h.started, h'.fds.1.trans h.fds.1,
    h'.fds.2.trans h.fds.2⟩
  obtain ⟨hc', hk', ht'⟩ := h'.slots id hid
  obtain ⟨hc, hk, ht⟩ := h.slots id hc'
  refine ⟨hc, ?_, ?_⟩
  · rcases hk' with hk' | hk'
    · rw [hk']
      exact hk
    · exact Or.inr hk'
  · rcases ht' with ⟨h1, h2, h3⟩ | ht'
    · rw [h1, h2, h3]
      exact ht
    · exact Or.inr ht'

def Keeps (b b' : ReplyBus) : Prop := RegistryInv b → RegistryInv b' ∧ Calms b b'

theorem Keeps.refl (b : ReplyBus) : Keeps b b := fun h => ⟨h, Calms.refl b⟩

theorem Keeps.trans {b b' b'' : ReplyBus} (h : Keeps b b') (h' : Keeps b' b'') : Keeps b b'' :=
  fun hb => ⟨(h' (h hb).1).1, (h hb).2.trans (h' (h hb).1).2⟩

theorem RegistryInv.congr {b b' : ReplyBus} (h : RegistryInv b) (hn : b.nSlots ≤ b'.nSlots)
    (hm : b'.replyCallbacks = b.replyCallbacks) (hq : b'.prioq = b.prioq)
    (hs : ∀ id, SameSlot (b.slots id) (b'.slots id)) : RegistryInv b' := by
  refine ⟨by rw [hm]; exact h.keys, fun k id hk => ?_, fun id hc hk => ?_, ?_, fun id => ?_,
    fun id hc ht => ?_, fun id hc => ?_⟩
  · rw [hm] at hk
    rw [(hs id).connected, (hs id).cookie]
    exact h.stored k id hk
  · rw [(hs id).connected] at hc
    rw [(hs id).cookie] at hk ⊢
    rw [hm]
    exact h.found id hc hk
  · rw [hq]
    refine h.queue.congr fun x y _ _ hle => ?_
    rw [timeoutCompare_congr (hs x).timeoutUsec (hs y).timeoutUsec]
    exact hle
  · rw [hq, (hs id).connected, (hs id).timeoutUsec]
    exact h.queued id
  · rw [(hs id).connected] at hc
    rw [(hs id).timeoutUsec] at ht
    rw [(hs id).cookie]
    exact h.waiting id hc ht
  · rw [(hs id).connected] at hc
    exact lt_of_lt_of_le (h.bound id hc) hn

theorem RegistryInv.drop {b b' : ReplyBus} (h : RegistryInv b) (id : Nat)
    (hn : b'.nSlots = b.nSlots)
    (hsub : b'.replyCallbacks.Sublist b.replyCallbacks)
    (hm : ∀ e, e ∈ b'.replyCallbacks ↔ e ∈ b.replyCallbacks ∧ e.2 ≠ id)
    (hv : b'.prioq.Valid (timeoutCompare b.slots))
    (hq : ∀ y, b'.prioq.Mem y ↔ b.prioq.Mem y ∧ y ≠ id)
    (hs : ∀ j, j ≠ id → b'.slots j = b.slots j)
    (hid : (b'.slots id).connected = true →
      (b.slots id).connected = true ∧ (b'.slots id).cookie = 0 ∧ (b'.slots id).timeoutUsec = 0) :
    RegistryInv b' := by
  refine ⟨h.keys.sublist (hsub.map _), fun k j hk => ?_, fun j hc hk => ?_, ?_, fun j => ?_,
    fun j hc ht => ?_, fun j hc => ?_⟩
  · obtain ⟨hk, hne⟩ := (hm _).mp hk
    rw [hs j hne]
    exact h.stored k j hk
  · by_cases hj : j = id
    · rw [hj] at hc hk
      exact absurd (hid hc).2.1 hk
    · rw [hs j hj] at hc hk ⊢
      exact (hm _).mpr ⟨h.found j hc hk, hj⟩
  · refine hv.congr fun x y hx hy hle => ?_
    rw [timeoutCompare_congr (by rw [hs x ((hq x).mp hx).2]) (by rw [hs y ((hq y).mp hy).2])]
    exact hle
  · rw [hq]
    by_cases hj : j = id
    · rw [hj]
      refine ⟨fun hmem => absurd rfl hmem.2, fun hcon => absurd (hid hcon.1).2.2 hcon.2⟩
    · rw [hs j hj, h.queued j]
      exact ⟨fun hmem => hmem.1, fun hcon => ⟨hcon, hj⟩⟩
  · by_cases hj : j = id
    · rw [hj] at hc ht
      exact absurd (hid hc).2.2 ht
    · rw [hs j hj] at hc ht ⊢
      exact h.waiting j hc ht
  · rw [hn]
    by_cases hj : j = id
    · rw [hj] at hc ⊢
      exact h.bound id (hid hc).1
    · rw [hs j hj] at hc
      exact h.bound j hc

section Drop

variable {b : ReplyBus} {id : Nat}

theorem RegistryInv.key_unique (h : RegistryInv b) {k i j : Nat}
    (hi : (k, i) ∈ b.replyCallbacks) (hj : (k, j) ∈ b.replyCallbacks) : i = j :=
  (Prod.mk.inj (List.inj_on_of_nodup_map h.keys hi hj rfl)).2

theorem RegistryInv.mem_removeKey (h : RegistryInv b) (hc : (b.slots id).connected = true)
    (e : Nat × Nat) :
    e ∈ removeKey (b.slots id).cookie b.replyCallbacks ↔ e ∈ b.replyCallbacks ∧ e.2 ≠ id := by
  obtain ⟨k, j⟩ := e
  simp only [removeKey, List.mem_filter, decide_eq_true_eq]
  refine and_congr_right fun hmem => not_congr ?_
  obtain ⟨-, hcookie, hne⟩ := h.stored k j hmem
  constructor
  · rintro rfl
    exact h.key_unique hmem (h.found id hc hne)
  · rintro rfl
    exact hcookie.symm

theorem RegistryInv.mem_of_no_cookie (h : RegistryInv b) (h0 : (b.slots id).cookie = 0)
    (e : Nat × Nat) : e ∈ b.replyCallbacks ↔ e ∈ b.replyCallbacks ∧ e.2 ≠ id := by
  refine ⟨fun hmem => ⟨hmem, ?_⟩, fun hmem => hmem.1⟩
  rintro rfl
  obtain ⟨-, hcookie, hne⟩ := h.stored e.1 e.2 hmem
  exact hne (hcookie.symm.trans h0)

theorem RegistryInv.prioq_remove (h : RegistryInv b) (id : Nat) :
    (b.prioq.remove (timeoutCompare b.slots) id).Valid (timeoutCompare b.slots) ∧
      ∀ y, (b.prioq.remove (timeoutCompare b.slots) id).Mem y ↔ b.prioq.Mem y ∧ y ≠ id :=
  h.queue.remove (timeoutCompare_isCompare b.slots) id

theorem RegistryInv.mem_of_no_timeout (h : RegistryInv b) (h0 : (b.slots id).timeoutUsec = 0)
    (y : Nat) : b.prioq.Mem y ↔ b.prioq.Mem y ∧ y ≠ id := by
  refine ⟨fun hmem => ⟨hmem, ?_⟩, fun hmem => hmem.1⟩
  rintro rfl
  exact ((h.queued y).mp hmem).2 h0

/-- The hashmap and the queue without a slot, as all the code that drops one leaves them. -/
def ReplyBus.without (b : ReplyBus) (id : Nat) (s : ReplySlot) : ReplyBus :=
  { b with
    replyCallbacks := if (b.slots id).cookie ≠ 0 then removeKey (b.slots id).cookie b.replyCallbacks
      else b.replyCallbacks
    prioq := if (b.slots id).timeoutUsec ≠ 0 then b.prioq.remove (timeoutCompare b.slots) id
      else b.prioq
    slots := update b.slots id s }

theorem RegistryInv.without (h : RegistryInv b) (hc : (b.slots id).connected = true)
    {s : ReplySlot} (hs : s.connected = true → s.cookie = 0 ∧ s.timeoutUsec = 0) :
    RegistryInv (b.without id s) := by
  have hsub : (b.without id s).replyCallbacks.Sublist b.replyCallbacks := by
    simp only [ReplyBus.without]
    split
    · exact List.filter_sublist
    · exact List.Sublist.refl _
  refine h.drop id rfl hsub (fun e => ?_) ?_ (fun y => ?_) (fun j hj => update_of_ne hj _ _) ?_
  · simp only [ReplyBus.without]
    split
    · exact h.mem_removeKey hc e
    · rename_i h0
      exact h.mem_of_no_cookie (not_ne_iff.mp h0) e
  · simp only [ReplyBus.without]
    split
    · exact (h.prioq_remove id).1
    · exact h.queue
  · simp only [ReplyBus.without]
    split
    · exact (h.prioq_remove id).2 y
    · rename_i h0
      exact h.mem_of_no_timeout (not_ne_iff.mp h0) y
  · have hslot : (b.without id s).slots id = s := update_self _ _ _
    rw [hslot]
    exact fun hcon => ⟨hc, hs hcon⟩

theorem calmSlots_update {slots : Nat → ReplySlot} {s : ReplySlot}
    (hs : s.connected = true → (slots id).connected = true ∧
      (s.cookie = (slots id).cookie ∨ s.cookie = 0) ∧
      (s.timeoutUsec = (slots id).timeoutUsec ∧ s.asked = (slots id).asked ∧
        s.began = (slots id).began ∨ s.timeoutUsec = 0)) : CalmSlots slots (update slots id s) := by
  intro j hj
  rw [update_apply] at hj ⊢
  by_cases hji : j = id
  · rw [if_pos hji] at hj ⊢
    rw [hji]
    exact hs hj
  · rw [if_neg hji] at hj ⊢
    exact ⟨hj, Or.inl rfl, Or.inl ⟨rfl, rfl, rfl⟩⟩

end Drop

theorem slotDetach_eq {b : ReplyBus} {id : Nat} (hc : (b.slots id).connected = true) :
    slotDetach b id = b.without id { b.slots id with connected := false } := by
  unfold slotDetach ReplyBus.without ReplyBus.setSlot ReplyBus.prioqRemove
  simp only [hc, Bool.true_eq_false, if_false]
  split <;> split <;> rfl

theorem keeps_slotDetach (b : ReplyBus) (id : Nat) : Keeps b (slotDetach b id) := by
  intro h
  by_cases hc : (b.slots id).connected = true
  · rw [slotDetach_eq hc]
    exact ⟨h.without hc fun hcon => absurd hcon (by simp),
      ⟨rfl, calmSlots_update fun hcon => absurd hcon (by simp), rfl, rfl, rfl, rfl, rfl⟩⟩
  · have hkeep : slotDetach b id = b := by
      rw [slotDetach]
      exact if_pos (Bool.not_eq_true _ ▸ hc)
    rw [hkeep]
    exact Keeps.refl b h

theorem keeps_setSlot {b : ReplyBus} {id : Nat} {s : ReplySlot} (hs : SameSlot (b.slots id) s) :
    Keeps b (b.setSlot id s) := by
  intro h
  refine ⟨h.congr le_rfl rfl rfl fun j => ?_,
    ⟨rfl, calmSlots_update fun hcon => ?_, rfl, rfl, rfl, rfl, rfl⟩⟩
  · simp only [ReplyBus.setSlot, update_apply]
    split
    · rename_i hj
      rw [hj]
      exact hs
    · exact SameSlot.refl _
  · exact ⟨hs.connected ▸ hcon, Or.inl hs.cookie, Or.inl ⟨hs.timeoutUsec, hs.asked, hs.began⟩⟩

theorem keeps_frames (b : ReplyBus) (frames : List CallFrame) :
    Keeps b { b with frames := frames } :=
  fun h => ⟨h.congr le_rfl rfl rfl fun _ => SameSlot.refl _,
    ⟨rfl, CalmSlots.refl _, rfl, rfl, rfl, rfl, rfl⟩⟩

/-- A relation between a bus and what comes of it, as references to slots are taken and dropped. -/
structure SlotRel (R : ReplyBus → ReplyBus → Prop) : Prop where
  refl : ∀ b, R b b
  trans : ∀ {b b' b''}, R b b' → R b' b'' → R b b''
  frames : ∀ b frames, R b { b with frames := frames }
  setSlot : ∀ {b id s}, SameSlot (b.slots id) s → R b (b.setSlot id s)
  detach : ∀ b id, R b (slotDetach b id)

section SlotRel

variable {R : ReplyBus → ReplyBus → Prop}

theorem SlotRel.unref (h : SlotRel R) (b : ReplyBus) (id : Nat) : R b (sdBusSlotUnref b id) := by
  unfold sdBusSlotUnref
  simp only
  split
  · exact h.refl b
  · split
    · exact h.trans (h.detach b id) (h.setSlot ⟨rfl, rfl, rfl, rfl, rfl⟩)
    · exact h.setSlot ⟨rfl, rfl, rfl, rfl, rfl⟩

theorem SlotRel.ref (h : SlotRel R) (b : ReplyBus) (id : Nat) : R b (sdBusSlotRef b id) := by
  unfold sdBusSlotRef
  simp only
  split
  · exact h.refl b
  · exact h.setSlot ⟨rfl, rfl, rfl, rfl, rfl⟩

theorem SlotRel.disconnect (h : SlotRel R) (b : ReplyBus) (id : Nat) :
    R b (busSlotDisconnect b id) := by
  unfold busSlotDisconnect
  simp only
  split
  · exact h.refl b
  · split
    · exact h.trans (h.detach b id) (h.unref _ id)
    · exact h.detach b id

theorem SlotRel.setFloating (h : SlotRel R) (b : ReplyBus) (id : Nat) (floating : Bool) :
    R b (sdBusSlotSetFloating b id floating) := by
  unfold sdBusSlotSetFloating
  simp only
  split
  · exact h.refl b
  · split
    · exact h.refl b
    · refine h.trans (h.setSlot (s := { b.slots id with floating := floating })
        ⟨rfl, rfl, rfl, rfl, rfl⟩) ?_
      split
      · exact h.ref _ id
      · exact h.unref _ id

theorem SlotRel.callbackDone (h : SlotRel R) (b : ReplyBus) : R b (callbackDone b) := by
  unfold Basu.callbackDone
  split
  · simp only
    split
    · exact h.trans (h.frames b _) (h.trans (h.disconnect _ _) (h.unref _ _))
    · exact h.trans (h.frames b _) (h.unref _ _)
  · exact h.refl b

end SlotRel

theorem keeps_slotRel : SlotRel Keeps :=
  ⟨Keeps.refl, Keeps.trans, keeps_frames, keeps_setSlot, keeps_slotDetach⟩

/-- A slot that waits is completed: it is found by nothing any more when its callback is
invoked. -/
def Completes (b b' : ReplyBus) (id : Nat) (completion : Completion) : Prop :=
  (b.slots id).connected = true ∧ (b.slots id).cookie ≠ 0 ∧
    b' = invoke (b.without id { b.slots id with cookie := 0, timeoutUsec := 0 }) id completion

theorem timeoutCompare_update {slots : Nat → ReplySlot} {id : Nat} {s : ReplySlot}
    (hs : s.timeoutUsec = (slots id).timeoutUsec) :
    timeoutCompare (update slots id s) = timeoutCompare slots := by
  have hslot : ∀ x, (update slots id s x).timeoutUsec = (slots x).timeoutUsec := by
    intro x
    rw [update_apply]
    split
    · rename_i hx
      rw [hx, hs]
    · rfl
  funext x y
  exact timeoutCompare_congr (hslot x) (hslot y)

theorem mem_of_lookup {k id : Nat} {m : List (Nat × Nat)} (h : m.lookup k = some id) :
    (k, id) ∈ m := by
  obtain ⟨l₁, l₂, rfl, -⟩ := List.lookup_eq_some_iff.mp h
  exact List.mem_append_right _ List.mem_cons_self

section Complete

variable {b : ReplyBus}

theorem processReply_completes (h : RegistryInv b) (cookie : Nat) (hasFds : Bool) :
    processReply b cookie hasFds = b ∨
      ∃ id, Completes b (processReply b cookie hasFds) id
        (if hasFds && !b.acceptFd then .inconsistent else .reply) := by
  unfold processReply
  split
  · exact Or.inl rfl
  · rename_i id hlookup
    obtain ⟨hc, hcookie, hne⟩ := h.stored cookie id (mem_of_lookup hlookup)
    subst hcookie
    refine Or.inr ⟨id, hc, hne, ?_⟩
    by_cases ht : (b.slots id).timeoutUsec = 0
    · simp only [ReplyBus.setSlot, update_self, ht, ne_eq, not_true_eq_false, if_false]
      simp only [ReplyBus.without, hne, ht, ne_eq, not_true_eq_false, not_false_eq_true, if_false,
        if_true]
    · simp only [ReplyBus.setSlot, ReplyBus.prioqRemove, update_self, ne_eq, ht, not_false_eq_true,
        if_true, update_idem]
      have hcmp : timeoutCompare (update b.slots id { b.slots id with cookie := 0 }) =
          timeoutCompare b.slots := timeoutCompare_update rfl
      rw [hcmp]
      simp only [ReplyBus.without, hne, ht, ne_eq, not_false_eq_true, if_true]

theorem processTimeout_completes (h : RegistryInv b) (now : UInt64) :
    processTimeout b now = b ∨ ∃ id, Completes b (processTimeout b now) id .timedOut := by
  unfold processTimeout
  split
  · exact Or.inl rfl
  · rename_i id hpeek
    split
    · exact Or.inl rfl
    · obtain ⟨hc, ht⟩ := (h.queued id).mp (Prioq.mem_of_peek hpeek)
      have hne := h.waiting id hc ht
      refine Or.inr ⟨id, hc, hne, ?_⟩
      rw [Prioq.pop_eq_remove h.queue.indexed hpeek]
      simp only [ReplyBus.setSlot, update_self, update_idem, ReplyBus.without, hne, ht, ne_eq,
        not_false_eq_true, if_true]

theorem processClosing_completes (h : RegistryInv b) :
    processClosing b = { b with state := .closed } ∨
      ∃ id, Completes b (processClosing b) id .terminated := by
  unfold processClosing
  split
  · exact Or.inl rfl
  · rename_i k id rest hm
    obtain ⟨hc, hcookie, hne⟩ := h.stored k id (by rw [hm]; exact List.mem_cons_self)
    subst hcookie
    refine Or.inr ⟨id, hc, hne, ?_⟩
    by_cases ht : (b.slots id).timeoutUsec = 0
    · simp only [ReplyBus.setSlot, ht, ne_eq, not_true_eq_false, if_false]
      simp only [ReplyBus.without, hne, ht, ne_eq, not_true_eq_false, not_false_eq_true, if_false,
        if_true]
    · simp only [ReplyBus.setSlot, ReplyBus.prioqRemove, update_self, ne_eq, ht, not_false_eq_true,
        if_true, update_idem, ReplyBus.without, hne]

theorem invoke_registryInv (b : ReplyBus) (id : Nat) (completion : Completion) (h : RegistryInv b) :
    RegistryInv (invoke b id completion) := by
  refine h.congr le_rfl rfl rfl fun j => ?_
  simp only [invoke, ReplyBus.setSlot, update_apply]
  split
  · rename_i hj
    rw [hj]
    exact ⟨rfl, rfl, rfl, rfl, rfl⟩
  · exact SameSlot.refl _

theorem Completes.registryInv {b' : ReplyBus} {id : Nat} {completion : Completion}
    (hb : Completes b b' id completion) (h : RegistryInv b) : RegistryInv b' := by
  obtain ⟨hc, -, rfl⟩ := hb
  exact invoke_registryInv _ _ _ (h.without hc fun _ => ⟨rfl, rfl⟩)

theorem Completes.calmSlots {b' : ReplyBus} {id : Nat} {completion : Completion}
    (hb : Completes b b' id completion) :
    CalmSlots b.slots b'.slots ∧ (b'.slots id).cookie = 0 ∧ (b'.slots id).timeoutUsec = 0 := by
  obtain ⟨hc, -, rfl⟩ := hb
  simp only [invoke, ReplyBus.setSlot, ReplyBus.without, update_self, update_idem]
  exact ⟨calmSlots_update fun _ => ⟨hc, Or.inr rfl, Or.inr rfl⟩, trivial, trivial⟩

end Complete

/-! ## Registering a call -/

theorem register_registryInv {b : ReplyBus} (h : RegistryInv b) (a : AsyncCall) {cookie : Nat}
    (timeout : UInt64) (hne : cookie ≠ 0) (hfree : b.replyCallbacks.lookup cookie = none) :
    RegistryInv (register b a cookie timeout) := by
  let s := a.newSlot b.state cookie timeout
  let slots := update b.slots b.nSlots s
  have hself : slots b.nSlots = s := update_self _ _ _
  have hother : ∀ {j}, j ≠ b.nSlots → slots j = b.slots j := fun hj => update_of_ne hj _ _
  have hold : ∀ {j}, (b.slots j).connected = true → j ≠ b.nSlots :=
    fun hc => ne_of_lt (h.bound _ hc)
  have hmem : ∀ {j}, b.prioq.Mem j → j ≠ b.nSlots := fun hm => hold ((h.queued _).mp hm).1
  have hvalid : b.prioq.Valid (timeoutCompare slots) := by
    refine h.queue.congr fun x y hx hy hle => ?_
    rw [timeoutCompare_congr (by rw [hother (hmem hx)]) (by rw [hother (hmem hy)])]
    exact hle
  have hfields : (register b a cookie timeout).slots = slots ∧
      (register b a cookie timeout).nSlots = b.nSlots + 1 ∧
      (register b a cookie timeout).replyCallbacks = b.replyCallbacks ++ [(cookie, b.nSlots)] := by
    unfold register
    simp only
    split <;> exact ⟨rfl, rfl, rfl⟩
  obtain ⟨hslots, hn, hmap⟩ := hfields
  -- the queue has the new slot exactly when it has a timeout
  have hqueue : (register b a cookie timeout).prioq.Valid (timeoutCompare slots) ∧
      ∀ y, (register b a cookie timeout).prioq.Mem y ↔
        (y = b.nSlots ∧ s.timeoutUsec ≠ 0) ∨ b.prioq.Mem y := by
    by_cases ht : s.timeoutUsec = 0
    · have hprioq : (register b a cookie timeout).prioq = b.prioq := by
        unfold register
        simp only
        rw [if_pos ht]
        rfl
      rw [hprioq]
      exact ⟨hvalid, fun y => ⟨Or.inr, fun hy => hy.resolve_left fun hy => hy.2 ht⟩⟩
    · have hprioq : (register b a cookie timeout).prioq =
          b.prioq.put (timeoutCompare slots) b.nSlots := by
        unfold register
        simp only
        rw [if_neg ht]
        rfl
      obtain ⟨hput, hputMem⟩ := hvalid.put (timeoutCompare_isCompare slots)
        (x := b.nSlots) fun hm => hmem hm rfl
      rw [hprioq]
      exact ⟨hput, fun y => (hputMem y).trans (by rw [and_iff_left ht])⟩
  refine ⟨?_, fun k j hk => ?_, fun j hc hk => ?_, by rw [hslots]; exact hqueue.1, fun j => ?_,
    fun j hc ht => ?_, fun j hc => ?_⟩
  · rw [hmap, List.map_append, List.nodup_append]
    refine ⟨h.keys, by simp, ?_⟩
    intro k hk k' hk' heq
    obtain ⟨e, he, rfl⟩ := List.mem_map.mp hk
    simp only [List.map_cons, List.map_nil, List.mem_singleton] at hk'
    have := List.lookup_eq_none_iff.mp hfree e he
    simp [heq, hk'] at this
  · rw [hmap, List.mem_append, List.mem_singleton] at hk
    rw [hslots]
    rcases hk with hk | hk
    · obtain ⟨hc, hstored⟩ := h.stored k j hk
      rw [hother (hold hc)]
      exact ⟨hc, hstored⟩
    · obtain ⟨rfl, rfl⟩ := Prod.mk.inj hk
      rw [hself]
      exact ⟨rfl, rfl, hne⟩
  · rw [hslots] at hc hk ⊢
    rw [hmap, List.mem_append, List.mem_singleton]
    by_cases hj : j = b.nSlots
    · rw [hj, hself]
      exact Or.inr rfl
    · rw [hother hj] at hc hk ⊢
      exact Or.inl (h.found j hc hk)
  · rw [hqueue.2, hslots]
    by_cases hj : j = b.nSlots
    · rw [hj, hself]
      refine ⟨fun hm => ⟨rfl, ?_⟩, fun hm => Or.inl ⟨rfl, hm.2⟩⟩
      exact hm.elim (fun hm => hm.2) fun hm => absurd rfl (hmem hm)
    · rw [hother hj, ← h.queued j]
      exact ⟨fun hm => hm.resolve_left fun hm => hj hm.1, Or.inr⟩
  · rw [hslots] at hc ht ⊢
    by_cases hj : j = b.nSlots
    · rw [hj, hself]
      exact hne
    · rw [hother hj] at hc ht ⊢
      exact h.waiting j hc ht
  · rw [hslots] at hc
    rw [hn]
    by_cases hj : j = b.nSlots
    · omega
    · rw [hother hj] at hc
      exact Nat.lt_succ_of_lt (h.bound j hc)

theorem start_sameSlot (now : UInt64) (s : ReplySlot) :
    (s.start now).connected = s.connected ∧ (s.start now).cookie = s.cookie ∧
      ((s.start now).timeoutUsec = 0 ↔ s.timeoutUsec = 0) := by
  unfold ReplySlot.start
  split
  · exact ⟨rfl, rfl, Iff.rfl⟩
  · rename_i h
    exact ⟨rfl, rfl, ⟨fun h0 => absurd h0 (usecAdd_ne_zero now h), fun h0 => absurd h0 h⟩⟩

theorem foldl_start (now : UInt64) (m : List (Nat × Nat)) : ∀ (slots : Nat → ReplySlot) (id : Nat),
    (m.map Prod.snd).Nodup →
    m.foldl (fun slots e => update slots e.2 ((slots e.2).start now)) slots id =
      if id ∈ m.map Prod.snd then (slots id).start now else slots id := by
  induction m with
  | nil => exact fun slots id _ => rfl
  | cons e m ih =>
    intro slots id hnodup
    obtain ⟨hnot, hnodup⟩ := List.nodup_cons.mp hnodup
    rw [List.foldl_cons, ih _ _ hnodup, update_apply]
    by_cases hid : id = e.2
    · rw [if_pos hid, hid, if_neg hnot, List.map_cons, if_pos List.mem_cons_self]
    · rw [if_neg hid, List.map_cons]
      simp only [List.mem_cons, hid, false_or]

theorem RegistryInv.values_nodup {b : ReplyBus} (h : RegistryInv b) :
    (b.replyCallbacks.map Prod.snd).Nodup := by
  refine (List.nodup_map_iff_inj_on (List.Nodup.of_map _ h.keys)).mpr ?_
  rintro ⟨k, i⟩ hi ⟨k', j⟩ hj hij
  obtain rfl : i = j := hij
  rw [← (h.stored k i hi).2.1, ← (h.stored k' i hj).2.1]

theorem busStartRunning_slots {b : ReplyBus} (h : RegistryInv b) (now : UInt64) (canFds : Bool)
    {id : Nat} (hc : (b.slots id).connected = true) :
    (busStartRunning b now canFds).slots id = (b.slots id).start now := by
  refine (foldl_start now _ _ _ h.values_nodup).trans ?_
  split
  · rfl
  · rename_i hnot
    by_cases ht : (b.slots id).timeoutUsec = 0
    · rw [ReplySlot.start, if_pos ht]
    · exact absurd (List.mem_map.mpr ⟨_, h.found id hc (h.waiting id hc ht), rfl⟩) hnot

theorem busStartRunning_connected {b : ReplyBus} (h : RegistryInv b) (now : UInt64) (canFds : Bool)
    (id : Nat) :
    ((busStartRunning b now canFds).slots id).connected = (b.slots id).connected := by
  refine (congrArg ReplySlot.connected (foldl_start now _ _ _ h.values_nodup)).trans ?_
  split
  · exact (start_sameSlot now _).1
  · rfl

theorem busStartRunning_registryInv {b : ReplyBus} (h : RegistryInv b) (now : UInt64)
    (canFds : Bool) : RegistryInv (busStartRunning b now canFds) := by
  have hcon := busStartRunning_connected h now canFds
  have hslot : ∀ {id}, (b.slots id).connected = true →
      (busStartRunning b now canFds).slots id = (b.slots id).start now :=
    busStartRunning_slots h now canFds
  refine ⟨h.keys, fun k id hk => ?_, fun id hc hk => ?_, h.queue.congr fun x y hx hy hle => ?_,
    fun id => ?_, fun id hc ht => ?_, fun id hc => ?_⟩
  · obtain ⟨hc, hcookie, hne⟩ := h.stored k id hk
    rw [hslot hc, (start_sameSlot now _).1, (start_sameSlot now _).2.1]
    exact ⟨hc, hcookie, hne⟩
  · rw [hcon] at hc
    rw [hslot hc, (start_sameSlot now _).2.1] at hk ⊢
    exact h.found id hc hk
  · -- the same time is added to all of them, so the order stays
    obtain ⟨hcx, htx⟩ := (h.queued x).mp hx
    obtain ⟨hcy, hty⟩ := (h.queued y).mp hy
    rw [timeoutCompare_le_iff] at hle ⊢
    have hle := (hle.resolve_left hty).2
    rw [hslot hcx, hslot hcy, ReplySlot.start, ReplySlot.start, if_neg htx, if_neg hty]
    exact Or.inr ⟨usecAdd_ne_zero now htx, usecAdd_le now hle⟩
  · refine (h.queued id).trans ?_
    rw [hcon]
    refine and_congr_right fun hc => not_congr ?_
    rw [hslot hc]
    exact (start_sameSlot now _).2.2.symm
  · rw [hcon] at hc
    rw [hslot hc] at ht ⊢
    rw [(start_sameSlot now _).2.1]
    exact h.waiting id hc fun h0 => ht ((start_sameSlot now _).2.2.mpr h0)
  · rw [hcon] at hc
    exact h.bound id hc

/-- No call is registered under the cookie 0, and none is completed before the `sd_bus_call_async`
that made it has stored its cookie a second time. -/
def ReplyOp.Sound (b : ReplyBus) : ReplyOp → Prop
  | .callAsync a => ∀ cookie timeout, (sealCall b a).1 = some (cookie, timeout) → cookie ≠ 0
  | .sendDone ok => ok = true → ∀ id cookie waits frames,
      b.frames = .sending (some id) cookie waits :: frames →
        (b.slots id).connected = true ∧ (b.slots id).cookie = cookie
  | _ => True

def RunAll (P : ReplyBus → ReplyOp → Prop) : ReplyBus → List ReplyOp → Prop
  | _, [] => True
  | b, op :: ops => P b op ∧ RunAll P (op.exec b) ops

theorem RunAll.invariant {P : ReplyBus → ReplyOp → Prop} {I : ReplyBus → Prop}
    (hstep : ∀ b op, I b → P b op → I (op.exec b)) (ops : List ReplyOp) :
    ∀ {b : ReplyBus}, I b → RunAll P b ops → I (replyRun b ops) := by
  induction ops with
  | nil => exact fun h _ => h
  | cons op ops ih => exact fun h hall => ih (hstep _ _ h hall.1) hall.2

theorem sdBusCallAsync_cases (b : ReplyBus) (a : AsyncCall) :
    (∃ frames cookie nSlots, b.nSlots ≤ nSlots ∧ sdBusCallAsync b a =
      { b with frames := frames, cookie := cookie, nSlots := nSlots }) ∨
    ∃ cookie timeout frames last, (sealCall b a).1 = some (cookie, timeout) ∧
      b.state.isOpen = true ∧ b.replyCallbacks.lookup cookie = none ∧ sdBusCallAsync b a =
        { register { b with cookie := last } a cookie timeout with frames := frames } := by
  unfold sdBusCallAsync
  simp only
  split
  · exact Or.inl ⟨b.frames, b.cookie, b.nSlots, le_rfl, rfl⟩
  · split
    · exact Or.inl ⟨b.frames, b.cookie, b.nSlots, le_rfl, rfl⟩
    · rename_i hopen
      split
      · exact Or.inl ⟨b.frames, _, b.nSlots, le_rfl, rfl⟩
      · rename_i cookie timeout hseal
        split
        · split
          · exact Or.inl ⟨b.frames, _, b.nSlots + 1, Nat.le_succ _, rfl⟩
          · rename_i hfree
            refine Or.inr ⟨cookie, timeout, _, _, hseal, Bool.not_eq_false _ ▸ hopen, ?_, rfl⟩
            exact Option.not_isSome_iff_eq_none.mp hfree
        · exact Or.inl ⟨_, _, b.nSlots, le_rfl, rfl⟩

theorem SlotRel.sendDone {R : ReplyBus → ReplyBus → Prop} (h : SlotRel R) {b : ReplyBus}
    {ok : Bool} (hsound : (ReplyOp.sendDone ok).Sound b) : R b (sendDone b ok) := by
  unfold Basu.sendDone
  split
  · rename_i slot cookie waits frames hframes
    simp only
    split
    · exact h.frames b _
    · rename_i id
      split
      · rename_i hok
        obtain ⟨-, hcookie⟩ := hsound hok id cookie waits frames hframes
        exact h.trans (h.frames b _) (h.setSlot ⟨rfl, hcookie.symm, rfl, rfl, rfl⟩)
      · exact h.trans (h.frames b _) (h.unref _ _)
  · exact h.refl b

theorem RegistryInv.other {b b' : ReplyBus} (h : RegistryInv b) (hn : b.nSlots ≤ b'.nSlots)
    (hm : b'.replyCallbacks = b.replyCallbacks) (hq : b'.prioq = b.prioq)
    (hs : b'.slots = b.slots) : RegistryInv b' :=
  h.congr hn hm hq fun _ => by rw [hs]; exact SameSlot.refl _

theorem exec_registryInv {b : ReplyBus} {op : ReplyOp} (h : RegistryInv b) (hsound : op.Sound b) :
    RegistryInv (op.exec b) := by
  cases op with
  | opening => simp only [ReplyOp.exec]; split <;> exact h.other le_rfl rfl rfl rfl
  | authenticating => simp only [ReplyOp.exec]; split <;> exact h.other le_rfl rfl rfl rfl
  | startRunning now canFds =>
    simp only [ReplyOp.exec]
    split
    · exact busStartRunning_registryInv h now canFds
    · exact h
  | helloDone => simp only [ReplyOp.exec]; split <;> exact h.other le_rfl rfl rfl rfl
  | enterClosing => exact h.other le_rfl rfl rfl rfl
  | close => exact h.other le_rfl rfl rfl rfl
  | send cookie => exact h.other le_rfl rfl rfl rfl
  | callAsync a =>
    simp only [ReplyOp.exec]
    split
    · rcases sdBusCallAsync_cases b a with ⟨frames, cookie, n, hn, hb⟩ |
        ⟨cookie, timeout, frames, last, hseal, -, hfree, hb⟩
      · rw [hb]
        exact h.other hn rfl rfl rfl
      · rw [hb]
        have hb' : RegistryInv { b with cookie := last } := h.other le_rfl rfl rfl rfl
        exact (register_registryInv hb' a timeout (hsound cookie timeout hseal) hfree).other
          le_rfl rfl rfl rfl
    · exact h
  | sendDone ok => exact (keeps_slotRel.sendDone hsound h).1
  | reply cookie hasFds =>
    simp only [ReplyOp.exec]
    split
    · rcases processReply_completes h cookie hasFds with hb | ⟨id, hb⟩
      · rw [hb]
        exact h
      · exact hb.registryInv h
    · exact h
  | timeout now =>
    simp only [ReplyOp.exec]
    split
    · rcases processTimeout_completes h now with hb | ⟨id, hb⟩
      · rw [hb]
        exact h
      · exact hb.registryInv h
    · exact h
  | closing =>
    simp only [ReplyOp.exec]
    split
    · rcases processClosing_completes h with hb | ⟨id, hb⟩
      · rw [hb]
        exact h.other le_rfl rfl rfl rfl
      · exact hb.registryInv h
    · exact h
  | callbackDone => exact (keeps_slotRel.callbackDone b h).1
  | slotRef id => simp only [ReplyOp.exec]; split <;> [exact (keeps_slotRel.ref b id h).1; exact h]
  | slotUnref id =>
    simp only [ReplyOp.exec]; split <;> [exact (keeps_slotRel.unref b id h).1; exact h]
  | setFloating id floating =>
    simp only [ReplyOp.exec]
    split <;> [exact (keeps_slotRel.setFloating b id floating h).1; exact h]
  | disconnect id =>
    simp only [ReplyOp.exec]; split <;> [exact (keeps_slotRel.disconnect b id h).1; exact h]

structure TimeBase (b : ReplyBus) : Prop where
  based : ∀ id, (b.slots id).connected = true → (b.slots id).timeoutUsec ≠ 0 →
    (b.slots id).timeoutUsec =
      if b.started then usecAdd (b.slots id).began (b.slots id).asked else (b.slots id).asked
  before : b.state = .unset ∨ b.state = .opening ∨ b.state = .authenticating → b.started = false
  after : b.state = .hello ∨ b.state = .running → b.started = true

def ReplyOp.InTime (b : ReplyBus) : ReplyOp → Prop
  | .callAsync a => ∀ cookie timeout, (sealCall b a).1 = some (cookie, timeout) →
      timeout ≠ usecInfinity → a.now.toNat + timeout.toNat < 2 ^ 64
  | _ => True

theorem TimeBase.calm {b b' : ReplyBus} (h : TimeBase b) (hs : CalmSlots b.slots b'.slots)
    (hst : b'.state = b.state) (hstart : b'.started = b.started) : TimeBase b' := by
  refine ⟨fun id hc ht => ?_, by rw [hst, hstart]; exact h.before, by rw [hst, hstart]; exact h.after⟩
  obtain ⟨hc', -, htime⟩ := hs id hc
  rcases htime with ⟨h1, h2, h3⟩ | h0
  · rw [h1] at ht
    rw [h1, h2, h3, hstart]
    exact h.based id hc' ht
  · exact absurd h0 ht

theorem TimeBase.keeps {b b' : ReplyBus} (h : TimeBase b) (hinv : RegistryInv b)
    (hb : Keeps b b') : TimeBase b' :=
  h.calm (hb hinv).2.slots (hb hinv).2.state (hb hinv).2.started

theorem Completes.timeBase {b b' : ReplyBus} {id : Nat} {completion : Completion}
    (hb : Completes b b' id completion) (h : TimeBase b) : TimeBase b' := by
  refine h.calm hb.calmSlots.1 ?_ ?_ <;> rw [hb.2.2] <;> rfl

theorem add_eq_usecAdd {a b : UInt64} (h : a.toNat + b.toNat < 2 ^ 64) : a + b = usecAdd a b := by
  rw [usecAdd, if_neg]
  rw [UInt64.lt_iff_toNat_lt, UInt64.lt_iff_toNat_lt, UInt64.toNat_add, Nat.mod_eq_of_lt h]
  omega

theorem register_slots (b : ReplyBus) (a : AsyncCall) (cookie : Nat) (timeout : UInt64) :
    (register b a cookie timeout).slots =
      update b.slots b.nSlots (a.newSlot b.state cookie timeout) := by
  unfold register
  simp only
  split <;> rfl

theorem register_state (b : ReplyBus) (a : AsyncCall) (cookie : Nat) (timeout : UInt64) :
    (register b a cookie timeout).state = b.state ∧
      (register b a cookie timeout).started = b.started ∧
      (register b a cookie timeout).nSlots = b.nSlots + 1 ∧
      (register b a cookie timeout).invoked = b.invoked ∧
      (register b a cookie timeout).acceptFd = b.acceptFd ∧
      (register b a cookie timeout).canFds = b.canFds := by
  unfold register
  simp only
  split <;> exact ⟨rfl, rfl, rfl, rfl, rfl, rfl⟩

theorem register_timeBase {b : ReplyBus} (h : TimeBase b) (a : AsyncCall) (cookie : Nat)
    {timeout : UInt64} (hopen : b.state.isOpen = true)
    (htime : timeout ≠ usecInfinity → a.now.toNat + timeout.toNat < 2 ^ 64) :
    TimeBase (register b a cookie timeout) := by
  obtain ⟨hst, hstart, -⟩ := register_state b a cookie timeout
  refine ⟨fun id hc ht => ?_, by rw [hst, hstart]; exact h.before, by rw [hst, hstart]; exact h.after⟩
  rw [register_slots, update_apply] at hc ht ⊢
  rw [hstart]
  by_cases hid : id = b.nSlots
  · simp only [if_pos hid, AsyncCall.newSlot, calcElapse] at ht ⊢
    by_cases hinf : timeout = usecInfinity
    · rw [if_pos hinf] at ht
      exact absurd rfl ht
    · rw [if_neg hinf] at ht ⊢
      by_cases hbefore : b.state = .opening ∨ b.state = .authenticating
      · rw [if_pos hbefore, h.before (Or.inr hbefore)]
        rfl
      · have hafter : b.state = .hello ∨ b.state = .running := by
          revert hopen hbefore
          cases b.state <;> simp [BusState.isOpen]
        rw [if_neg hbefore, h.after hafter, if_pos rfl]
        exact add_eq_usecAdd (htime hinf)
  · rw [if_neg hid] at hc ht ⊢
    exact h.based id hc ht

theorem busStartRunning_timeBase {b : ReplyBus} (hinv : RegistryInv b) (h : TimeBase b)
    (hstate : b.state = .opening ∨ b.state = .authenticating) (now : UInt64) (canFds : Bool) :
    TimeBase (busStartRunning b now canFds) := by
  refine ⟨fun id hc ht => ?_, fun hst => ?_, fun _ => rfl⟩
  · rw [busStartRunning_connected hinv] at hc
    rw [busStartRunning_slots hinv now canFds hc] at ht ⊢
    have ht' : (b.slots id).timeoutUsec ≠ 0 :=
      fun h0 => ht ((start_sameSlot now _).2.2.mpr h0)
    have hbased := h.based id hc ht'
    rw [h.before (Or.inr hstate)] at hbased
    rw [ReplySlot.start, if_neg ht']
    exact congrArg (usecAdd now) hbased
  · simp only [busStartRunning] at hst
    revert hst
    cases b.busClient <;> simp

theorem exec_timeBase {b : ReplyBus} {op : ReplyOp} (hinv : RegistryInv b) (h : TimeBase b)
    (hsound : op.Sound b) (htime : op.InTime b) : TimeBase (op.exec b) := by
  -- the steps that only change the state
  have hstate : ∀ s : BusState, (s = .unset ∨ s = .opening ∨ s = .authenticating →
      b.started = false) → (s = .hello ∨ s = .running → b.started = true) →
      TimeBase { b with state := s } :=
    fun s hbefore hafter => ⟨h.based, hbefore, hafter⟩
  have hcompletes : ∀ {b' : ReplyBus} {id : Nat} {completion : Completion},
      Completes b b' id completion → TimeBase b' := fun hb => hb.timeBase h
  cases op with
  | opening =>
    simp only [ReplyOp.exec]
    split
    · rename_i hst
      exact hstate _ (fun _ => h.before (Or.inl hst)) fun hs => absurd hs (by simp)
    · exact h
  | authenticating =>
    simp only [ReplyOp.exec]
    split
    · rename_i hst
      exact hstate _ (fun _ => h.before (Or.inr (Or.inl hst))) fun hs => absurd hs (by simp)
    · exact h
  | startRunning now canFds =>
    simp only [ReplyOp.exec]
    split
    · rename_i hcond
      exact busStartRunning_timeBase hinv h hcond.2 now canFds
    · exact h
  | helloDone =>
    simp only [ReplyOp.exec]
    split
    · rename_i hst
      exact hstate _ (fun hs => absurd hs (by simp)) fun _ => h.after (Or.inl hst)
    · exact h
  | enterClosing =>
    simp only [ReplyOp.exec]
    by_cases hunset : b.state = .unset
    · rw [hunset]
      exact hstate _ (fun _ => h.before (Or.inl hunset)) fun hs => absurd hs (by simp [busEnterClosing])
    · refine hstate _ ?_ ?_ <;> revert hunset <;> cases b.state <;> simp [busEnterClosing]
  | close => exact hstate _ (fun hs => absurd hs (by simp)) fun hs => absurd hs (by simp)
  | send cookie => exact ⟨h.based, h.before, h.after⟩
  | callAsync a =>
    simp only [ReplyOp.exec]
    split
    · rcases sdBusCallAsync_cases b a with ⟨frames, cookie, n, -, hb⟩ |
        ⟨cookie, timeout, frames, last, hseal, hopen, -, hb⟩
      · rw [hb]
        exact ⟨h.based, h.before, h.after⟩
      · rw [hb]
        have hreg := register_timeBase (b := { b with cookie := last })
          ⟨h.based, h.before, h.after⟩ a cookie hopen (htime cookie timeout hseal)
        exact ⟨hreg.based, hreg.before, hreg.after⟩
    · exact h
  | sendDone ok => exact h.keeps hinv (keeps_slotRel.sendDone hsound)
  | reply cookie hasFds =>
    simp only [ReplyOp.exec]
    split
    · rcases processReply_completes hinv cookie hasFds with hb | ⟨id, hb⟩
      · rw [hb]
        exact h
      · exact hcompletes hb
    · exact h
  | timeout now =>
    simp only [ReplyOp.exec]
    split
    · rcases processTimeout_completes hinv now with hb | ⟨id, hb⟩
      · rw [hb]
        exact h
      · exact hcompletes hb
    · exact h
  | closing =>
    simp only [ReplyOp.exec]
    split
    · rcases processClosing_completes hinv with hb | ⟨id, hb⟩
      · rw [hb]
        exact hstate _ (fun hs => absurd hs (by simp)) fun hs => absurd hs (by simp)
      · exact hcompletes hb
    · exact h
  | callbackDone => exact h.keeps hinv (keeps_slotRel.callbackDone b)
  | slotRef id =>
    simp only [ReplyOp.exec]
    split <;> [exact h.keeps hinv (keeps_slotRel.ref b id); exact h]
  | slotUnref id =>
    simp only [ReplyOp.exec]
    split <;> [exact h.keeps hinv (keeps_slotRel.unref b id); exact h]
  | setFloating id floating =>
    simp only [ReplyOp.exec]
    split <;> [exact h.keeps hinv (keeps_slotRel.setFloating b id floating); exact h]
  | disconnect id =>
    simp only [ReplyOp.exec]
    split <;> [exact h.keeps hinv (keeps_slotRel.disconnect b id); exact h]

/-! ## The registry in every state -/

/-- A slot has a cookie exactly when it is stored under it, and a timeout exactly when it is in the
queue at the place it has recorded; what is stored or queued is a slot of the bus; the queue is a
heap, and all timeouts are of the same kind. -/
structure Registered (b : ReplyBus) : Prop where
  cookie : ∀ id, (b.slots id).connected = true →
    ((b.slots id).cookie ≠ 0 ↔ b.replyCallbacks.lookup (b.slots id).cookie = some id)
  timeout : ∀ id, (b.slots id).connected = true →
    ((b.slots id).timeoutUsec ≠ 0 ↔
      b.prioq.idx id < b.prioq.nItems ∧ b.prioq.items (b.prioq.idx id) = id)
  connected : (∀ e ∈ b.replyCallbacks, (b.slots e.2).connected = true) ∧
    ∀ i < b.prioq.nItems, (b.slots (b.prioq.items i)).connected = true
  heap : b.prioq.Ordered (timeoutCompare b.slots)
  base : TimeBase b

theorem RegistryInv.registered {b : ReplyBus} (h : RegistryInv b) (hbase : TimeBase b) :
    Registered b := by
  refine ⟨fun id hc => ⟨fun hk => ?_, fun hl => ?_⟩, fun id hc => ?_, ⟨fun e he => ?_, fun i hi => ?_⟩,
    h.queue.ordered, hbase⟩
  · have hmem := h.found id hc hk
    rcases hl : b.replyCallbacks.lookup (b.slots id).cookie with _ | j
    · have := List.lookup_eq_none_iff.mp hl _ hmem
      simp at this
    · rw [h.key_unique (mem_of_lookup hl) hmem]
  · exact (h.stored _ id (mem_of_lookup hl)).2.2
  · rw [← h.queue.indexed.mem_iff, h.queued id]
    exact ⟨fun ht => ⟨hc, ht⟩, fun hm => hm.2⟩
  · exact (h.stored e.1 e.2 he).1
  · exact ((h.queued _).mp ⟨i, hi, rfl⟩).1

def ReplyBus.fresh (b : ReplyBus) : ReplyBus where
  busClient := b.busClient
  isMonitor := b.isMonitor
  acceptFd := b.acceptFd
  methodCallTimeout := b.methodCallTimeout

theorem fresh_registryInv (b : ReplyBus) : RegistryInv b.fresh := by
  refine ⟨List.nodup_nil, fun k id hk => absurd hk List.not_mem_nil, fun id hc => absurd hc (by
    simp [ReplyBus.fresh]), ⟨fun i hi => absurd hi (Nat.not_lt_zero i), fun i _ hi => absurd hi
    (Nat.not_lt_zero i)⟩, fun id => ⟨?_, fun hc => absurd hc.1 (by simp [ReplyBus.fresh])⟩,
    fun id hc => absurd hc (by simp [ReplyBus.fresh]), fun id hc => absurd hc (by
    simp [ReplyBus.fresh])⟩
  rintro ⟨i, hi, -⟩
  exact absurd hi (Nat.not_lt_zero i)

theorem fresh_timeBase (b : ReplyBus) : TimeBase b.fresh :=
  ⟨fun id hc => absurd hc (by simp [ReplyBus.fresh]), fun _ => rfl, fun hs => absurd hs (by
    simp [ReplyBus.fresh])⟩

/-- The registry is in order in every state reached, as long as no call is registered under the
cookie 0, none completes before its `sd_bus_call_async` is done, and no timeout overflows. -/
theorem replyRun_registered (b : ReplyBus) (ops : List ReplyOp)
    (hops : RunAll (fun b op => op.Sound b ∧ op.InTime b) b.fresh ops) :
    Registered (replyRun b.fresh ops) := by
  have h := RunAll.invariant (I := fun b => RegistryInv b ∧ TimeBase b)
    (fun b op hI hP => ⟨exec_registryInv hI.1 hP.1, exec_timeBase hI.1 hI.2 hP.1 hP.2⟩) ops
    ⟨fresh_registryInv b, fresh_timeBase b⟩ hops
  exact h.1.registered h.2

def slotCall (message : CallMessage) (hasFds : Bool) : AsyncCall where
  slot := true
  callback := true
  message := message
  usec := 5
  hasFds := hasFds
  now := 100

theorem replyRun_registered_oneCall :
    let b : ReplyBus := {}
    let ops := [.opening, .callAsync (slotCall (.draft false) false), .sendDone true,
      .authenticating, .startRunning 200 false]
    ((replyRun b.fresh ops).slots 0).timeoutUsec = 205 ∧ Registered (replyRun b.fresh ops) := by
  refine ⟨by decide +kernel, replyRun_registered _ _ ⟨⟨trivial, trivial⟩, ⟨?_, ?_⟩,
    ⟨?_, trivial⟩, ⟨trivial, trivial⟩, ⟨trivial, trivial⟩, trivial⟩⟩
  · intro cookie timeout hseal
    obtain ⟨rfl, rfl⟩ := Prod.mk.inj (Option.some.inj hseal)
    decide +kernel
  · intro cookie timeout hseal _
    obtain ⟨rfl, rfl⟩ := Prod.mk.inj (Option.some.inj hseal)
    decide +kernel
  · intro _ id cookie waits frames hframes
    obtain ⟨h1, -⟩ := List.cons.inj hframes
    obtain ⟨hid, rfl, -⟩ := CallFrame.sending.inj h1
    obtain rfl := Option.some.inj hid
    decide +kernel

/-- A message sealed with the cookie 0, a call that times out while it waits for the connection, and
a timeout that overflows. -/
theorem not_registered_runs :
    let b : ReplyBus := { acceptFd := true }
    ¬ Registered (replyRun b.fresh [.opening, .callAsync (slotCall (.sealed false 0 5) false),
      .sendDone true]) ∧
    ¬ Registered (replyRun b.fresh [.opening, .callAsync (slotCall (.draft false) true),
      .authenticating, .startRunning 200 true, .timeout 300, .callbackDone, .helloDone,
      .sendDone true]) ∧
    ¬ Registered (replyRun b.fresh [.opening, .authenticating, .startRunning 50 true, .helloDone,
      .callAsync (slotCall (.sealed false 7 0xfffffffffffffffe) false), .sendDone true]) := by
  refine ⟨fun h => ?_, fun h => ?_, fun h => ?_⟩
  · have := (h.cookie 0 (by decide +kernel)).mpr (by decide +kernel)
    exact this (by decide +kernel)
  · have := (h.cookie 0 (by decide +kernel)).mp (by decide +kernel)
    revert this
    decide +kernel
  · have := h.base.based 0 (by decide +kernel) (by decide +kernel)
    revert this
    decide +kernel

end Basu
