import Basu.Type
import Basu.Lib.Run
import Mathlib.Logic.Function.Basic

/-! The cookies of a connection (`sd-bus.c`, `bus-message.c`): one counter numbers the messages
that are sealed here and is raised by those that come sealed. -/

namespace Basu.Cookies
open Lib Function

/-- What sealing looks at: the cookie of a sealed message, and what may keep one from being
sealed. Messages made on a `dbus1` connection are no GVariant messages. -/
structure OutMessage where
  sealedWith : Option UInt64 := none
  openContainers : Bool := false
  poisoned : Bool := false
  replyMismatch : Bool := false

/-- How the rest of a call goes: the checks in front of the sealing, `sd_bus_message_set_sender`,
the end of the header, `bus_remarshal_message`, the reply callback, and the checks of `sd_bus_send`.
-/
structure SealCall where
  admitted : Bool := true
  senderSet : Bool := true
  closed : Bool := true
  remarshalled : Bool := true
  registered : Bool := true
  admittedAgain : Bool := true

/-- `messages` are those the application holds, whether it makes them or has received them.
`sealed` and `forwarded` are the cookies that went through `bus_seal_message`; no code reads
them. -/
structure CookieBus where
  cookie : UInt64 := 0
  messages : Nat → OutMessage := fun _ => {}
  sealed : List UInt64 := []
  forwarded : List UInt64 := []

/-- `sd_bus_message_seal`; a `dbus1` serial has 32 bits. -/
def sdBusMessageSeal (c : SealCall) (m : OutMessage) (cookie : UInt64) :
    Except Errno OutMessage :=
  if m.sealedWith.isSome then .error .eperm
  else if m.openContainers then .error .ebadmsg
  else if m.poisoned then .error .estale
  else if 0xffffffff < cookie then .error .eopnotsupp
  else if m.replyMismatch then .error .enomsg
  else if !c.closed then .error .enomem
  else .ok { m with sealedWith := some cookie.toUInt32.toUInt64 }

def busSealMessage (c : SealCall) (b : CookieBus) (i : Nat) : CookieBus × Except Errno Unit :=
  match (b.messages i).sealedWith with
  | some k =>
    ({ b with
      cookie := if b.cookie > k then b.cookie else k
      forwarded := k :: b.forwarded }, .ok ())
  | none =>
    if !c.senderSet then (b, .error .enomem)
    else
      let k := b.cookie + 1
      match sdBusMessageSeal c (b.messages i) k with
      | .error e => ({ b with cookie := k }, .error e)
      | .ok m =>
        ({ b with
          cookie := k
          messages := update b.messages i m
          sealed := k :: b.sealed }, .ok ())

def sdBusSend (c : SealCall) (admitted : Bool) (b : CookieBus) (i : Nat) : CookieBus :=
  if admitted then (busSealMessage c b i).1 else b

def sdBusCallWith (c : SealCall) (registered : Bool) (b : CookieBus) (i : Nat) : CookieBus :=
  if !c.admitted then b
  else
    let r := busSealMessage c b i
    match r.2 with
    | .error _ => r.1
    | .ok () =>
      if c.remarshalled && registered then sdBusSend c c.admittedAgain r.1 i else r.1

/-- The application makes, changes or receives a message, or passes one to a connection. -/
inductive CookieOp
  | hold (i : Nat) (m : OutMessage)
  | send (i : Nat) (c : SealCall)
  | callAsync (i : Nat) (c : SealCall)
  | call (i : Nat) (c : SealCall)

def CookieOp.exec (b : CookieBus) : CookieOp → CookieBus
  | .hold i m =>
    if (b.messages i).sealedWith.isSome then b
    else { b with messages := update b.messages i m }
  | .send i c => sdBusSend c c.admitted b i
  | .callAsync i c => sdBusCallWith c c.registered b i
  | .call i c => sdBusCallWith c true b i

def CookieOp.passes : CookieOp → Option (Nat × SealCall)
  | .hold _ _ => none
  | .send i c => some (i, c)
  | .callAsync i c => some (i, c)
  | .call i c => some (i, c)

def maxSerial : Nat := 0xffffffff

def CookieBus.Counts (b : CookieBus) (i : Nat) (c : SealCall) : Prop :=
  (b.messages i).sealedWith = none ∧ c.admitted = true ∧ c.senderSet = true

structure CookieBus.Complete (b : CookieBus) (i : Nat) (c : SealCall) : Prop where
  counts : b.Counts i c
  containers : (b.messages i).openContainers = false
  poisoned : (b.messages i).poisoned = false
  reply : (b.messages i).replyMismatch = false
  closed : c.closed = true

structure CookieBus.GoodCookie (b : CookieBus) (k : UInt64) : Prop where
  nonzero : k ≠ 0
  fits : k.toNat ≤ maxSerial
  fresh : k ∉ b.sealed
  unforwarded : k ∉ b.forwarded

structure CookieLaw (b : CookieBus) (op : CookieOp) : Prop where
  succeeds : ∀ i c, op.passes = some (i, c) → b.Complete i c → b.sealed.length < maxSerial →
    ((op.exec b).messages i).sealedWith.isSome
  good : ∀ i c k, op.passes = some (i, c) → (b.messages i).sealedWith = none →
    ((op.exec b).messages i).sealedWith = some k → b.GoodCookie k

/-- Where the counter stands when a fresh message gets to it: below the largest serial if there
is one left to give, and in no case at its own end. -/
def CookieOp.Below (b : CookieBus) (op : CookieOp) : Prop :=
  ∀ i c, op.passes = some (i, c) → b.Counts i c → b.cookie.toNat + 1 < 2 ^ 64 ∧
    (b.Complete i c → b.sealed.length < maxSerial → b.cookie.toNat < maxSerial)

/-- The counter is as high as every cookie that was used. -/
def CookieBus.Ahead (b : CookieBus) : Prop :=
  ∀ k ∈ b.sealed ++ b.forwarded, k.toNat ≤ b.cookie.toNat

section
variable {b : CookieBus} {c : SealCall} {i : Nat} {k : UInt64}

theorem toUInt32_toUInt64 (h : ¬ 0xffffffff < k) : k.toUInt32.toUInt64 = k := by
  rw [UInt64.lt_iff_toNat_lt, not_lt] at h
  apply UInt64.toNat_inj.mp
  rw [UInt32.toNat_toUInt64, UInt64.toNat_toUInt32]
  exact Nat.mod_eq_of_lt (lt_of_le_of_lt h (by decide))

theorem toNat_succ (h : k.toNat + 1 < 2 ^ 64) : (k + 1).toNat = k.toNat + 1 := by
  rw [UInt64.toNat_add]
  exact Nat.mod_eq_of_lt h

theorem busSealMessage_sealed (h : (b.messages i).sealedWith = some k) :
    busSealMessage c b i = ({ b with
      cookie := if b.cookie > k then b.cookie else k
      forwarded := k :: b.forwarded }, .ok ()) := by
  unfold busSealMessage
  rw [h]

theorem busSealMessage_fresh (h : (b.messages i).sealedWith = none) (hs : c.senderSet = true) :
    (∃ e, busSealMessage c b i = ({ b with cookie := b.cookie + 1 }, .error e) ∧
      (maxSerial < (b.cookie + 1).toNat ∨ ¬ b.Complete i c)) ∨
    ((b.cookie + 1).toNat ≤ maxSerial ∧ busSealMessage c b i = ({ b with
      cookie := b.cookie + 1
      messages := update b.messages i { b.messages i with sealedWith := some (b.cookie + 1) }
      sealed := (b.cookie + 1) :: b.sealed }, .ok ())) := by
  unfold busSealMessage
  simp only [h, hs, Bool.not_true, Bool.false_eq_true, if_false, sdBusMessageSeal,
    Option.isSome_none]
  split_ifs with hopen hpoisoned hserial hreply hclosed
  · exact .inl ⟨_, rfl, .inr fun hc => by simp [hc.containers] at hopen⟩
  · exact .inl ⟨_, rfl, .inr fun hc => by simp [hc.poisoned] at hpoisoned⟩
  · exact .inl ⟨_, rfl, .inl (UInt64.lt_iff_toNat_lt.mp hserial)⟩
  · exact .inl ⟨_, rfl, .inr fun hc => by simp [hc.reply] at hreply⟩
  · exact .inl ⟨_, rfl, .inr fun hc => by simp [hc.closed] at hclosed⟩
  · rw [toUInt32_toUInt64 hserial]
    rw [UInt64.lt_iff_toNat_lt, not_lt] at hserial
    exact .inr ⟨hserial, rfl⟩

theorem busSealMessage_unset (h : (b.messages i).sealedWith = none) (hs : c.senderSet = false) :
    (busSealMessage c b i).1 = b := by
  unfold busSealMessage
  simp [h, hs]

theorem CookieBus.Ahead.seal (hb : b.Ahead)
    (hw : (b.messages i).sealedWith = none → c.senderSet = true → b.cookie.toNat + 1 < 2 ^ 64) :
    (busSealMessage c b i).1.Ahead := by
  rcases hm : (b.messages i).sealedWith with _ | k
  · rcases hs : c.senderSet with _ | _
    · rw [busSealMessage_unset hm hs]
      exact hb
    have hlt : ∀ j ∈ b.sealed ++ b.forwarded, j.toNat ≤ (b.cookie + 1).toNat := by
      intro j hj
      rw [toNat_succ (hw hm hs)]
      exact Nat.le_succ_of_le (hb j hj)
    rcases busSealMessage_fresh hm hs with ⟨e, h, -⟩ | ⟨-, h⟩
    · rw [h]
      exact hlt
    · rw [h]
      intro j hj
      rcases List.mem_cons.mp hj with rfl | hj
      · exact le_rfl
      · exact hlt j hj
  · rw [busSealMessage_sealed hm]
    intro j hj
    have hj' : j = k ∨ j.toNat ≤ b.cookie.toNat := by
      rcases List.mem_append.mp hj with hj | hj
      · exact .inr (hb j (List.mem_append_left _ hj))
      · rcases List.mem_cons.mp hj with rfl | hj
        · exact .inl rfl
        · exact .inr (hb j (List.mem_append_right _ hj))
    show j.toNat ≤ (if b.cookie > k then b.cookie else k).toNat
    split
    · next hgt =>
      rcases hj' with rfl | hj'
      · exact (UInt64.lt_iff_toNat_lt.mp hgt).le
      · exact hj'
    · next hle =>
      rw [gt_iff_lt, UInt64.lt_iff_toNat_lt, not_lt] at hle
      rcases hj' with rfl | hj'
      · exact le_rfl
      · exact hj'.trans hle

theorem CookieBus.Ahead.goodCookie (hb : b.Ahead) (hw : b.cookie.toNat + 1 < 2 ^ 64)
    (hk : (b.cookie + 1).toNat ≤ maxSerial) : b.GoodCookie (b.cookie + 1) := by
  have hsucc := toNat_succ hw
  have hnew : ∀ j ∈ b.sealed ++ b.forwarded, b.cookie + 1 ≠ j := by
    rintro j hj rfl
    have hle := hb _ hj
    rw [hsucc] at hle
    exact absurd hle (Nat.not_succ_le_self _)
  refine ⟨fun h0 => ?_, hk, fun hj => ?_, fun hj => ?_⟩
  · rw [h0] at hsucc
    exact absurd hsucc (by simp)
  · exact hnew _ (List.mem_append_left _ hj) rfl
  · exact hnew _ (List.mem_append_right _ hj) rfl

theorem exec_passes {op : CookieOp} (h : op.passes = some (i, c)) :
    (c.admitted = false ∧ op.exec b = b) ∨ (c.admitted = true ∧
      (op.exec b = (busSealMessage c b i).1 ∨ ((busSealMessage c b i).2 = .ok () ∧
        op.exec b = (busSealMessage c (busSealMessage c b i).1 i).1))) := by
  have hwith : ∀ registered, (c.admitted = false ∧ sdBusCallWith c registered b i = b) ∨
      (c.admitted = true ∧ (sdBusCallWith c registered b i = (busSealMessage c b i).1 ∨
        ((busSealMessage c b i).2 = .ok () ∧ sdBusCallWith c registered b i =
          (busSealMessage c (busSealMessage c b i).1 i).1))) := by
    intro registered
    unfold sdBusCallWith
    rcases hc : c.admitted with _ | _
    · exact .inl ⟨rfl, rfl⟩
    refine .inr ⟨rfl, ?_⟩
    rcases hr : (busSealMessage c b i).2 with e | ⟨⟩
    · simp [hr]
    · simp only [hr, Bool.not_true, Bool.false_eq_true, if_false, true_and, sdBusSend]
      split_ifs
      · exact .inr rfl
      · exact .inl rfl
      · exact .inl rfl
  cases op with
  | hold j m => exact absurd h (by simp [CookieOp.passes])
  | send j d =>
    obtain ⟨rfl, rfl⟩ := Prod.mk.inj (Option.some.inj h)
    simp only [CookieOp.exec, sdBusSend]
    rcases hc : d.admitted with _ | _
    · exact .inl ⟨rfl, rfl⟩
    · exact .inr ⟨rfl, .inl rfl⟩
  | callAsync j d =>
    obtain ⟨rfl, rfl⟩ := Prod.mk.inj (Option.some.inj h)
    exact hwith d.registered
  | call j d =>
    obtain ⟨rfl, rfl⟩ := Prod.mk.inj (Option.some.inj h)
    exact hwith true

theorem busSealMessage_ok (h : (busSealMessage c b i).2 = .ok ()) :
    ∃ k, ((busSealMessage c b i).1.messages i).sealedWith = some k := by
  rcases hm : (b.messages i).sealedWith with _ | k
  · rcases hs : c.senderSet with _ | _
    · exact absurd h (by simp [busSealMessage, hm, hs])
    rcases busSealMessage_fresh hm hs with ⟨e, he, -⟩ | ⟨-, he⟩
    · rw [he] at h
      exact absurd h (by simp)
    · rw [he]
      exact ⟨b.cookie + 1, by simp⟩
  · rw [busSealMessage_sealed hm]
    exact ⟨k, hm⟩

theorem exec_messages {op : CookieOp} (h : op.passes = some (i, c)) (hc : c.admitted = true) :
    (op.exec b).messages = (busSealMessage c b i).1.messages := by
  rcases exec_passes (b := b) h with ⟨hno, -⟩ | ⟨-, he | ⟨hok, he⟩⟩
  · exact absurd (hno.symm.trans hc) (by simp)
  · rw [he]
  · obtain ⟨k, hk⟩ := busSealMessage_ok hok
    rw [he, busSealMessage_sealed hk]

theorem CookieBus.Ahead.exec (hb : b.Ahead) {op : CookieOp} (hop : op.Below b) :
    (op.exec b).Ahead := by
  rcases hp : op.passes with _ | ⟨i, c⟩
  · cases op with
    | hold j m =>
      unfold CookieOp.exec
      dsimp only
      split
      · exact hb
      · exact hb
    | _ => exact absurd hp (by simp [CookieOp.passes])
  have hw : c.admitted = true → (b.messages i).sealedWith = none → c.senderSet = true →
      b.cookie.toNat + 1 < 2 ^ 64 := fun ha hm hs => (hop i c hp ⟨hm, ha, hs⟩).1
  rcases exec_passes (b := b) hp with ⟨-, he⟩ | ⟨ha, he | ⟨hok, he⟩⟩
  · rw [he]
    exact hb
  · rw [he]
    exact hb.seal (hw ha)
  · rw [he]
    obtain ⟨k, hk⟩ := busSealMessage_ok hok
    exact (hb.seal (hw ha)).seal fun hm => absurd (hk.symm.trans hm) (by simp)

theorem CookieOp.Below.law {op : CookieOp} (hop : op.Below b) (hb : b.Ahead) :
    CookieLaw b op := by
  refine ⟨fun i c hp hc hlen => ?_, fun i c k hp hm hk => ?_⟩
  · obtain ⟨hw, hlt⟩ := hop i c hp hc.counts
    obtain ⟨hm, ha, hs⟩ := hc.counts
    rw [exec_messages hp ha]
    rcases busSealMessage_fresh hm hs with ⟨e, -, hno | hno⟩ | ⟨-, he⟩
    · rw [toNat_succ hw] at hno
      exact absurd (hlt hc hlen) (not_lt.mpr (Nat.lt_succ_iff.mp hno))
    · exact absurd hc hno
    · rw [he]
      simp
  · rcases ha : c.admitted with _ | _
    · rcases exec_passes (b := b) hp with ⟨-, he⟩ | ⟨hyes, -⟩
      · rw [he, hm] at hk
        exact absurd hk (by simp)
      · exact absurd (hyes.symm.trans ha) (by simp)
    rw [exec_messages hp ha] at hk
    rcases hs : c.senderSet with _ | _
    · rw [busSealMessage_unset hm hs, hm] at hk
      exact absurd hk (by simp)
    rcases busSealMessage_fresh hm hs with ⟨e, he, -⟩ | ⟨hle, he⟩
    · rw [he] at hk
      exact absurd (hk.symm.trans hm) (by simp)
    · rw [he] at hk
      have hk : k = b.cookie + 1 := by simpa using hk.symm
      rw [hk]
      exact hb.goodCookie (hop i c hp ⟨hm, ha, hs⟩).1 hle

theorem not_cookieLaw {op : CookieOp} (hp : op.passes = some (i, c)) (hc : b.Complete i c)
    (hlen : b.sealed.length < maxSerial) (hw : b.cookie.toNat + 1 < 2 ^ 64)
    (hge : maxSerial ≤ b.cookie.toNat) : ¬ CookieLaw b op := by
  intro hlaw
  have hsealed := hlaw.succeeds i c hp hc hlen
  obtain ⟨hm, ha, hs⟩ := hc.counts
  rw [exec_messages hp ha] at hsealed
  rcases busSealMessage_fresh hm hs with ⟨e, he, -⟩ | ⟨hle, -⟩
  · rw [he] at hsealed
    exact absurd hsealed (by simp [hm])
  · rw [toNat_succ hw] at hle
    exact absurd hge (not_le.mpr hle)

end

/-- As long as the counter stays below the largest serial, every complete message is sealed with a
cookie of its own. -/
theorem cookieRun_law (ops : List CookieOp)
    (h : StepsAll CookieOp.exec (fun b op => op.Below b) {} ops) :
    StepsAll CookieOp.exec CookieLaw {} ops := by
  have h0 : CookieBus.Ahead {} := by simp [CookieBus.Ahead]
  exact StepsAll.imp (fun b op hb hop => ⟨hop.law hb, hb.exec hop⟩) ops h0 h

theorem cookieRun_law_forwarded : StepsAll CookieOp.exec CookieLaw {}
    [.send 0 {}, .hold 1 { sealedWith := some 7 }, .send 1 {}, .callAsync 2 {}] := by
  apply cookieRun_law
  refine ⟨?_, ?_, ?_, ?_, trivial⟩
  · intro i c hp _
    exact ⟨by decide, fun _ _ => by decide⟩
  · intro i c hp
    exact absurd hp (by simp [CookieOp.passes])
  · intro i c hp hc
    obtain ⟨rfl, rfl⟩ := Prod.mk.inj (Option.some.inj hp)
    exact absurd hc.1 (by decide)
  · intro i c hp _
    exact ⟨by decide, fun _ _ => by decide⟩

/-- A received message with the largest serial is forwarded; no message is sealed any more. -/
theorem not_cookieRun_law : ¬ StepsAll CookieOp.exec CookieLaw {}
    [.hold 0 { sealedWith := some 0xffffffff }, .send 0 {}, .send 1 {}] := by
  rintro ⟨-, -, hlaw, -⟩
  refine not_cookieLaw (i := 1) (c := {}) rfl ⟨⟨rfl, rfl, rfl⟩, rfl, rfl, rfl, rfl⟩ ?_ ?_ ?_ hlaw
  · decide
  · decide
  · decide

end Basu.Cookies
