import Basu.Socket.Handshake

/-! Whom a server lets in. Each line is answered on its own, and `BEGIN` only looks at the mechanism
an earlier line has left; the last verdict the client was sent is the one that should count. -/

namespace Basu
open Lib
open Relation

def AuthReply.isVerdict : AuthReply → Bool
  | .ok _ | .rejected | .rejectedMechanisms => true
  | .error | .agreeUnixFd => false

def lastVerdict (replies : List AuthReply) : Option AuthReply :=
  (replies.filter AuthReply.isVerdict).getLast?

theorem lastVerdict_verdict (replies : List AuthReply) {r : AuthReply} (h : r.isVerdict = true) :
    lastVerdict (replies ++ [r]) = some r := by
  rw [lastVerdict, List.filter_append, List.filter_cons_of_pos h, List.filter_nil]
  exact List.getLast?_concat

theorem lastVerdict_other (replies : List AuthReply) {r : AuthReply} (h : r.isVerdict = false) :
    lastVerdict (replies ++ [r]) = lastVerdict replies := by
  rw [lastVerdict, List.filter_append, List.filter_cons_of_neg (by simp [h]), List.filter_nil,
    List.append_nil]
  rfl

def AuthData.Vouched (d : AuthData) : Prop :=
  ∀ m, d.auth = some m → lastVerdict d.replies = some (.ok m)

def rejectsAuth (c : AuthConfig) : AuthCommand → Bool
  | .auth mechanism token => !verifyToken c mechanism token
  | .authOther => true
  | _ => false

section Line

variable {c : AuthConfig} {d : AuthData}

theorem vouched_ok (d : AuthData) (m : BusAuth) :
    ({ d with auth := some m }.reply (.ok m)).Vouched := by
  intro m' hm
  obtain rfl := Option.some.inj hm
  exact lastVerdict_verdict _ rfl

theorem vouched_none (d : AuthData) (r : AuthReply) :
    ({ d with auth := none }.reply r).Vouched :=
  fun _ hm => absurd hm (by simp [AuthData.reply])

theorem AuthData.Vouched.other (h : d.Vouched) {r : AuthReply} (hr : r.isVerdict = false) :
    (d.reply r).Vouched := by
  intro m hm
  rw [AuthData.reply, lastVerdict_other _ hr]
  exact h m hm

theorem vouched_rejected_iff {r : AuthReply} (hr : r.isVerdict = true) (hok : ∀ m, r ≠ .ok m) :
    (d.reply r).Vouched ↔ d.auth = none := by
  constructor
  · intro h
    rcases hauth : d.auth with _ | m
    · rfl
    · have hm := h m hauth
      rw [AuthData.reply, lastVerdict_verdict _ hr] at hm
      exact absurd (Option.some.inj hm) (hok m)
  · intro hnone m hm
    exact absurd (hnone.symm.trans hm) (by simp)

theorem command_vouched_iff (h : d.Vouched) (cmd : AuthCommand) :
    (d.command c cmd).Vouched ↔ (d.auth ≠ none → rejectsAuth c cmd = false) := by
  have hrejected : ∀ r : AuthReply, r.isVerdict = true → (∀ m, r ≠ .ok m) →
      rejectsAuth c cmd = true →
      ((d.reply r).Vouched ↔ (d.auth ≠ none → rejectsAuth c cmd = false)) := by
    intro r hr hok hrej
    rw [vouched_rejected_iff hr hok, hrej]
    simp only [Bool.true_eq_false, imp_false, not_not]
  have hkept : ∀ {d' : AuthData}, d'.Vouched → rejectsAuth c cmd = false →
      (d'.Vouched ↔ (d.auth ≠ none → rejectsAuth c cmd = false)) :=
    fun hd' hrej => ⟨fun _ _ => hrej, fun _ => hd'⟩
  cases cmd with
  | auth mechanism token =>
    simp only [AuthData.command]
    split
    · rename_i hv
      exact hkept (vouched_ok d mechanism) (by rw [rejectsAuth, hv]; rfl)
    · rename_i hv
      exact hrejected _ rfl (fun m hm => absurd hm (by simp)) (by simp [rejectsAuth, hv])
  | authOther => exact hrejected _ rfl (fun m hm => absurd hm (by simp)) rfl
  | cancelOrError => exact hkept (vouched_none d _) rfl
  | begin => exact hkept (h.other rfl) rfl
  | data token =>
    refine hkept ?_ rfl
    simp only [AuthData.command]
    split
    · exact h.other rfl
    · rename_i m hm
      split
      · intro m' hm'
        obtain rfl := Option.some.inj (hm.symm.trans hm')
        exact lastVerdict_verdict _ rfl
      · exact vouched_none d _
  | negotiateUnixFd =>
    refine hkept ?_ rfl
    simp only [AuthData.command]
    split
    · exact h.other rfl
    · exact AuthData.Vouched.other (d := { d with canFds := true }) h rfl
  | unknown => exact hkept (h.other rfl) rfl

end Line

def lineAt (R : Bytes) (x : ScanPoint) (l : Nat) : AuthCommand :=
  authCommand ((R.drop x.1).take l)

def NoneRejectedLate (c : AuthConfig) (R : Bytes) : Prop :=
  ∀ x l, ReflTransGen (Scan c R) scanStart x → memmemCrlf (R.drop x.1) = some l →
    x.2.auth ≠ none → rejectsAuth c (lineAt R x l) = false

theorem scan_vouched_iff (c : AuthConfig) (R : Bytes) :
    (∀ x, ReflTransGen (Scan c R) scanStart x → x.2.Vouched) ↔ NoneRejectedLate c R := by
  constructor
  · intro h x l hx hl hauth
    by_cases hacc : Accepts R x l
    · rw [lineAt, hacc.2.1]
      rfl
    · have hnext := h _ (hx.tail ⟨l, hl, hacc, rfl⟩)
      exact (command_vouched_iff (h x hx) _).mp hnext hauth
  · intro h x hx
    induction hx with
    | refl => exact fun m hm => absurd hm (by simp [scanStart])
    | tail hx hstep ih =>
      obtain ⟨l, hl, -, rfl⟩ := hstep
      exact (command_vouched_iff ih _).mpr (h _ l hx hl)

/-- The mechanism and the answers are those of the lines received so far; nothing is consumed
before the connection runs, and it runs only with a mechanism. -/
structure Answered (c : AuthConfig) (s : AuthBus) : Prop where
  scanned : s.authRbegin = 0 ∧ s.data = {} ∨
    s.authRbegin ≠ 0 ∧ ReflTransGen (Scan c s.held) scanStart (s.authRbegin, s.data)
  consumed : s.ended ≠ some .running → s.consumed = []
  running : s.ended = some .running → s.data.auth ≠ none

section Answered

variable {c : AuthConfig} {s : AuthBus}

theorem held_eq_rbuffer (h : Answered c s) (hend : s.ended = none) : s.held = s.rbuffer := by
  rw [AuthBus.held, h.consumed (by rw [hend]; simp), List.nil_append]

theorem Answered.scan (h : Answered c s) (hb : s.authRbegin ≠ 0) :
    ReflTransGen (Scan c s.held) scanStart (s.authRbegin, s.data) := by
  rcases h.scanned with ⟨hb', -⟩ | ⟨-, hscan⟩
  · exact absurd hb' hb
  · exact hscan

theorem Answered.answer (h : Answered c s) (hend : s.ended = none) (hb : s.authRbegin ≠ 0)
    {l : Nat} (hl : memmemCrlf (s.rbuffer.drop s.authRbegin) = some l)
    (hbegin : ¬(authCommand (s.line l) = .begin ∧ s.data.auth ≠ none)) :
    Answered c (s.answer c l) := by
  have hheld := held_eq_rbuffer h hend
  rw [← hheld] at hl
  refine ⟨Or.inr ⟨by simp [AuthBus.answer], (h.scan hb).tail ⟨l, hl, ?_, ?_⟩⟩, h.consumed,
    fun hrun => absurd (hend.symm.trans hrun) (by simp)⟩
  · rintro ⟨-, hacc⟩
    rw [hheld] at hacc
    exact hbegin hacc
  · rw [hheld]
    rfl

theorem Answered.startRunning (h : Answered c s) (hb : s.authRbegin ≠ 0)
    (hauth : s.data.auth ≠ none) (n : Nat) : Answered c (s.startRunning n) := by
  refine ⟨Or.inr ⟨hb, ?_⟩, fun hne => absurd rfl hne, fun _ => hauth⟩
  rw [(sameBytes_startRunning s n).1]
  exact h.scan hb

theorem verifyServerLoop_answered (fuel : Nat) : ∀ {processed : Bool} {s : AuthBus},
    Answered c s → s.ended = none → s.authRbegin ≠ 0 →
      Answered c (verifyServerLoop c fuel processed s).2 := by
  induction fuel with
  | zero => exact fun h _ _ => h
  | succ fuel ih =>
    intro processed s h hend hb
    simp only [verifyServerLoop]
    split
    · exact h
    · rename_i l hl
      split
      · rename_i hbegin
        split
        · exact h
        · exact h.startRunning hb hbegin.2 _
      · rename_i hbegin
        exact ih (h.answer hend hb hl hbegin) hend (by simp [AuthBus.answer])

theorem verify_answered (hserver : c.isServer = true) (h : Answered c s) (hend : s.ended = none) :
    Answered c (busSocketAuthVerify c s).2 := by
  rw [busSocketAuthVerify, if_pos hserver]
  unfold busSocketAuthVerifyServer
  split
  · exact h
  · split
    · refine ⟨h.scanned, fun _ => h.consumed (by rw [hend]; simp), fun hrun => ?_⟩
      exact absurd (Option.some.inj hrun) (by simp)
    · split
      · exact h
      · by_cases hb : s.authRbegin = 0
        · simp only [if_pos hb]
          refine verifyServerLoop_answered _ ⟨Or.inr ⟨one_ne_zero, ?_⟩, h.consumed, h.running⟩ hend
            one_ne_zero
          rcases h.scanned with ⟨-, hd⟩ | ⟨hb', -⟩
          · simp only [hd]
            exact ReflTransGen.refl
          · exact absurd hb hb'
        · simp only [if_neg hb]
          exact verifyServerLoop_answered _ h hend hb

theorem Answered.recv (h : Answered c s) (n : Nat) : Answered c (s.recv n) := by
  refine ⟨?_, h.consumed, h.running⟩
  rw [recv_held]
  exact h.scanned.imp_right fun ⟨hb, hscan⟩ => ⟨hb, scan_append hscan _⟩

theorem processAuthenticating_answered (hserver : c.isServer = true) (wk : Nat × Nat)
    (h : Answered c s) : Answered c (busSocketProcessAuthenticating c wk s) := by
  have hfalse : (busSocketAuthVerify c s).1 = false →
      (busSocketAuthVerify c s).2.ended = s.ended := by
    intro hv
    rcases verify_false hv with h' | ⟨-, h'⟩ <;> rw [h']
  rcases processAuthenticating_cases c wk s with ⟨-, hs⟩ | ⟨-, -, -, hs⟩ | ⟨hend, -, hs⟩ |
    ⟨hend, hv, -, hs⟩ | ⟨hreads, -, hs⟩ | ⟨hreads, -, hs⟩
  · rw [hs]
    exact h
  · rw [hs]
    exact ⟨h.scanned, h.consumed, h.running⟩
  · rw [hs]
    exact verify_answered hserver h hend
  · rw [hs]
    have hv' := verify_answered hserver h hend
    refine ⟨hv'.scanned, fun _ => hv'.consumed ?_, fun hrun => ?_⟩
    · rw [hfalse hv, hend]
      simp
    · exact absurd (Option.some.inj hrun) (by simp)
  · rw [hs]
    exact verify_answered hserver h hreads.1
  · rw [hs]
    exact verify_answered hserver ((verify_answered hserver h hreads.1).recv _)
      ((hfalse hreads.2.2.1).trans hreads.1)

theorem authRun_answered (hserver : c.isServer = true) (wks : List (Nat × Nat)) :
    ∀ {s : AuthBus}, Answered c s → Answered c (authRun c wks s) := by
  induction wks with
  | nil => exact fun h => h
  | cons wk wks ih => exact fun h => ih (processAuthenticating_answered hserver wk h)

end Answered

/-- The server proceeds on `BEGIN` only when the last verdict was an `OK`, for the mechanism it was
given for, exactly when no `AUTH` is rejected while an earlier one stands. -/
theorem authRun_vouched_iff (c : AuthConfig) (hserver : c.isServer = true) (S U : Bytes)
    (wks : List (Nat × Nat)) :
    let s := authRun c wks (authStart S U)
    ((∀ x, ReflTransGen (Scan c s.held) scanStart x → x.2.Vouched) ∧
      (s.ended = some .running →
        ∃ m, s.data.auth = some m ∧ lastVerdict s.data.replies = some (.ok m))) ↔
      NoneRejectedLate c s.held := by
  intro s
  have hs : Answered c s := authRun_answered hserver wks
    ⟨Or.inl ⟨rfl, rfl⟩, fun _ => rfl, fun hrun => absurd hrun (by simp [authStart])⟩
  rw [scan_vouched_iff]
  refine ⟨fun h => h.1, fun h => ⟨h, fun hrun => ?_⟩⟩
  have hauth := hs.running hrun
  obtain ⟨m, hm⟩ := Option.ne_none_iff_exists'.mp hauth
  refine ⟨m, hm, ?_⟩
  rcases hs.scanned with ⟨-, hd⟩ | ⟨-, hscan⟩
  · rw [hd] at hauth
    exact absurd rfl hauth
  · exact (scan_vouched_iff c s.held).mpr h _ hscan m hm

def peercredServer : AuthConfig where
  zephyr := false
  isServer := true
  anonymousAuth := false
  acceptFd := false
  ucred := some 1000
  serverId := List.replicate 16 0

def clientStream (ls : List Bytes) : Bytes := 0 :: ls.flatMap (· ++ [13, 10])

theorem authRun_vouched_iff_external :
    (authRun peercredServer [(0, 256), (100, 0), (0, 0)]
      (authStart (clientStream [wordAuthExternal, wordBegin]) [])).ended = some .running ∧
    let s := authRun peercredServer [(0, 256), (100, 0), (0, 0)]
      (authStart (clientStream [wordAuthExternal, wordBegin]) [])
    ((∀ x, ReflTransGen (Scan peercredServer s.held) scanStart x → x.2.Vouched) ∧
      (s.ended = some .running →
        ∃ m, s.data.auth = some m ∧ lastVerdict s.data.replies = some (.ok m))) ↔
      NoneRejectedLate peercredServer s.held :=
  ⟨by decide +kernel, authRun_vouched_iff peercredServer rfl _ _ _⟩

/-- A client that is let in after its last exchange was rejected. -/
theorem not_vouched_rejectedAuth :
    let s := authRun peercredServer [(0, 256), (100, 0), (0, 0)]
      (authStart (clientStream [wordAuthExternal, wordAuth, wordBegin]) [])
    s.ended = some .running ∧ lastVerdict s.data.replies = some .rejectedMechanisms := by
  decide +kernel

end Basu
