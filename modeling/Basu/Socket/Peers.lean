import Basu.Lib.Run
import Basu.Socket.Hello

/-! A client and a server of the library with each other, while they authenticate and when the first
messages follow. Either of them may go on at any time, with reads and writes of any size. -/

namespace Basu
open Lib
open Relation

/-- Both ends, with what has been sent to each so far and the messages among it. -/
structure Peers where
  server : AuthBus
  client : AuthBus
  toServer : Bytes
  toClient : Bytes
  serverSent : Bytes
  clientSent : Bytes

/-- A call with what can be written and what is ready to be read, or messages of an end that runs
and has written its lines. -/
inductive PeerOp
  | server (wk : Nat × Nat)
  | client (wk : Nat × Nat)
  | serverSends (t : Bytes)
  | clientSends (t : Bytes)

def AuthBus.sends (w : Nat) (a : AuthBus) : Bytes :=
  if a.ended = none then a.unwritten.take w else []

def AuthBus.hears (t : Bytes) (a : AuthBus) : AuthBus := { a with input := a.input ++ t }

def AuthBus.mayTalk (a : AuthBus) : Bool := a.ended = some .running && a.unwritten = []

def Peers.step (s c : AuthConfig) (p : Peers) : PeerOp → Peers
  | .server wk =>
    { p with
      server := busSocketProcessAuthenticating s wk p.server
      client := p.client.hears (p.server.sends wk.1)
      toClient := p.toClient ++ p.server.sends wk.1 }
  | .client wk =>
    { p with
      client := busSocketProcessAuthenticating c wk p.client
      server := p.server.hears (p.client.sends wk.1)
      toServer := p.toServer ++ p.client.sends wk.1 }
  | .serverSends t =>
    if p.server.mayTalk then
      { p with
        client := p.client.hears t
        toClient := p.toClient ++ t
        serverSent := p.serverSent ++ t }
    else p
  | .clientSends t =>
    if p.client.mayTalk then
      { p with
        server := p.server.hears t
        toServer := p.toServer ++ t
        clientSent := p.clientSent ++ t }
    else p

def Peers.start (c : AuthConfig) (euid : Nat) : Peers :=
  ⟨authStart [] [], authStart [] (startAuthClient c euid), [], [], [], []⟩

def Peers.Fits (s c : AuthConfig) (p : Peers) : PeerOp → Prop
  | .server wk => p.server.Fits s wk
  | .client wk => p.client.Fits c wk
  | .serverSends _ => True
  | .clientSends _ => True

structure AuthBus.Runs (s c : AuthConfig) (rest : Bytes) (a : AuthBus) : Prop where
  ended : a.ended = some .running
  auth : a.data.auth = some (mechanismOf c)
  canFds : a.data.canFds = (c.acceptFd && s.acceptFd)
  rest : a.rbuffer ++ a.input = rest

/-- An end that is over runs as agreed, or it is a client that is not let in. When nothing is left
to write and nothing on its way, and neither end goes on, both are over. -/
structure Peers.Agree (s c : AuthConfig) (euid : Nat) (p : Peers) : Prop where
  server : p.server.ended ≠ none → Admits s c euid ∧ p.server.Runs s c p.clientSent
  admitted : Admits s c euid → p.client.ended ≠ none → p.client.Runs s c p.serverSent
  refused : ¬Admits s c euid → p.client.ended ≠ none → p.client.ended = some (.failed .eperm)
  live : Admits s c euid → p.server.input = [] → p.client.input = [] → p.server.unwritten = [] →
    p.client.unwritten = [] → (∀ wk, p.step s c (.server wk) = p ∧ p.step s c (.client wk) = p) →
    p.server.ended ≠ none ∧ p.client.ended ≠ none

section
variable {c : AuthConfig} {S : Bytes} {a : AuthBus}

/-! ## One end -/

theorem verifyServerLoop_ended (fuel : Nat) : ∀ {processed : Bool} {a : AuthBus},
    (verifyServerLoop c fuel processed a).2.ended = a.ended ∨
      (verifyServerLoop c fuel processed a).2.ended = some .running := by
  induction fuel with
  | zero => exact .inl rfl
  | succ fuel ih =>
    intro processed a
    simp only [verifyServerLoop]
    split
    · exact .inl rfl
    · split
      · split
        · exact .inl rfl
        · exact .inr rfl
      · exact ih

theorem verify_ended_ne (h : a.ended = none) :
    (busSocketAuthVerify c a).2.ended ≠ some (.failed .enobufs) := by
  unfold busSocketAuthVerify
  split
  · unfold busSocketAuthVerifyServer
    split
    · simp [h]
    · split
      · simp [AuthBus.fail]
      · split
        · simp [h]
        · simp only
          rcases verifyServerLoop_ended (c := c) _ with he | he <;> rw [he]
          · split <;> simp [h]
          · simp
  · unfold busSocketAuthVerifyClient
    split
    · simp [h]
    · split
      · rename_i r hr
        have hne : r ≠ .enobufs := by
          rintro rfl
          unfold clientVerdict at hr
          split at hr
          · cases hr
          · split at hr
            · cases hr
            · split at hr
              · cases hr
              · split at hr <;> cases hr
        simp [AuthBus.fail, hne]
      · simp [AuthBus.startRunning]

theorem Decides.le {R : Bytes} {e : AuthEnd} {n : Nat} {d : AuthData} (h : Decides c R e n d)
    (he : e = .running) : n ≤ R.length := by
  unfold Decides at h
  split at h
  · rcases h with ⟨-, -, rfl, -⟩ | ⟨-, -, x, l, -, hacc, rfl, -⟩
    · cases he
    · have hle := memmemCrlf_le hacc.1
      rw [List.length_drop] at hle
      omega
  · obtain ⟨i, f, start, hlines, ⟨r, -, rfl, -⟩ | ⟨-, -, rfl⟩⟩ := h
    · cases he
    · exact (clientLines_append hlines []).2.2.1

/-- On the way through the part of the stream that has been sent. -/
def OnWay (c : AuthConfig) (S : Bytes) (a : AuthBus) : Prop :=
  Waiting c S a ∨
    Outcome c S a ∧ (a.ended = some (.failed .enobufs) → busAuthSizeMax ≤ S.length)

theorem OnWay.step (h : OnWay c S a) {wk : Nat × Nat} (hfit : a.Fits c wk) :
    OnWay c S (busSocketProcessAuthenticating c wk a) := by
  rcases h with h | ⟨h, hfull⟩
  · refine (processAuthenticating_onTrack (.inl h) hfit).imp_right fun ho => ⟨ho, fun hend => ?_⟩
    rcases processAuthenticating_cases c wk a with ⟨hne, hs⟩ | ⟨-, -, -, hs⟩ | ⟨-, -, hs⟩ |
      ⟨-, -, hroom, -⟩ | ⟨-, -, hs⟩ | ⟨hreads, -, hs⟩
    · exact absurd h.ended hne
    · rw [hs] at hend
      exact absurd (h.ended.symm.trans hend) (by simp)
    · exact absurd (hs ▸ hend) (verify_ended_ne h.ended)
    · rw [← h.stream, List.length_append]
      exact (busAuthSizeMax_le_of_full a hroom).trans (Nat.le_add_right _ _)
    · exact absurd (hs ▸ hend) (verify_ended_ne h.ended)
    · rw [hs] at hend
      refine absurd hend (verify_ended_ne ?_)
      exact (verify_waiting h hreads.2.2.1).ended
  · have hend : a.ended ≠ none := by
      rcases h with ⟨_, _, _, _, _, _, _, he, _⟩ | ⟨he, -⟩ <;> rw [he] <;> simp
    rw [busSocketProcessAuthenticating, if_pos hend]
    exact .inr ⟨h, hfull⟩

theorem OnWay.hears (h : OnWay c S a) (t : Bytes) : OnWay c (S ++ t) (a.hears t) := by
  rcases h with h | ⟨h, hfull⟩
  · refine .inl ⟨h.ended, h.consumed, ?_, h.size, h.scanned⟩
    rw [← h.stream, List.append_assoc]
    rfl
  · refine .inr ⟨?_, fun hend => ?_⟩
    · rcases h with ⟨R, u, e, n, d, hS, hsize, hend, hd, hrest⟩ | ⟨hend, hnone⟩
      · refine .decided R (u ++ t) e n d ?_ hsize hend hd fun he => ?_
        · rw [← hS, List.append_assoc]
        obtain ⟨hdata, hb⟩ := hrest he
        have hle : n ≤ S.length := by
          rw [← hS, List.length_append]
          exact (hd.le he).trans (Nat.le_add_right _ _)
        refine ⟨hdata, ?_⟩
        rw [List.drop_append_of_le_length hle, ← hb, List.append_assoc]
        rfl
      · refine .tooLong hend ?_
        rwa [List.take_append_of_le_length (hfull hend)]
    · rw [List.length_append]
      exact (hfull hend).trans (Nat.le_add_right _ _)

theorem OnWay.waiting (h : OnWay c S a) (hend : a.ended = none) : Waiting c S a :=
  h.resolve_right fun ho => by
    rcases ho.1 with ⟨_, _, _, _, _, _, _, he, _⟩ | ⟨he, -⟩ <;> rw [he] at hend <;> cases hend

/-- What is still to come does not change the decision. -/
theorem OnWay.decided (h : OnWay c S a) (hne : a.ended ≠ none) {u R T : Bytes} {e : AuthEnd}
    {n : Nat} {d : AuthData} (hS : S ++ u = R ++ T) (hR : R.length ≤ busAuthSizeMax)
    (hd : Decides c R e n d) : a.ended = some e ∧
      (e = .running → a.data = d ∧ n ≤ S.length ∧ a.rbuffer ++ a.input = S.drop n) := by
  rcases h with h | ⟨⟨R', t, e', n', d', hS', -, hend, hd', hrest⟩ | ⟨hend, hnone⟩, hfull⟩
  · exact absurd h.ended hne
  · have hfar : Decides c (R ++ T) e' n' d' := by
      rw [← hS, ← hS', List.append_assoc]
      exact hd'.append _
    obtain ⟨rfl, rfl, rfl⟩ := (hd.append T).unique hfar
    refine ⟨hend, fun he => ⟨(hrest he).1, ?_, (hrest he).2⟩⟩
    rw [← hS', List.length_append]
    exact (hd'.le he).trans (Nat.le_add_right _ _)
  · obtain ⟨v, hv⟩ := List.prefix_of_prefix_length_le (List.prefix_append R T) ⟨u, hS⟩
      (hR.trans (hfull hend))
    rw [← hv, List.take_append, List.take_of_length_le hR] at hnone
    exact absurd (hd.append _) (hnone e n d)

/-! ## An end that waits -/

/-- When the loop stops, there is no line left in the buffer, or there is something to write. -/
theorem verifyServerLoop_rest (fuel : Nat) : ∀ (processed : Bool) (s : AuthBus),
    s.rbuffer.length < s.authRbegin + fuel → s.ended = none →
    (verifyServerLoop c fuel processed s).2.ended = none →
    (verifyServerLoop c fuel processed s).2.unwritten = [] →
    s.authRbegin ≤ (verifyServerLoop c fuel processed s).2.authRbegin ∧
      memmemCrlf ((verifyServerLoop c fuel processed s).2.rbuffer.drop
        (verifyServerLoop c fuel processed s).2.authRbegin) = none := by
  induction fuel with
  | zero =>
    intro processed s hlt _ _ _
    rw [verifyServerLoop, List.drop_of_length_le (by simp only; omega)]
    exact ⟨le_rfl, rfl⟩
  | succ fuel ih =>
    intro processed s hlt hend
    simp only [verifyServerLoop]
    split
    · rename_i hl
      exact fun _ _ => ⟨le_rfl, hl⟩
    · split
      · split
        · rename_i hne
          exact fun _ h => absurd h hne
        · intro h
          cases h
      · intro hend' hun'
        refine (ih _ _ ?_ ?_ hend' hun').imp_left (le_trans ?_)
        · simp only [AuthBus.answer]
          omega
        · exact hend
        · simp only [AuthBus.answer]
          omega

theorem verify_rest (hserver : c.isServer = true) (h : a.ended = none)
    (hv : (busSocketAuthVerify c a).1 = true) (hend : (busSocketAuthVerify c a).2.ended = none)
    (hun : (busSocketAuthVerify c a).2.unwritten = []) :
    (busSocketAuthVerify c a).2.authRbegin ≠ 0 ∧
      memmemCrlf ((busSocketAuthVerify c a).2.rbuffer.drop (busSocketAuthVerify c a).2.authRbegin) =
        none := by
  unfold busSocketAuthVerify busSocketAuthVerifyServer at hv hend hun ⊢
  rw [if_pos hserver] at hv hend hun ⊢
  split at hv
  · cases hv
  · rename_i h1
    rw [if_neg h1] at hend hun ⊢
    split at hv
    · rename_i h0
      rw [if_pos h0] at hend
      cases hend
    · rename_i h0
      rw [if_neg h0] at hend hun ⊢
      split at hv
      · cases hv
      · rename_i h3
        rw [if_neg h3] at hend hun ⊢
        by_cases hb : a.authRbegin = 0
        · simp only [if_pos hb] at hend hun ⊢
          obtain ⟨hle, hnone⟩ := verifyServerLoop_rest _ false { a with authRbegin := 1 }
            (Nat.lt_add_left _ (Nat.lt_succ_self _)) h hend hun
          exact ⟨(Nat.lt_of_lt_of_le Nat.one_pos hle).ne', hnone⟩
        · simp only [if_neg hb] at hend hun ⊢
          obtain ⟨hle, hnone⟩ := verifyServerLoop_rest _ false a
            (Nat.lt_add_left _ (Nat.lt_succ_self _)) h hend hun
          exact ⟨(Nat.lt_of_lt_of_le (Nat.pos_of_ne_zero hb) hle).ne', hnone⟩

/-- Once the part of the stream that decides has arrived, a call ends the phase or has something to
write. -/
theorem Waiting.ends {R t : Bytes} {e : AuthEnd} {n : Nat}
    {d : AuthData} (h : Waiting c (R ++ t) a) (hd : Decides c R e n d)
    (hR : R.length ≤ a.rbuffer.length) (hun : a.unwritten = []) (wk : Nat × Nat)
    (hend : (busSocketProcessAuthenticating c wk a).ended = none) :
    (busSocketProcessAuthenticating c wk a).unwritten ≠ [] := by
  intro hun'
  obtain ⟨u, hu⟩ := List.prefix_of_prefix_length_le (List.prefix_append R t)
    ⟨a.input, h.stream⟩ hR
  have hdec := hd.append u
  rw [hu] at hdec
  rcases processAuthenticating_cases c wk a with ⟨hne, -⟩ | ⟨-, hne, -⟩ | ⟨-, hv, hs⟩ |
    ⟨-, hv, -⟩ | ⟨hreads, -⟩ | ⟨hreads, -⟩
  · exact hne h.ended
  · exact hne hun
  · rw [hs] at hend hun'
    by_cases hserver : c.isServer = true
    · obtain ⟨hb, hnone⟩ := verify_rest hserver h.ended hv hend hun'
      have hw := (verify_onTrack h).resolve_right fun ho => by
        rcases ho with ⟨_, _, _, _, _, _, _, he, _⟩ | ⟨he, -⟩ <;> rw [he] at hend <;> cases hend
      have hbuf : (busSocketAuthVerify c a).2.rbuffer = a.rbuffer := by
        have hheld := (sameBytes_verify c a).1
        rwa [AuthBus.held, AuthBus.held, hw.consumed, h.consumed] at hheld
      have hscan := hw.scanned
      rw [LinesScanned, if_pos hserver, hbuf] at hscan
      rw [hbuf] at hnone
      rw [Decides, if_pos hserver] at hdec
      rcases hscan with ⟨hb', -⟩ | ⟨-, h0, hscan⟩
      · exact hb hb'
      · rcases hdec with ⟨h0', -⟩ | ⟨-, -, y, l, hy, hacc, -⟩
        · exact h0' h0.2
        · obtain rfl := scan_unique hscan hy (not_scan_of_none hnone) hacc.stuck
          exact absurd (hnone.symm.trans hacc.1) (by simp)
    · rw [Decides, if_neg hserver] at hdec
      obtain ⟨i, f, start, hlines, -⟩ := hdec
      rw [busSocketAuthVerify, if_neg hserver, busSocketAuthVerifyClient, hlines] at hend
      simp only at hend
      split at hend <;> cases hend
  · exact verify_undecided h hv e n d hdec
  · exact verify_undecided h hreads.2.2.1 e n d hdec
  · exact verify_undecided h hreads.2.2.1 e n d hdec

/-! ## What is written -/

/-- Nothing but answers has been put behind what is to write. -/
def Says (c : AuthConfig) (a b : AuthBus) : Prop :=
  ∃ new, b.unwritten = a.unwritten ++ new ∧ answerText c b.data = answerText c a.data ++ new

theorem Says.refl (c : AuthConfig) (a : AuthBus) : Says c a a :=
  ⟨[], (List.append_nil _).symm, (List.append_nil _).symm⟩

theorem Says.trans {b b' : AuthBus} (h : Says c a b) (h' : Says c b b') : Says c a b' := by
  obtain ⟨new, hun, htext⟩ := h
  obtain ⟨new', hun', htext'⟩ := h'
  refine ⟨new ++ new', ?_, ?_⟩
  · rw [hun', hun, List.append_assoc]
  · rw [htext', htext, List.append_assoc]

theorem says_answer (l : Nat) : Says c a (a.answer c l) := by
  have hreplies := command_replies c a.data (authCommand (a.line l))
  refine ⟨_, rfl, ?_⟩
  rw [answerText, answerText, AuthBus.answer]
  simp only [hreplies, List.drop_left, List.flatMap_append]

theorem says_verifyServerLoop (fuel : Nat) : ∀ {processed : Bool} {a : AuthBus},
    Says c a (verifyServerLoop c fuel processed a).2 := by
  induction fuel with
  | zero => exact Says.refl c _
  | succ fuel ih =>
    intro processed a
    simp only [verifyServerLoop]
    split
    · exact Says.refl c a
    · split
      · split
        · exact Says.refl c a
        · exact Says.refl c a
      · exact (says_answer _).trans ih

theorem says_verify (hserver : c.isServer = true) : Says c a (busSocketAuthVerify c a).2 := by
  rw [busSocketAuthVerify, if_pos hserver]
  unfold busSocketAuthVerifyServer
  split
  · exact Says.refl c a
  · split
    · exact Says.refl c a
    · split
      · exact Says.refl c a
      · simp only
        refine Says.trans ?_ (says_verifyServerLoop _)
        split <;> exact Says.refl c a

theorem client_verify_unwritten (hclient : c.isServer = false) :
    (busSocketAuthVerify c a).2.unwritten = a.unwritten := by
  rw [busSocketAuthVerify, if_neg (by simp [hclient]), busSocketAuthVerifyClient]
  split
  · rfl
  · split <;> rfl

/-- A call writes, or it verifies what has been received, before a read and after it. -/
theorem process_writes {I : AuthBus → Prop} (wk : Nat × Nat) (hend : a.ended = none)
    (hverify : ∀ b : AuthBus, I b → I (busSocketAuthVerify c b).2)
    (hkeep : ∀ b b' : AuthBus, I b → b'.unwritten = b.unwritten → b'.data = b.data → I b')
    (ha : I a) : a.sends wk.1 = a.unwritten.take wk.1 ∧
      (busSocketProcessAuthenticating c wk a = { a with unwritten := a.unwritten.drop wk.1 } ∨
        a.sends wk.1 = [] ∧ I (busSocketProcessAuthenticating c wk a)) := by
  have hsends : a.sends wk.1 = a.unwritten.take wk.1 := if_pos hend
  refine ⟨hsends, ?_⟩
  by_cases hw : a.unwritten ≠ [] ∧ wk.1 ≠ 0
  · rw [busSocketProcessAuthenticating, if_neg (not_not.mpr hend), if_pos hw]
    exact .inl rfl
  · refine .inr ⟨?_, ?_⟩
    · rw [hsends, List.take_eq_nil_iff]
      by_contra hboth
      rw [not_or] at hboth
      exact hw hboth.symm
    · rcases processAuthenticating_cases c wk a with ⟨hne, -⟩ | ⟨-, hun, hwk, -⟩ | ⟨-, -, hs⟩ |
        ⟨-, -, -, hs⟩ | ⟨-, -, hs⟩ | ⟨-, -, hs⟩
      · exact absurd hend hne
      · exact absurd ⟨hun, hwk⟩ hw
      · rw [hs]
        exact hverify a ha
      · rw [hs]
        exact hkeep _ _ (hverify a ha) rfl rfl
      · rw [hs]
        exact hverify a ha
      · rw [hs]
        exact hverify _ (hkeep _ _ (hverify a ha) rfl rfl)

theorem process_over (wk : Nat × Nat) (h : a.ended ≠ none) :
    busSocketProcessAuthenticating c wk a = a ∧ a.sends wk.1 = [] := by
  rw [busSocketProcessAuthenticating, if_pos h, AuthBus.sends, if_neg h]
  exact ⟨rfl, rfl⟩

theorem server_answers (hserver : c.isServer = true) (wk : Nat × Nat) {X : Bytes}
    (h : X ++ a.unwritten = answerText c a.data) (hend : a.ended = none) :
    X ++ a.sends wk.1 ++ (busSocketProcessAuthenticating c wk a).unwritten =
      answerText c (busSocketProcessAuthenticating c wk a).data := by
  obtain ⟨hsends, hs | ⟨hnil, new, hun, htext⟩⟩ := process_writes (c := c) (I := Says c a) wk hend
    (fun b hb => hb.trans (says_verify hserver))
    (fun b b' hb hun hdata => by
      unfold Says
      rw [hun, hdata]
      exact hb) (Says.refl c a)
  · rw [hs, hsends, List.append_assoc, List.take_append_drop]
    exact h
  · rw [hnil, List.append_nil, hun, htext, ← h, List.append_assoc]

theorem client_writes (hclient : c.isServer = false) (wk : Nat × Nat) :
    a.sends wk.1 ++ (busSocketProcessAuthenticating c wk a).unwritten = a.unwritten := by
  by_cases hend : a.ended = none
  · obtain ⟨hsends, hs | ⟨hnil, hun⟩⟩ := process_writes (c := c)
      (I := fun b => b.unwritten = a.unwritten) wk hend
      (fun b hb => (client_verify_unwritten hclient).trans hb)
      (fun b b' hb hun _ => hun.trans hb) rfl
    · rw [hs, hsends, List.take_append_drop]
    · rw [hnil, hun, List.nil_append]
  · rw [(process_over wk hend).1, (process_over (c := c) wk hend).2, List.nil_append]

theorem scan_replies {R : Bytes} {x y : ScanPoint} (h : ReflTransGen (Scan c R) x y) :
    x.2.replies <+: y.2.replies := by
  induction h with
  | refl => exact List.prefix_rfl
  | tail _ hstep ih =>
    obtain ⟨l, -, -, rfl⟩ := hstep
    exact ih.trans ⟨_, (command_replies ..).symm⟩

/-- An end that waits has given some of the answers to the whole stream. -/
theorem Waiting.replies {S u R : Bytes} {y : ScanPoint} (h : Waiting c S a)
    (hserver : c.isServer = true) (hS : S ++ u = R) (hy : ReflTransGen (Scan c R) scanStart y)
    (hstuck : ∀ z, ¬ Scan c R y z) : a.data.replies <+: y.2.replies := by
  have hscan := h.scanned
  rw [LinesScanned, if_pos hserver] at hscan
  rcases hscan with ⟨-, hd⟩ | ⟨-, -, hscan⟩
  · rw [hd]
    exact List.nil_prefix
  · have hfar : ReflTransGen (Scan c R) scanStart (a.authRbegin, a.data) := by
      rw [← hS, ← h.stream, List.append_assoc]
      exact scan_append hscan _
    rcases hfar.total_of_right_unique (scan_rightUnique c R) hy with hxy | hyx
    · exact scan_replies (x := (a.authRbegin, a.data)) hxy
    · rcases hyx.cases_head with rfl | ⟨z, hz, -⟩
      · exact List.prefix_rfl
      · exact absurd hz (hstuck z)

end

/-! ## Every step -/

structure Peers.Ok (s c : AuthConfig) (euid : Nat) (p : Peers) : Prop where
  onServer : OnWay s p.toServer p.server
  onClient : OnWay c p.toClient p.client
  hello : p.toServer ++ p.client.unwritten = startAuthClient c euid ++ p.clientSent
  answers : p.toClient ++ p.server.unwritten = answerText s p.server.data ++ p.serverSent
  clientTalks : p.clientSent ≠ [] → Admits s c euid ∧ p.client.mayTalk = true
  serverTalks : p.serverSent ≠ [] → p.server.mayTalk = true

theorem mayTalk_iff {a : AuthBus} :
    a.mayTalk = true ↔ a.ended = some .running ∧ a.unwritten = [] := by
  simp [AuthBus.mayTalk]

theorem drop_eq_rest {S u R T : Bytes} (h : S ++ u = R ++ T) (hle : R.length ≤ S.length)
    (hT : T ≠ [] → u = []) : S.drop R.length = T := by
  have hdrop := congrArg (List.drop R.length) h
  rw [List.drop_append_of_le_length hle, List.drop_left] at hdrop
  by_cases hnil : T = []
  · rw [hnil] at hdrop ⊢
    exact (List.append_eq_nil_iff.mp hdrop).1
  · rwa [hT hnil, List.append_nil] at hdrop

section
variable {s c : AuthConfig} {euid : Nat} {p : Peers}

/-- The part of the answers that is still to be given, as one of a client that is let in or not. -/
theorem Peers.Ok.answers_rest (h : p.Ok s c euid) {d : AuthData}
    (hpre : p.server.data.replies <+: d.replies)
    (hfull : p.serverSent ≠ [] → p.server.data.replies = d.replies) :
    ∃ u, p.toClient ++ u = answerText s d ++ p.serverSent ∧ (p.serverSent ≠ [] → u = []) := by
  obtain ⟨later, hlater⟩ := hpre
  refine ⟨p.server.unwritten ++ later.flatMap (·.text s.serverId), ?_, fun hne => ?_⟩
  · rw [← List.append_assoc, h.answers, answerText, answerText, ← hlater, List.flatMap_append]
    by_cases hne : p.serverSent = []
    · rw [hne, List.append_nil, List.append_nil]
    · rw [List.self_eq_append_right.mp ((hfull hne).trans hlater.symm), List.flatMap_nil,
        List.append_nil, List.append_nil]
  · rw [List.self_eq_append_right.mp ((hfull hne).trans hlater.symm), List.flatMap_nil,
      (mayTalk_iff.mp (h.serverTalks hne)).2]
    rfl

variable (hclient : c.isServer = false) (hserver : s.isServer = true) (hid : Expects c s)
  (huid : euid < 2 ^ 32) (hvalid : uidIsValid euid = true)

include hserver huid hvalid

theorem Peers.Ok.server_admits (h : p.Ok s c euid) (hadm : Admits s c euid)
    (hne : p.server.ended ≠ none) : p.server.ended = some .running ∧
      p.server.data = agreed s c ∧ p.server.rbuffer ++ p.server.input = p.clientSent := by
  obtain ⟨hend, hrest⟩ := h.onServer.decided hne h.hello (length_startAuthClient huid).le
    (server_decides hserver huid hvalid hadm)
  obtain ⟨hdata, hle, hbuf⟩ := hrest rfl
  refine ⟨hend, hdata, hbuf.trans (drop_eq_rest h.hello hle fun hT => ?_)⟩
  exact (mayTalk_iff.mp (h.clientTalks hT).2).2

theorem Peers.Ok.server_refuses (h : p.Ok s c euid) (hadm : ¬Admits s c euid) :
    p.server.ended = none := by
  have hnil : p.clientSent = [] := by
    by_contra hne
    exact hadm (h.clientTalks hne).1
  have hello := h.hello
  rw [hnil, List.append_nil] at hello
  rcases h.onServer with hw | ⟨⟨R, t, e, n, d, hS, -, -, hd, -⟩ | ⟨hend, -⟩, hfull⟩
  · exact hw.ended
  · rw [← hS, List.append_assoc] at hello
    have hd' := hd.append (t ++ p.client.unwritten)
    rw [hello, Decides, if_pos hserver] at hd'
    rcases hd' with ⟨h0, -⟩ | ⟨-, -, y, l, hy, hacc, -⟩
    · exact absurd rfl h0
    · obtain ⟨x, hx, hnone, -⟩ := scan_refused huid hvalid hadm
      obtain rfl := scan_unique hx hy (not_scan_of_none hnone) hacc.stuck
      exact absurd (hnone.symm.trans hacc.1) (by simp)
  · have hle := congrArg List.length hello
    have hlt := length_startAuthClient (c := c) huid
    rw [List.length_append] at hle
    have := hfull hend
    omega

theorem Peers.Ok.answers_admitted (h : p.Ok s c euid) (hadm : Admits s c euid) :
    ∃ u, p.toClient ++ u = answerText s (agreed s c) ++ p.serverSent ∧
      (p.serverSent ≠ [] → u = []) := by
  by_cases hne : p.server.ended = none
  · have hw := h.onServer.waiting hne
    obtain ⟨x, hx, hacc, -, hxd⟩ := scan_admitted huid hvalid hadm
    refine h.answers_rest ?_ fun hsent => ?_
    · rw [← hxd]
      exact hw.replies hserver h.hello (scan_append hx _) (hacc.append _).stuck
    · have hrun := (mayTalk_iff.mp (h.serverTalks hsent)).1
      rw [hne] at hrun
      cases hrun
  · obtain ⟨-, hdata, -⟩ := h.server_admits hserver huid hvalid hadm hne
    rw [← hdata]
    exact h.answers_rest List.prefix_rfl fun _ => rfl

include hclient

theorem Peers.Ok.client_refused (h : p.Ok s c euid) (hadm : ¬Admits s c euid)
    (hne : p.client.ended ≠ none) : p.client.ended = some (.failed .eperm) := by
  have hnone := h.server_refuses hserver huid hvalid hadm
  have hw := h.onServer.waiting hnone
  obtain ⟨x, hx, hstuck, hxd⟩ := scan_refused huid hvalid hadm
  have hnil : p.clientSent = [] := by
    by_contra hsent
    exact hadm (h.clientTalks hsent).1
  have hello := h.hello
  rw [hnil, List.append_nil] at hello
  obtain ⟨u, hu, -⟩ := h.answers_rest (hxd ▸ hw.replies hserver hello hx (not_scan_of_none hstuck))
    fun hsent => by
      have hrun := (mayTalk_iff.mp (h.serverTalks hsent)).1
      rw [hnone] at hrun
      cases hrun
  obtain ⟨n, d, hd⟩ := client_refuses (c := c) (s := s) hclient
  exact (h.onClient.decided hne hu (length_refusedText s c) hd).1

theorem Peers.Ok.step (h : p.Ok s c euid) {op : PeerOp} (hfit : p.Fits s c op) :
    (p.step s c op).Ok s c euid := by
  -- an end that may talk is over, and a call of it does nothing
  have hover : ∀ {c : AuthConfig} {a : AuthBus} (wk : Nat × Nat), a.mayTalk = true →
      busSocketProcessAuthenticating c wk a = a ∧ a.sends wk.1 = [] := fun wk htalk =>
    process_over wk (by simp [(mayTalk_iff.mp htalk).1])
  cases op with
  | server wk =>
    refine ⟨h.onServer.step hfit, h.onClient.hears _, h.hello, ?_, h.clientTalks, fun hsent => ?_⟩
    · by_cases hend : p.server.ended = none
      · have hnil : p.serverSent = [] := by
          by_contra hsent
          have hrun := (mayTalk_iff.mp (h.serverTalks hsent)).1
          rw [hend] at hrun
          cases hrun
        have hanswers := h.answers
        rw [hnil, List.append_nil] at hanswers
        change p.toClient ++ p.server.sends wk.1 ++
          (busSocketProcessAuthenticating s wk p.server).unwritten =
          answerText s (busSocketProcessAuthenticating s wk p.server).data ++ p.serverSent
        rw [hnil, List.append_nil]
        exact server_answers hserver wk hanswers hend
      · obtain ⟨hsame, hsends⟩ := process_over (c := s) wk hend
        simp only [Peers.step, hsame, hsends, List.append_nil]
        exact h.answers
    · simp only [Peers.step, (hover (c := s) wk (h.serverTalks hsent)).1]
      exact h.serverTalks hsent
  | client wk =>
    refine ⟨h.onServer.hears _, h.onClient.step hfit, ?_, h.answers, fun hsent => ?_, h.serverTalks⟩
    · change p.toServer ++ p.client.sends wk.1 ++
        (busSocketProcessAuthenticating c wk p.client).unwritten = _
      rw [List.append_assoc, client_writes hclient]
      exact h.hello
    · obtain ⟨hadm, htalk⟩ := h.clientTalks hsent
      refine ⟨hadm, ?_⟩
      simp only [Peers.step, (hover (c := c) wk htalk).1]
      exact htalk
  | serverSends t =>
    rw [Peers.step]
    split
    · rename_i htalk
      have hanswers := h.answers
      rw [(mayTalk_iff.mp htalk).2, List.append_nil] at hanswers
      refine ⟨h.onServer, h.onClient.hears t, h.hello, ?_, h.clientTalks, fun _ => htalk⟩
      change p.toClient ++ t ++ p.server.unwritten = _ ++ (p.serverSent ++ t)
      rw [(mayTalk_iff.mp htalk).2, List.append_nil, hanswers, List.append_assoc]
    · exact h
  | clientSends t =>
    rw [Peers.step]
    split
    · rename_i htalk
      obtain ⟨hrun, hun⟩ := mayTalk_iff.mp htalk
      have hello := h.hello
      rw [hun, List.append_nil] at hello
      refine ⟨h.onServer.hears t, h.onClient, ?_, h.answers, fun _ => ⟨?_, htalk⟩, h.serverTalks⟩
      · change p.toServer ++ t ++ p.client.unwritten = _ ++ (p.clientSent ++ t)
        rw [hun, List.append_nil, hello, List.append_assoc]
      · by_contra hadm
        have hfail := h.client_refused hclient hserver huid hvalid hadm (by simp [hrun])
        rw [hrun] at hfail
        cases hfail
    · exact h

include hid

theorem Peers.Ok.client_admitted (h : p.Ok s c euid) (hadm : Admits s c euid)
    (hne : p.client.ended ≠ none) : p.client.Runs s c p.serverSent := by
  obtain ⟨u, hu, hnil⟩ := h.answers_admitted hserver huid hvalid hadm
  obtain ⟨hend, hrest⟩ := h.onClient.decided hne hu (length_agreedText hid)
    (client_decides hclient hid)
  obtain ⟨hdata, hle, hbuf⟩ := hrest rfl
  exact ⟨hend, by rw [hdata]; rfl, by rw [hdata]; rfl, hbuf.trans (drop_eq_rest hu hle hnil)⟩

theorem Peers.Ok.agree (h : p.Ok s c euid) : p.Agree s c euid := by
  have hadmits : p.server.ended ≠ none → Admits s c euid := fun hne => by
    by_contra hadm
    exact hne (h.server_refuses hserver huid hvalid hadm)
  refine ⟨fun hne => ?_, fun hadm hne => ?_, fun hadm hne => ?_, ?_⟩
  · obtain ⟨hend, hdata, hrest⟩ := h.server_admits hserver huid hvalid (hadmits hne) hne
    exact ⟨hadmits hne, hend, by rw [hdata]; rfl, by rw [hdata]; rfl, hrest⟩
  · exact h.client_admitted hclient hserver hid huid hvalid hadm hne
  · exact h.client_refused hclient hserver huid hvalid hadm hne
  · intro hadm hin hin' hun hun' hstop
    have hstopS : busSocketProcessAuthenticating s (0, 0) p.server = p.server :=
      congrArg Peers.server (hstop (0, 0)).1
    have hstopC : busSocketProcessAuthenticating c (0, 0) p.client = p.client :=
      congrArg Peers.client (hstop (0, 0)).2
    have hserverOver : p.server.ended ≠ none := by
      intro hnone
      have hw := h.onServer.waiting hnone
      have hstream := hw.stream
      have hello := h.hello
      rw [hin, List.append_nil] at hstream
      rw [hun', List.append_nil] at hello
      rw [hello] at hw hstream
      refine hw.ends (server_decides hserver huid hvalid hadm) ?_ hun (0, 0) ?_ ?_
      · rw [hstream, List.length_append]
        exact Nat.le_add_right _ _
      · rw [hstopS, hnone]
      · rw [hstopS, hun]
    refine ⟨hserverOver, fun hnone => ?_⟩
    obtain ⟨-, hdata, -⟩ := h.server_admits hserver huid hvalid hadm hserverOver
    have hw := h.onClient.waiting hnone
    have hstream := hw.stream
    have hanswers := h.answers
    rw [hin', List.append_nil] at hstream
    rw [hun, List.append_nil, hdata] at hanswers
    rw [hanswers] at hw hstream
    refine hw.ends (client_decides hclient hid) ?_ hun' (0, 0) ?_ ?_
    · rw [hstream, List.length_append]
      exact Nat.le_add_right _ _
    · rw [hstopC, hnone]
    · rw [hstopC, hun']

end

theorem Peers.fits {s c : AuthConfig} (hs : s.zephyr = false) (hc : c.zephyr = false)
    (ops : List PeerOp) : ∀ p : Peers, StepsAll (Peers.step s c) (Peers.Fits s c) p ops := by
  have hroom : ∀ {c : AuthConfig} (a : AuthBus) wk, c.zephyr = false → a.Fits c wk := by
    intro c a wk hc _
    simp only [AuthBus.recvSize, hc, Bool.false_eq_true, if_false]
    omega
  induction ops with
  | nil => exact fun _ => trivial
  | cons op ops ih =>
    refine fun p => ⟨?_, ih _⟩
    cases op with
    | server wk => exact hroom _ wk hs
    | client wk => exact hroom _ wk hc
    | serverSends t => exact trivial
    | clientSends t => exact trivial

end Basu
