import Basu.Hex.Unhexmem
import Basu.Json.Faithful
import Basu.Socket.Reply

/-! What a client says to a server (`bus_socket_start_auth_client`), what a server of the library
makes of it, and what the client makes of the answers. -/

namespace Basu
open Lib
open Relation

def authToken (c : AuthConfig) (euid : Nat) : Bytes :=
  if c.anonymousAuth then str "anonymous" else decimal (if c.zephyr then 0 else euid)

def authLine (c : AuthConfig) (euid : Nat) : Bytes :=
  (if c.anonymousAuth then wordAuthAnonymous else wordAuthExternal) ++
    32 :: (authToken c euid).flatMap hexPair

def authLines (c : AuthConfig) (euid : Nat) : List Bytes :=
  authLine c euid :: if c.acceptFd then [wordNegotiateUnixFd] else []

def startAuthClient (c : AuthConfig) (euid : Nat) : Bytes :=
  clientStream (authLines c euid ++ [wordBegin])

def mechanismOf (c : AuthConfig) : BusAuth := if c.anonymousAuth then .anonymous else .external

def Admits (s c : AuthConfig) (euid : Nat) : Prop :=
  if c.anonymousAuth then s.anonymousAuth = true
  else s.anonymousAuth = true ∨
    (if s.zephyr then some 0 else s.ucred) = some (if c.zephyr then 0 else euid)

theorem isDigit_bounds {c : Char} (h : c.isDigit = true) : 48 ≤ c.toNat ∧ c.toNat ≤ 57 := by
  rw [Char.isDigit, Bool.and_eq_true, decide_eq_true_iff, decide_eq_true_iff] at h
  exact h

theorem digitValue_digit {c : Char} (h : c.isDigit = true) :
    digitValue 10 c.toNat.toUInt8 = some (c.toNat - '0'.toNat) := by
  have hall : ∀ n < 58, 48 ≤ n → digitValue 10 (Nat.toUInt8 n) = some (n - 48) := by decide
  obtain ⟨hlo, hhi⟩ := isDigit_bounds h
  exact hall c.toNat (by omega) hlo

theorem strtoulDigits_toDigits (cs : List Char) : ∀ {v : Nat}, (∀ c ∈ cs, c.isDigit = true) →
    strtoulDigits 10 v (cs.map fun c => c.toNat.toUInt8) = (Nat.ofDigitChars 10 cs v, []) := by
  induction cs with
  | nil => exact fun _ => rfl
  | cons c cs ih =>
    intro v h
    rw [List.map_cons, strtoulDigits, digitValue_digit (h c (List.mem_cons_self ..))]
    simp only
    rw [ih fun c' hc => h c' (List.mem_cons_of_mem _ hc), Nat.ofDigitChars_cons, Nat.mul_comm]

theorem safeAtou_decimal {u : Nat} (h : u < 2 ^ 32) : safeAtou (decimal u) = some u := by
  by_cases hu : u = 0
  · subst hu
    decide
  have hdigits := (intDigits_toDigits u).1.2
  have hhead := toDigits_head (Nat.pos_of_ne_zero hu)
  have hvalue := strtoulDigits_toDigits (Nat.toDigits 10 u) (v := 0) hdigits
  rw [Nat.ofDigitChars_ten_toDigits, ← decimal] at hvalue
  cases hcs : Nat.toDigits 10 u with
  | nil => exact absurd hcs Nat.toDigits_ne_nil
  | cons c cs =>
    rw [hcs] at hdigits hhead
    have hc := hdigits c (List.mem_cons_self ..)
    -- a first digit that is not '0' is no blank and no sign, and the base is 10
    have hfirst : ∀ n < 58, 49 ≤ n → isBlank (Nat.toUInt8 n) = false ∧
        isSpace (Nat.toUInt8 n) = false ∧ Nat.toUInt8 n ≠ 45 ∧ Nat.toUInt8 n ≠ 43 ∧
        Nat.toUInt8 n ≠ 48 ∧ (digitValue 10 (Nat.toUInt8 n)).isNone = false := by decide
    have hne : c.toNat ≠ 48 := fun h0 =>
      hhead (congrArg some (Char.toNat_inj.mp h0))
    obtain ⟨hblank, hspace, hminus, hplus, hzero, hdigit⟩ :=
      hfirst c.toNat (by have := isDigit_bounds hc; omega) (by have := isDigit_bounds hc; omega)
    have hd : decimal u = c.toNat.toUInt8 :: cs.map fun c => c.toNat.toUInt8 := by
      rw [decimal, hcs, List.map_cons]
    have hbase : strtoulBase (decimal u) = (10, decimal u) := by
      rw [strtoulBase, hd]
      simp only [charAt, List.getD_cons_zero]
      rw [if_neg fun h => hzero h.1, if_neg hzero]
    have hat : charAt (decimal u) 0 = c.toNat.toUInt8 := by rw [hd]; rfl
    have hdrop : ∀ p : UInt8 → Bool, p c.toNat.toUInt8 = false →
        (decimal u).dropWhile p = decimal u := fun p hp => by
      rw [hd, List.dropWhile_cons, hp]
      rfl
    unfold safeAtou
    simp only [hdrop (fun c => isBlank c && c ≠ 0) (by simp [hblank]), hdrop isSpace hspace, hat,
      hminus, hplus, or_self, if_false, hbase, hvalue, hdigit, Bool.false_eq_true]
    rw [if_neg (by omega), if_neg (by simp), if_neg (by omega)]

theorem isLine_of_no_cr (line : Bytes) : 13 ∉ line → IsLine line := by
  induction line with
  | nil => exact fun _ => rfl
  | cons b line ih =>
    intro h
    obtain ⟨hb, hline⟩ := not_or.mp (mt List.mem_cons.mpr h)
    rw [IsLine, List.cons_append, memmemCrlf, if_neg fun hc => hb hc.1.symm, ih hline]
    rfl

/-- Lines without a `BEGIN` among them are answered one after the other. -/
theorem scan_clientStream {c : AuthConfig} (lines : List Bytes) (t : Bytes) :
    (∀ line ∈ lines, IsLine line ∧ authCommand line ≠ .begin) →
    ReflTransGen (Scan c (clientStream lines ++ t)) scanStart
      ((clientStream lines).length, lines.foldl (AuthData.read c) {}) := by
  induction lines using List.reverseRecOn generalizing t with
  | nil => exact fun _ => .refl
  | append_singleton lines line ih =>
    intro h
    obtain ⟨hline, hnb⟩ := h line (by simp)
    have hstream : clientStream (lines ++ [line]) ++ t =
        clientStream lines ++ (line ++ [13, 10] ++ t) := by
      simp [clientStream, List.flatMap_append]
    have hfound : memmemCrlf ((clientStream (lines ++ [line]) ++ t).drop
        (clientStream lines).length) = some line.length := by
      rw [hstream, List.drop_left]
      exact memmemCrlf_append t hline
    have htake : ((clientStream (lines ++ [line]) ++ t).drop
        (clientStream lines).length).take line.length = line := by
      rw [hstream, List.drop_left, List.append_assoc, List.take_left]
    refine ReflTransGen.tail (b := ((clientStream lines).length, lines.foldl (AuthData.read c) {}))
      ?_ ⟨line.length, hfound, fun hacc => ?_, ?_⟩
    · rw [hstream]
      exact ih _ fun l hl => h l (by simp [hl])
    · rw [Accepts, htake] at hacc
      exact hnb hacc.2.1
    · rw [htake, List.foldl_append]
      simp [clientStream, List.flatMap_append, AuthData.read, Nat.add_assoc]
      omega

/-- Both ends: what a server makes of the lines of a client it lets in. -/
def agreed (s c : AuthConfig) : AuthData where
  auth := some (mechanismOf c)
  canFds := c.acceptFd && s.acceptFd
  replies := .ok (mechanismOf c) ::
    if c.acceptFd then [if s.acceptFd then .agreeUnixFd else .error] else []

section
variable {s c : AuthConfig} {euid : Nat}

theorem authCommand_authLine (c : AuthConfig) (euid : Nat) : authCommand (authLine c euid) =
    .auth (mechanismOf c) (32 :: (authToken c euid).flatMap hexPair) := by
  unfold authLine mechanismOf
  cases c.anonymousAuth
  · simp [authCommand, lineBegins, wordAuthExternal, wordAuthAnonymous, charAt]
  · simp [authCommand, lineBegins, wordAuthAnonymous, charAt]

theorem tokenBytes_hexText {token : Bytes} (h : token.contains 0 = false) :
    tokenBytes (32 :: token.flatMap hexPair) = some token := by
  have hlen : (token.flatMap hexPair).length % 2 = 0 := by
    rw [Hex.length_hexText]
    omega
  simp only [tokenBytes, List.drop_one, List.tail_cons, hlen, Hex.unhexmem_hexPair, h, ne_eq,
    not_true_eq_false, if_false, Bool.false_eq_true]

theorem decimal_clean (u : Nat) : (decimal u).contains 0 = false := by
  by_contra h
  rw [Bool.not_eq_false, List.contains_iff_mem, decimal, List.mem_map] at h
  obtain ⟨c, hc, h0⟩ := h
  have hall : ∀ n < 58, 48 ≤ n → Nat.toUInt8 n ≠ 0 := by decide
  obtain ⟨hlo, hhi⟩ := isDigit_bounds ((intDigits_toDigits u).1.2 c hc)
  exact hall c.toNat (by omega) hlo h0

theorem verifyToken_authToken (huid : euid < 2 ^ 32) (hvalid : uidIsValid euid = true) :
    verifyToken s (mechanismOf c) (32 :: (authToken c euid).flatMap hexPair) = true ↔
      Admits s c euid := by
  have hparse : parseUid (decimal (if c.zephyr then 0 else euid)) =
      some (if c.zephyr then 0 else euid) := by
    cases c.zephyr
    · rw [parseUid, if_neg Bool.false_ne_true, safeAtou_decimal huid, Option.bind_some,
        if_pos hvalid]
    · rw [parseUid, if_pos rfl, safeAtou_decimal (by decide), Option.bind_some, if_pos (by decide)]
  unfold mechanismOf authToken Admits
  cases c.anonymousAuth
  · simp only [verifyToken, verifyExternalToken, Bool.false_eq_true, if_false, reduceCtorEq,
      tokenBytes_hexText (decimal_clean _), hparse]
    generalize (if c.zephyr then 0 else euid) = u
    cases s.zephyr <;> cases s.anonymousAuth <;> cases s.ucred <;> simp <;> exact eq_comm
  · simp only [verifyToken, verifyAnonymousToken, if_true, reduceCtorEq, if_false,
      tokenBytes_hexText (show (str "anonymous").contains 0 = false by decide)]
    cases s.anonymousAuth <;> decide

theorem read_authLines (huid : euid < 2 ^ 32) (hvalid : uidIsValid euid = true)
    (h : Admits s c euid) : (authLines c euid).foldl (AuthData.read s) {} = agreed s c := by
  rw [authLines, List.foldl_cons, AuthData.read, authCommand_authLine, AuthData.command,
    if_pos ((verifyToken_authToken huid hvalid).mpr h), agreed]
  have hneg : authCommand wordNegotiateUnixFd = .negotiateUnixFd := by decide
  cases c.acceptFd
  · rfl
  · cases hfd : s.acceptFd <;> simp [AuthData.read, AuthData.reply, hneg, AuthData.command, hfd]

theorem read_authLines_refused (huid : euid < 2 ^ 32) (hvalid : uidIsValid euid = true)
    (h : ¬Admits s c euid) : (authLines c euid).foldl (AuthData.read s) {} =
      { replies := .rejected :: if c.acceptFd then [.error] else [] } := by
  rw [authLines, List.foldl_cons, AuthData.read, authCommand_authLine, AuthData.command,
    if_neg (mt (verifyToken_authToken huid hvalid).mp h)]
  have hneg : authCommand wordNegotiateUnixFd = .negotiateUnixFd := by decide
  cases c.acceptFd
  · rfl
  · simp [AuthData.read, AuthData.reply, hneg, AuthData.command]

theorem authLines_lines (c : AuthConfig) (euid : Nat) :
    ∀ line ∈ authLines c euid, IsLine line ∧ authCommand line ≠ .begin := by
  intro line hline
  rw [authLines, List.mem_cons] at hline
  rcases hline with rfl | hline
  · refine ⟨isLine_of_no_cr _ fun hcr => ?_, by simp [authCommand_authLine]⟩
    rw [authLine, List.mem_append, List.mem_cons] at hcr
    rcases hcr with hcr | hcr | hcr
    · cases hanon : c.anonymousAuth <;> rw [hanon] at hcr <;> revert hcr <;> decide
    · cases hcr
    · exact absurd (Hex.isSome_of_mem_hexText hcr) (by decide)
  · split at hline
    · rw [List.mem_singleton.mp hline]
      exact ⟨isLine_of_no_cr _ (by decide), by decide⟩
    · cases hline

theorem startAuthClient_eq : startAuthClient c euid =
    clientStream (authLines c euid) ++ (wordBegin ++ [13, 10]) := by
  simp [startAuthClient, clientStream, List.flatMap_append]

theorem scan_admitted (huid : euid < 2 ^ 32) (hvalid : uidIsValid euid = true)
    (h : Admits s c euid) : ∃ x, ReflTransGen (Scan s (startAuthClient c euid)) scanStart x ∧
      Accepts (startAuthClient c euid) x 5 ∧ (startAuthClient c euid).length = x.1 + 5 + 2 ∧
      x.2 = agreed s c := by
  refine ⟨((clientStream (authLines c euid)).length, agreed s c), ?_, ?_, ?_, rfl⟩
  · rw [startAuthClient_eq, ← read_authLines huid hvalid h]
    exact scan_clientStream _ _ (authLines_lines c euid)
  · rw [Accepts, startAuthClient_eq, List.drop_left]
    exact ⟨by decide, by decide, by simp [agreed]⟩
  · rw [startAuthClient_eq, List.length_append]
    rfl

/-- To a client that is not let in the `BEGIN` is one more error. -/
def refusedReplies (c : AuthConfig) : List AuthReply :=
  .rejected :: if c.acceptFd then [.error, .error] else [.error]

theorem scan_refused (huid : euid < 2 ^ 32) (hvalid : uidIsValid euid = true)
    (h : ¬Admits s c euid) : ∃ x, ReflTransGen (Scan s (startAuthClient c euid)) scanStart x ∧
      memmemCrlf ((startAuthClient c euid).drop x.1) = none ∧
      x.2 = { replies := refusedReplies c } := by
  refine ⟨((startAuthClient c euid).length, { replies := refusedReplies c }),
    .tail (b := ((clientStream (authLines c euid)).length,
      (authLines c euid).foldl (AuthData.read s) {})) ?_ ⟨5, ?_, ?_, ?_⟩, ?_, rfl⟩
  · rw [startAuthClient_eq]
    exact scan_clientStream _ _ (authLines_lines c euid)
  · rw [startAuthClient_eq, List.drop_left]
    decide
  · rw [read_authLines_refused huid hvalid h]
    exact fun hacc => hacc.2.2 rfl
  · have hbegin : authCommand ((wordBegin ++ [13, 10]).take 5) = .begin := by decide
    rw [startAuthClient_eq, List.drop_left, List.length_append, hbegin,
      read_authLines_refused huid hvalid h, refusedReplies]
    cases c.acceptFd <;> rfl
  · rw [List.drop_length]
    rfl

theorem server_decides (hserver : s.isServer = true) (huid : euid < 2 ^ 32)
    (hvalid : uidIsValid euid = true) (h : Admits s c euid) :
    Decides s (startAuthClient c euid) .running (startAuthClient c euid).length (agreed s c) := by
  obtain ⟨x, hscan, hacc, hlen, hx⟩ := scan_admitted huid hvalid h
  rw [Decides, if_pos hserver]
  exact .inr ⟨by simp [startAuthClient_eq, clientStream, charAt], rfl, x, 5, hscan, hacc, hlen,
    hx.symm⟩

theorem unhexPairs_hexText (x : Bytes) : unhexPairs (x.flatMap hexPair) = some x := by
  have h := Hex.unhexmem_hexPair x
  rwa [unhexmem, List.filter_eq_self.mpr fun c hc => ?_] at h
  by_contra hb
  have hsome := Hex.isSome_of_mem_hexText hc
  rw [Hex.unhexchar_of_isBlank (by simpa using hb)] at hsome
  cases hsome

def answerText (s : AuthConfig) (d : AuthData) : Bytes := d.replies.flatMap (·.text s.serverId)

def Expects (c s : AuthConfig) : Prop :=
  s.serverId.length = 16 ∧ ((∀ b ∈ c.serverId, b = 0) ∨ c.serverId = s.serverId)

theorem client_decides (hclient : c.isServer = false) (hid : Expects c s) :
    Decides c (answerText s (agreed s c)) .running (answerText s (agreed s c)).length
      { agreed s c with replies := [] } := by
  have hhex : (s.serverId.flatMap hexPair).length = 32 := by
    rw [Hex.length_hexText, hid.1]
  have hok : ∀ t : Bytes, memmemCrlf (wordOk ++ s.serverId.flatMap hexPair ++ [13, 10] ++ t) =
      some 35 := by
    intro t
    have hline := isLine_of_no_cr (wordOk ++ s.serverId.flatMap hexPair) (by
      rw [List.mem_append, not_or]
      exact ⟨by decide, fun h => absurd (Hex.isSome_of_mem_hexText h) (by decide)⟩)
    have h := memmemCrlf_append t hline
    rwa [List.length_append, hhex] at h
  have hpeer : ∀ t : Bytes, peerId (wordOk ++ s.serverId.flatMap hexPair ++ [13, 10] ++ t) =
      some s.serverId := by
    intro t
    rw [peerId, slice, List.append_assoc, List.append_assoc, wordOk]
    simp only [List.cons_append, List.nil_append, List.drop_succ_cons, List.drop_zero]
    rw [← hhex, List.take_left, unhexPairs_hexText]
  rw [Decides, if_neg (by simp [hclient])]
  have hverdict : ∀ (t : Bytes) (f : Option Nat), clientVerdict c
      (wordOk ++ s.serverId.flatMap hexPair ++ [13, 10] ++ t) 35 f = .ok {
        auth := some (mechanismOf c)
        canFds := f.elim false fun f =>
          slice (wordOk ++ s.serverId.flatMap hexPair ++ [13, 10] ++ t) 37 (f - 37) =
            wordAgreeUnixFd } := by
    intro t f
    have hid' : (c.serverId.any (· ≠ 0) && decide (c.serverId ≠ s.serverId)) = false := by
      rcases hid.2 with h | h
      · rw [Bool.and_eq_false_iff]
        exact .inl (List.any_eq_false.mpr fun b hb => by simp [h b hb])
      · simp [h]
    have htake : (wordOk ++ s.serverId.flatMap hexPair ++ [13, 10] ++ t).take 3 = wordOk := rfl
    simp only [clientVerdict, hpeer, hid', htake, ne_eq, not_true_eq_false, Bool.false_eq_true,
      if_false, mechanismOf]
    cases f <;> rfl
  have hslice : ∀ (t : Bytes) (n : Nat),
      slice (wordOk ++ s.serverId.flatMap hexPair ++ [13, 10] ++ t) 37 n = t.take n := by
    intro t n
    rw [slice, List.drop_append_of_le_length (by simp [wordOk, hhex]), List.drop_of_length_le
      (by simp [wordOk, hhex]), List.nil_append]
  cases hfd : c.acceptFd
  · have htext : answerText s (agreed s c) =
        wordOk ++ s.serverId.flatMap hexPair ++ [13, 10] ++ [] := by
      simp [answerText, agreed, hfd, AuthReply.text, wordOk]
    rw [htext]
    refine ⟨35, none, 37, by rw [clientLines, hok]; simp [hfd], .inr ⟨?_, rfl, ?_⟩⟩
    · rw [hverdict]
      simp [agreed, hfd]
    · simp [wordOk, hhex]
  · obtain ⟨line, hline, hagree, htext⟩ : ∃ line, IsLine line ∧
        decide (line = wordAgreeUnixFd) = s.acceptFd ∧ answerText s (agreed s c) =
          wordOk ++ s.serverId.flatMap hexPair ++ [13, 10] ++ (line ++ [13, 10]) := by
      cases hs : s.acceptFd
      · exact ⟨wordError, isLine_of_no_cr _ (by decide), by decide, by
          simp [answerText, agreed, hfd, hs, AuthReply.text, wordOk, wordError]⟩
      · exact ⟨wordAgreeUnixFd, isLine_of_no_cr _ (by decide), by decide, by
          simp [answerText, agreed, hfd, hs, AuthReply.text, wordOk, wordAgreeUnixFd]⟩
    rw [htext]
    have hdrop : (wordOk ++ s.serverId.flatMap hexPair ++ [13, 10] ++ (line ++ [13, 10])).drop 37 =
        line ++ [13, 10] := by
      rw [List.drop_append_of_le_length (by simp [wordOk, hhex]), List.drop_of_length_le
        (by simp [wordOk, hhex]), List.nil_append]
    refine ⟨35, some (37 + line.length), 37 + line.length + 2, ?_, .inr ⟨?_, rfl, ?_⟩⟩
    · rw [clientLines, hok]
      simp only [hfd, if_true, hdrop]
      rw [hline]
    · rw [hverdict]
      simp only [hslice, Nat.add_sub_cancel_left, List.take_left, hagree, agreed, hfd,
        Bool.true_and, Option.elim_some]
    · simp only [List.length_append, hhex]
      simp [wordOk]
      omega

theorem length_startAuthClient (huid : euid < 2 ^ 32) :
    (startAuthClient c euid).length < busAuthSizeMax := by
  have htoken : (authToken c euid).length ≤ 10 := by
    unfold authToken
    cases c.anonymousAuth
    · rw [if_neg Bool.false_ne_true, decimal, List.length_map,
        Nat.length_toDigits_le_iff (by decide) (by decide)]
      split <;> omega
    · rw [if_pos rfl]
      decide
  have hline : (authLine c euid).length ≤ 35 := by
    rw [authLine, List.length_append, List.length_cons, Hex.length_hexText]
    cases c.anonymousAuth <;> simp [wordAuthAnonymous, wordAuthExternal] <;> omega
  rw [startAuthClient, authLines]
  cases c.acceptFd <;>
    simp [clientStream, wordBegin, wordNegotiateUnixFd, busAuthSizeMax] <;> omega

theorem client_refuses (hclient : c.isServer = false) : ∃ n d,
    Decides c (answerText s { replies := refusedReplies c }) (.failed .eperm) n d := by
  refine ⟨0, {}, ?_⟩
  rw [Decides, if_neg (by simp [hclient]), refusedReplies]
  cases hfd : c.acceptFd
  · exact ⟨8, none, 10, by simp [clientLines, hfd, answerText, AuthReply.text, memmemCrlf],
      .inl ⟨.eperm, rfl, rfl, rfl, rfl⟩⟩
  · exact ⟨8, some 15, 17, by simp [clientLines, hfd, answerText, AuthReply.text, memmemCrlf],
      .inl ⟨.eperm, rfl, rfl, rfl, rfl⟩⟩

theorem length_agreedText (hid : Expects c s) :
    (answerText s (agreed s c)).length ≤ busAuthSizeMax := by
  have hhex : (s.serverId.flatMap hexPair).length = 32 := by
    rw [Hex.length_hexText, hid.1]
  unfold answerText agreed
  cases c.acceptFd <;> cases s.acceptFd <;>
    simp [AuthReply.text, hhex, busAuthSizeMax, -List.length_flatMap]

theorem length_refusedText (s c : AuthConfig) :
    (answerText s { replies := refusedReplies c }).length ≤ busAuthSizeMax := by
  unfold answerText refusedReplies
  cases c.acceptFd <;> simp [AuthReply.text, busAuthSizeMax]

end

end Basu
