import Basu.Socket.Auth
import Mathlib.Logic.Relation
import Mathlib.Data.List.Infix

/-! What the authentication phase does with the bytes it gets. As long as every byte that is read is
kept the end of the phase does not depend on how the bytes arrive. -/

namespace Basu
open Lib
open Relation

theorem memmemCrlf_le {l : Nat} : {bs : Bytes} → memmemCrlf bs = some l → l + 2 ≤ bs.length
  | [], h => absurd h (by simp [memmemCrlf])
  | c :: bs, h => by
    simp only [memmemCrlf] at h
    split at h
    · rename_i hc
      cases bs with
      | nil => exact absurd hc.2 (by simp)
      | cons d bs =>
        simp only [Option.some.injEq] at h
        simp only [List.length_cons]
        omega
    · obtain ⟨n, hn, rfl⟩ := Option.map_eq_some_iff.mp h
      have := memmemCrlf_le hn
      simp only [List.length_cons]
      omega

theorem memmemCrlf_append (t : Bytes) {l : Nat} : {bs : Bytes} → memmemCrlf bs = some l →
    memmemCrlf (bs ++ t) = some l
  | [], h => absurd h (by simp [memmemCrlf])
  | c :: bs, h => by
    have hlen := memmemCrlf_le h
    have hhead : (bs ++ t).head? = bs.head? := by
      cases bs with
      | nil => simp only [List.length_cons, List.length_nil] at hlen; omega
      | cons d bs => rfl
    rw [List.cons_append]
    simp only [memmemCrlf, hhead] at h ⊢
    split at h
    · rename_i hc
      rw [if_pos hc]
      exact h
    · rename_i hc
      rw [if_neg hc]
      obtain ⟨n, hn, hl⟩ := Option.map_eq_some_iff.mp h
      rw [memmemCrlf_append t hn]
      exact congrArg some hl

theorem memmemCrlf_drop_append {bs t : Bytes} {p l : Nat}
    (h : memmemCrlf (bs.drop p) = some l) :
    memmemCrlf ((bs ++ t).drop p) = some l ∧
      ((bs ++ t).drop p).take l = (bs.drop p).take l := by
  have hle := memmemCrlf_le h
  rw [List.length_drop] at hle
  rw [List.drop_append_of_le_length (by omega)]
  refine ⟨memmemCrlf_append t h, ?_⟩
  rw [List.take_append_of_le_length]
  rw [List.length_drop]
  omega

/-! ## The lines of a server -/

abbrev ScanPoint := Nat × AuthData

/-- The line of length `l` at this point lets the connection proceed. -/
def Accepts (R : Bytes) (x : ScanPoint) (l : Nat) : Prop :=
  memmemCrlf (R.drop x.1) = some l ∧ authCommand ((R.drop x.1).take l) = .begin ∧ x.2.auth ≠ none

def Scan (c : AuthConfig) (R : Bytes) (x y : ScanPoint) : Prop :=
  ∃ l, memmemCrlf (R.drop x.1) = some l ∧ ¬ Accepts R x l ∧
    y = (x.1 + l + 2, x.2.command c (authCommand ((R.drop x.1).take l)))

def scanStart : ScanPoint := (1, {})

section Scan

variable {c : AuthConfig} {R : Bytes} {x y : ScanPoint} {l : Nat}

theorem Accepts.append (h : Accepts R x l) (t : Bytes) : Accepts (R ++ t) x l := by
  obtain ⟨hl, hb, ha⟩ := h
  obtain ⟨hl', htake⟩ := memmemCrlf_drop_append (t := t) hl
  exact ⟨hl', by rw [htake]; exact hb, ha⟩

theorem Scan.append (h : Scan c R x y) (t : Bytes) : Scan c (R ++ t) x y := by
  obtain ⟨l, hl, hna, rfl⟩ := h
  obtain ⟨hl', htake⟩ := memmemCrlf_drop_append (t := t) hl
  refine ⟨l, hl', fun ha => hna ⟨hl, ?_, ha.2.2⟩, by rw [htake]⟩
  rw [← htake]
  exact ha.2.1

theorem scan_append (h : ReflTransGen (Scan c R) x y) (t : Bytes) :
    ReflTransGen (Scan c (R ++ t)) x y :=
  h.lift id fun _ _ hs => hs.append t

theorem scan_rightUnique (c : AuthConfig) (R : Bytes) : Relator.RightUnique (Scan c R) := by
  rintro x y z ⟨l, hl, -, rfl⟩ ⟨l', hl', -, rfl⟩
  rw [hl] at hl'
  rw [Option.some.inj hl']

theorem scan_unique {x₀ : ScanPoint} (hx : ReflTransGen (Scan c R) x₀ x)
    (hy : ReflTransGen (Scan c R) x₀ y) (hx' : ∀ z, ¬ Scan c R x z) (hy' : ∀ z, ¬ Scan c R y z) :
    x = y := by
  rcases hx.total_of_right_unique (scan_rightUnique c R) hy with h | h
  · rcases h.cases_head with rfl | ⟨z, hz, -⟩
    · rfl
    · exact absurd hz (hx' z)
  · rcases h.cases_head with rfl | ⟨z, hz, -⟩
    · rfl
    · exact absurd hz (hy' z)

theorem Accepts.stuck (h : Accepts R x l) (z : ScanPoint) : ¬ Scan c R x z := by
  rintro ⟨l', hl', hna, -⟩
  rw [h.1] at hl'
  obtain rfl := Option.some.inj hl'
  exact hna h

theorem not_scan_of_none (h : memmemCrlf (R.drop x.1) = none) (z : ScanPoint) :
    ¬ Scan c R x z := by
  rintro ⟨l, hl, -, -⟩
  rw [h] at hl
  exact absurd hl (by simp)

end Scan

/-! ## What a buffer decides -/

def Decides (c : AuthConfig) (R : Bytes) (e : AuthEnd) (n : Nat) (d : AuthData) : Prop :=
  if c.isServer then
    (charAt R 0 ≠ 0 ∧ R ≠ [] ∧ e = .failed .eio ∧ n = 0 ∧ d = {}) ∨
    (charAt R 0 = 0 ∧ e = .running ∧ ∃ x l, ReflTransGen (Scan c R) scanStart x ∧ Accepts R x l ∧
      n = x.1 + l + 2 ∧ d = x.2)
  else
    ∃ i f start, clientLines c R = some (i, f, start) ∧
      ((∃ r, clientVerdict c R i f = .error r ∧ e = .failed r ∧ n = 0 ∧ d = {}) ∨
        (clientVerdict c R i f = .ok d ∧ e = .running ∧ n = start))

theorem charAt_append_of_ne_nil {R : Bytes} (h : R ≠ []) (t : Bytes) :
    charAt (R ++ t) 0 = charAt R 0 := by
  cases R with
  | nil => exact absurd rfl h
  | cons => rfl

theorem clientLines_append {c : AuthConfig} {R : Bytes} {i start : Nat} {f : Option Nat}
    (h : clientLines c R = some (i, f, start)) (t : Bytes) :
    clientLines c (R ++ t) = some (i, f, start) ∧ i + 2 ≤ R.length ∧ start ≤ R.length ∧
      ∀ f' ∈ f, i + 2 ≤ f' ∧ f' + 2 ≤ R.length := by
  unfold clientLines at h ⊢
  split at h
  · exact absurd h (by simp)
  · rename_i e he
    have hle := memmemCrlf_le he
    rw [memmemCrlf_append t he]
    simp only
    split at h
    · rename_i hfd
      rw [if_pos hfd]
      split at h
      · exact absurd h (by simp)
      · rename_i f' hf'
        have hle' := memmemCrlf_le hf'
        rw [List.length_drop] at hle'
        simp only [Option.some.injEq, Prod.mk.injEq] at h
        obtain ⟨rfl, rfl, rfl⟩ := h
        rw [List.drop_append_of_le_length (by omega), memmemCrlf_append t hf']
        refine ⟨rfl, hle, by omega, ?_⟩
        intro g hg
        simp only [Option.mem_def, Option.some.injEq] at hg
        omega
    · rename_i hfd
      rw [if_neg hfd]
      simp only [Option.some.injEq, Prod.mk.injEq] at h
      obtain ⟨rfl, rfl, rfl⟩ := h
      exact ⟨rfl, hle, hle, fun g hg => absurd hg (by simp)⟩

theorem slice_append_of_le {R t : Bytes} {i n : Nat} (h : i + n ≤ R.length) :
    slice (R ++ t) i n = slice R i n := by
  simp only [slice]
  rw [List.drop_append_of_le_length (by omega), List.take_append_of_le_length]
  rw [List.length_drop]
  omega

theorem clientVerdict_append {c : AuthConfig} {R : Bytes} {i : Nat} {f : Option Nat}
    (hi : i + 2 ≤ R.length) (hf : ∀ f' ∈ f, i + 2 ≤ f' ∧ f' + 2 ≤ R.length) (t : Bytes) :
    clientVerdict c (R ++ t) i f = clientVerdict c R i f := by
  unfold clientVerdict
  by_cases h35 : i ≠ 3 + 32
  · rw [if_pos h35, if_pos h35]
  · have h35 : i = 3 + 32 := not_ne_iff.mp h35
    have htake : (R ++ t).take 3 = R.take 3 := List.take_append_of_le_length (by omega)
    have hid : peerId (R ++ t) = peerId R := by
      rw [peerId, peerId, slice_append_of_le (by omega)]
    cases f with
    | none => simp only [htake, hid]
    | some f =>
      have hf := hf f rfl
      have hslice : slice (R ++ t) (i + 2) (f - (i + 2)) = slice R (i + 2) (f - (i + 2)) :=
        slice_append_of_le (by omega)
      simp only [htake, hid, hslice]

theorem Decides.append {c : AuthConfig} {R : Bytes} {e : AuthEnd} {n : Nat} {d : AuthData}
    (h : Decides c R e n d) (t : Bytes) : Decides c (R ++ t) e n d := by
  unfold Decides at h ⊢
  split
  · rename_i hs
    rw [if_pos hs] at h
    rcases h with ⟨h0, hne, hrest⟩ | ⟨h0, he, x, l, hx, hacc, hrest⟩
    · exact Or.inl ⟨by rw [charAt_append_of_ne_nil hne]; exact h0, by simp [hne], hrest⟩
    · have hne : R ≠ [] := by
        rintro rfl
        exact absurd hacc.1 (by simp [memmemCrlf])
      exact Or.inr ⟨by rw [charAt_append_of_ne_nil hne]; exact h0, he, x, l, scan_append hx t,
        hacc.append t, hrest⟩
  · rename_i hs
    rw [if_neg hs] at h
    obtain ⟨i, f, start, hlines, hv⟩ := h
    obtain ⟨hlines', hi, -, hf⟩ := clientLines_append hlines t
    refine ⟨i, f, start, hlines', ?_⟩
    rw [clientVerdict_append hi hf t]
    exact hv

theorem Decides.unique {c : AuthConfig} {R : Bytes} {e e' : AuthEnd} {n n' : Nat}
    {d d' : AuthData} (h : Decides c R e n d) (h' : Decides c R e' n' d') :
    e = e' ∧ n = n' ∧ d = d' := by
  unfold Decides at h h'
  split at h
  · rename_i hs
    rw [if_pos hs] at h'
    rcases h with ⟨h0, -, rfl, rfl, rfl⟩ | ⟨h0, rfl, x, l, hx, hacc, rfl, rfl⟩
    · rcases h' with ⟨-, -, rfl, rfl, rfl⟩ | ⟨h0', -⟩
      · exact ⟨rfl, rfl, rfl⟩
      · exact absurd h0' h0
    · rcases h' with ⟨h0', -⟩ | ⟨-, rfl, x', l', hx', hacc', rfl, rfl⟩
      · exact absurd h0 h0'
      · obtain rfl := scan_unique hx hx' hacc.stuck hacc'.stuck
        have hl := hacc.1.symm.trans hacc'.1
        obtain rfl := Option.some.inj hl
        exact ⟨rfl, rfl, rfl⟩
  · rename_i hs
    rw [if_neg hs] at h'
    obtain ⟨i, f, start, hlines, hv⟩ := h
    obtain ⟨i', f', start', hlines', hv'⟩ := h'
    rw [hlines] at hlines'
    simp only [Option.some.injEq, Prod.mk.injEq] at hlines'
    obtain ⟨rfl, rfl, rfl⟩ := hlines'
    rcases hv with ⟨r, hr, rfl, rfl, rfl⟩ | ⟨hr, rfl, rfl⟩
    · rcases hv' with ⟨r', hr', rfl, rfl, rfl⟩ | ⟨hr', -, -⟩
      · rw [hr] at hr'
        simp only [Except.error.injEq] at hr'
        exact ⟨by rw [hr'], rfl, rfl⟩
      · rw [hr] at hr'
        exact absurd hr' (by simp)
    · rcases hv' with ⟨r', hr', -⟩ | ⟨hr', rfl, rfl⟩
      · rw [hr] at hr'
        exact absurd hr' (by simp)
      · rw [hr] at hr'
        simp only [Except.ok.injEq] at hr'
        exact ⟨rfl, rfl, hr'⟩

/-! ## Verifying keeps every byte -/

def AuthBus.held (s : AuthBus) : Bytes := s.consumed ++ s.rbuffer

def SameBytes (s t : AuthBus) : Prop :=
  t.held = s.held ∧ t.received = s.received ∧ t.input = s.input

theorem SameBytes.refl (s : AuthBus) : SameBytes s s := ⟨rfl, rfl, rfl⟩

theorem SameBytes.trans {s t u : AuthBus} (h : SameBytes s t) (h' : SameBytes t u) :
    SameBytes s u :=
  ⟨h'.1.trans h.1, h'.2.1.trans h.2.1, h'.2.2.trans h.2.2⟩

theorem sameBytes_startRunning (s : AuthBus) (n : Nat) : SameBytes s (s.startRunning n) := by
  refine ⟨?_, rfl, rfl⟩
  simp only [AuthBus.held, AuthBus.startRunning]
  rw [List.append_assoc, List.take_append_drop]

theorem sameBytes_verifyServerLoop (c : AuthConfig) (fuel : Nat) :
    ∀ (processed : Bool) (s : AuthBus), SameBytes s (verifyServerLoop c fuel processed s).2 := by
  induction fuel with
  | zero => exact fun _ s => SameBytes.refl s
  | succ fuel ih =>
    intro processed s
    simp only [verifyServerLoop]
    split
    · exact SameBytes.refl s
    · split
      · split
        · exact SameBytes.refl s
        · exact sameBytes_startRunning s _
      · exact SameBytes.trans ⟨rfl, rfl, rfl⟩ (ih true _)

theorem sameBytes_verify (c : AuthConfig) (s : AuthBus) :
    SameBytes s (busSocketAuthVerify c s).2 := by
  unfold busSocketAuthVerify
  split
  · unfold busSocketAuthVerifyServer
    split
    · exact SameBytes.refl s
    · split
      · exact ⟨rfl, rfl, rfl⟩
      · split
        · exact SameBytes.refl s
        · refine SameBytes.trans ?_ (sameBytes_verifyServerLoop c _ false _)
          split
          · exact ⟨rfl, rfl, rfl⟩
          · exact SameBytes.refl s
  · unfold busSocketAuthVerifyClient
    split
    · exact SameBytes.refl s
    · split
      · exact ⟨rfl, rfl, rfl⟩
      · exact SameBytes.trans ⟨rfl, rfl, rfl⟩ (sameBytes_startRunning _ _)

/-- This call reads from the socket: nothing can be written, no line waits in the buffer and there
is room in it. -/
def AuthBus.Reads (c : AuthConfig) (w : Nat) (s : AuthBus) : Prop :=
  s.ended = none ∧ (s.unwritten = [] ∨ w = 0) ∧ (busSocketAuthVerify c s).1 = false ∧
    s.rbuffer.length < s.bufferSize

def AuthBus.Fits (c : AuthConfig) (wk : Nat × Nat) (s : AuthBus) : Prop :=
  s.Reads c wk.1 → s.recvSize c wk.2 ≤ s.bufferSize - s.rbuffer.length

def AllFit (c : AuthConfig) : List (Nat × Nat) → AuthBus → Prop
  | [], _ => True
  | wk :: wks, s => s.Fits c wk ∧ AllFit c wks (busSocketProcessAuthenticating c wk s)

def AuthBus.Retains (s : AuthBus) : Prop := s.held = s.received

/-- Bytes are missing. -/
def AuthBus.Short (s : AuthBus) : Prop := s.held.length < s.received.length

theorem verifyServerLoop_true (c : AuthConfig) (fuel : Nat) :
    ∀ s : AuthBus, (verifyServerLoop c fuel true s).1 = true := by
  induction fuel with
  | zero => exact fun _ => rfl
  | succ fuel ih =>
    intro s
    simp only [verifyServerLoop]
    split
    · rfl
    · split
      · split <;> rfl
      · exact ih _

theorem verifyServerLoop_false {c : AuthConfig} {fuel : Nat} {s : AuthBus}
    (h : (verifyServerLoop c (fuel + 1) false s).1 = false) :
    memmemCrlf (s.rbuffer.drop s.authRbegin) = none ∧
      (verifyServerLoop c (fuel + 1) false s).2 = s := by
  simp only [verifyServerLoop] at h ⊢
  split
  · rename_i hl
    exact ⟨hl, rfl⟩
  · rename_i l hl
    rw [hl] at h
    simp only at h
    split at h
    · split at h <;> exact absurd h (by simp)
    · rw [verifyServerLoop_true] at h
      exact absurd h (by simp)

theorem verify_false {c : AuthConfig} {s : AuthBus} (h : (busSocketAuthVerify c s).1 = false) :
    (busSocketAuthVerify c s).2 = s ∨
      s.authRbegin = 0 ∧ (busSocketAuthVerify c s).2 = { s with authRbegin := 1 } := by
  unfold busSocketAuthVerify at h ⊢
  split at h
  · rename_i hs
    rw [if_pos hs]
    unfold busSocketAuthVerifyServer at h ⊢
    split
    · exact Or.inl rfl
    · rename_i h1
      rw [if_neg h1] at h
      split
      · rename_i h0
        rw [if_pos h0] at h
        exact absurd h (by simp)
      · rename_i h0
        rw [if_neg h0] at h
        split
        · exact Or.inl rfl
        · rename_i h3
          rw [if_neg h3] at h
          by_cases hb : s.authRbegin = 0
          · simp only [if_pos hb] at h ⊢
            exact Or.inr ⟨hb, (verifyServerLoop_false h).2⟩
          · simp only [if_neg hb] at h ⊢
            exact Or.inl (verifyServerLoop_false h).2
  · rename_i hs
    rw [if_neg hs]
    unfold busSocketAuthVerifyClient at h ⊢
    split
    · exact Or.inl rfl
    · rename_i hl
      rw [hl] at h
      simp only at h
      split at h <;> exact absurd h (by simp)

theorem verify_false_rbuffer {c : AuthConfig} {s : AuthBus}
    (h : (busSocketAuthVerify c s).1 = false) :
    (busSocketAuthVerify c s).2.rbuffer = s.rbuffer := by
  rcases verify_false h with h' | ⟨-, h'⟩ <;> rw [h']

theorem verify_false_sizes {c : AuthConfig} {s : AuthBus}
    (h : (busSocketAuthVerify c s).1 = false) (k : Nat) :
    (busSocketAuthVerify c s).2.bufferSize = s.bufferSize ∧
      (busSocketAuthVerify c s).2.recvSize c k = s.recvSize c k := by
  rcases verify_false h with h' | ⟨-, h'⟩
  · rw [h']
    exact ⟨rfl, rfl⟩
  · rw [h']
    exact ⟨rfl, rfl⟩

theorem processAuthenticating_cases (c : AuthConfig) (wk : Nat × Nat) (s : AuthBus) :
    (s.ended ≠ none ∧ busSocketProcessAuthenticating c wk s = s) ∨
    (s.ended = none ∧ s.unwritten ≠ [] ∧ wk.1 ≠ 0 ∧
      busSocketProcessAuthenticating c wk s = { s with unwritten := s.unwritten.drop wk.1 }) ∨
    (s.ended = none ∧ (busSocketAuthVerify c s).1 = true ∧
      busSocketProcessAuthenticating c wk s = (busSocketAuthVerify c s).2) ∨
    (s.ended = none ∧ (busSocketAuthVerify c s).1 = false ∧ s.bufferSize ≤ s.rbuffer.length ∧
      busSocketProcessAuthenticating c wk s = (busSocketAuthVerify c s).2.fail .enobufs) ∨
    (s.Reads c wk.1 ∧ s.recvSize c wk.2 = 0 ∧
      busSocketProcessAuthenticating c wk s = (busSocketAuthVerify c s).2) ∨
    (s.Reads c wk.1 ∧ s.recvSize c wk.2 ≠ 0 ∧
      busSocketProcessAuthenticating c wk s =
        (busSocketAuthVerify c ((busSocketAuthVerify c s).2.recv (s.recvSize c wk.2))).2) := by
  by_cases hend : s.ended ≠ none
  · exact Or.inl ⟨hend, if_pos hend⟩
  have hended : s.ended = none := not_ne_iff.mp hend
  by_cases hw : s.unwritten ≠ [] ∧ wk.1 ≠ 0
  · refine Or.inr (Or.inl ⟨hended, hw.1, hw.2, ?_⟩)
    rw [busSocketProcessAuthenticating, if_neg hend, if_pos hw]
  have hstep : busSocketProcessAuthenticating c wk s = busSocketReadAuth c wk.2 s := by
    rw [busSocketProcessAuthenticating, if_neg hend, if_neg hw]
  rw [hstep, busSocketReadAuth]
  rcases hv : busSocketAuthVerify c s with ⟨b, s'⟩
  have hs' : (busSocketAuthVerify c s).2 = s' := by rw [hv]
  cases b with
  | true => exact Or.inr (Or.inr (Or.inl ⟨hended, rfl, rfl⟩))
  | false =>
    have hfalse : (busSocketAuthVerify c s).1 = false := by rw [hv]
    obtain ⟨hsize, hrecv⟩ := verify_false_sizes hfalse wk.2
    have hbuf := verify_false_rbuffer hfalse
    rw [hs'] at hsize hrecv hbuf
    simp only [hsize, hrecv, hbuf]
    by_cases hroom : s.bufferSize ≤ s.rbuffer.length
    · rw [if_pos hroom]
      exact Or.inr (Or.inr (Or.inr (Or.inl ⟨hended, trivial, hroom, rfl⟩)))
    · have hreads : s.Reads c wk.1 := by
        refine ⟨hended, ?_, hfalse, not_le.mp hroom⟩
        by_contra hboth
        rw [not_or] at hboth
        exact hw hboth
      rw [if_neg hroom]
      by_cases h0 : s.recvSize c wk.2 = 0
      · rw [if_pos h0]
        exact Or.inr (Or.inr (Or.inr (Or.inr (Or.inl ⟨hreads, h0, rfl⟩))))
      · rw [if_neg h0]
        exact Or.inr (Or.inr (Or.inr (Or.inr (Or.inr ⟨hreads, h0, rfl⟩))))

theorem recv_held (s : AuthBus) (n : Nat) :
    (s.recv n).held = s.held ++ (s.input.take n).take (s.bufferSize - s.rbuffer.length) := by
  simp only [AuthBus.held, AuthBus.recv, List.append_assoc]

theorem recvSize_le_input (c : AuthConfig) (k : Nat) (s : AuthBus) :
    s.recvSize c k ≤ s.input.length := by
  simp only [AuthBus.recvSize]
  omega

theorem processAuthenticating_retains {c : AuthConfig} {wk : Nat × Nat} {s : AuthBus} :
    (s.Retains → s.Fits c wk → (busSocketProcessAuthenticating c wk s).Retains) ∧
    (s.Retains → ¬ s.Fits c wk → (busSocketProcessAuthenticating c wk s).Short) ∧
    (s.Short → (busSocketProcessAuthenticating c wk s).Short) := by
  -- every case but a read leaves the bytes alone
  have hsame : ∀ t, SameBytes s t → (s.Reads c wk.1 → s.recvSize c wk.2 = 0) →
      (s.Retains → s.Fits c wk → t.Retains) ∧ (s.Retains → ¬ s.Fits c wk → t.Short) ∧
        (s.Short → t.Short) := by
    rintro t ⟨hheld, hrec, -⟩ hno
    simp only [AuthBus.Retains, AuthBus.Short, hheld, hrec]
    refine ⟨fun h _ => h, fun _ hfit => absurd ?_ hfit, fun h => h⟩
    intro hreads
    rw [hno hreads]
    exact Nat.zero_le _
  have hverify := sameBytes_verify c s
  rcases processAuthenticating_cases c wk s with ⟨hend, h⟩ | ⟨hend, hu, hw, h⟩ | ⟨hend, hv, h⟩ |
    ⟨hend, hv, hroom, h⟩ | ⟨hreads, h0, h⟩ | ⟨hreads, h0, h⟩
  · rw [h]
    exact hsame s (SameBytes.refl s) fun hr => absurd hr.1 hend
  · rw [h]
    refine hsame _ ⟨rfl, rfl, rfl⟩ fun hr => ?_
    rcases hr.2.1 with hr | hr
    · exact absurd hr hu
    · exact absurd hr hw
  · rw [h]
    refine hsame _ hverify fun hr => ?_
    exact absurd (hr.2.2.1.symm.trans hv) (by simp)
  · rw [h]
    exact hsame _ (hverify.trans ⟨rfl, rfl, rfl⟩) fun hr => absurd hr.2.2.2 (not_lt.mpr hroom)
  · rw [h]
    exact hsame _ hverify fun _ => h0
  · rw [h]
    obtain ⟨hheld, hrec, hin⟩ := hverify
    obtain ⟨hheld', hrec', -⟩ := sameBytes_verify c
      ((busSocketAuthVerify c s).2.recv (s.recvSize c wk.2))
    have hsize := (verify_false_sizes hreads.2.2.1 wk.2).1
    have hbuf := verify_false_rbuffer hreads.2.2.1
    rw [recv_held, hheld, hin, hsize, hbuf] at hheld'
    have hrec'' : ((busSocketAuthVerify c s).2.recv (s.recvSize c wk.2)).received =
        s.received ++ s.input.take (s.recvSize c wk.2) := by
      simp only [AuthBus.recv, hrec, hin]
    rw [hrec''] at hrec'
    have hle := recvSize_le_input c wk.2 s
    simp only [AuthBus.Retains, AuthBus.Short, hheld', hrec', List.length_append, List.length_take]
    refine ⟨fun hs hfit => ?_, fun hs hfit => ?_, fun hs => ?_⟩
    · rw [hs, List.take_of_length_le]
      rw [List.length_take]
      have := hfit hreads
      omega
    · rw [hs]
      have hnot : ¬ s.recvSize c wk.2 ≤ s.bufferSize - s.rbuffer.length :=
        fun hle => hfit fun _ => hle
      omega
    · omega

theorem authRun_cons (c : AuthConfig) (wk : Nat × Nat) (wks : List (Nat × Nat)) (s : AuthBus) :
    authRun c (wk :: wks) s = authRun c wks (busSocketProcessAuthenticating c wk s) := rfl

theorem authRun_short {c : AuthConfig} (wks : List (Nat × Nat)) :
    ∀ {s : AuthBus}, s.Short → (authRun c wks s).Short := by
  induction wks with
  | nil => exact fun h => h
  | cons wk wks ih => exact fun h => ih (processAuthenticating_retains.2.2 h)

theorem authRun_retains_iff {c : AuthConfig} (wks : List (Nat × Nat)) :
    ∀ {s : AuthBus}, s.Retains → ((authRun c wks s).Retains ↔ AllFit c wks s) := by
  induction wks with
  | nil => exact fun h => ⟨fun _ => trivial, fun _ => h⟩
  | cons wk wks ih =>
    intro s h
    rw [authRun_cons]
    by_cases hfit : s.Fits c wk
    · rw [ih (processAuthenticating_retains.1 h hfit)]
      exact ⟨fun hall => ⟨hfit, hall⟩, fun hall => hall.2⟩
    · have hshort := authRun_short (c := c) wks (processAuthenticating_retains.2.1 h hfit)
      refine ⟨fun hret => ?_, fun hall => absurd hall.1 hfit⟩
      rw [AuthBus.Short, hret] at hshort
      exact absurd hshort (lt_irrefl _)

/-! ## The end of the phase -/

def NulFirst (R : Bytes) : Prop := R ≠ [] ∧ charAt R 0 = 0

def LinesScanned (c : AuthConfig) (s : AuthBus) : Prop :=
  if c.isServer then
    s.authRbegin = 0 ∧ s.data = {} ∨
      s.authRbegin ≠ 0 ∧ NulFirst s.rbuffer ∧
        ReflTransGen (Scan c s.rbuffer) scanStart (s.authRbegin, s.data)
  else s.data = {}

structure Waiting (c : AuthConfig) (S : Bytes) (s : AuthBus) : Prop where
  ended : s.ended = none
  consumed : s.consumed = []
  stream : s.rbuffer ++ s.input = S
  size : s.rbuffer.length ≤ busAuthSizeMax
  scanned : LinesScanned c s

inductive Outcome (c : AuthConfig) (S : Bytes) (s : AuthBus) : Prop
  | decided (R t : Bytes) (e : AuthEnd) (n : Nat) (d : AuthData) (stream : R ++ t = S)
      (size : R.length ≤ busAuthSizeMax) (ended : s.ended = some e) (decides : Decides c R e n d)
      (rest : e = .running → s.data = d ∧ s.rbuffer ++ s.input = S.drop n)
  | tooLong (ended : s.ended = some (.failed .enobufs))
      (undecided : ∀ e n d, ¬ Decides c (S.take busAuthSizeMax) e n d)

def OnTrack (c : AuthConfig) (S : Bytes) (s : AuthBus) : Prop := Waiting c S s ∨ Outcome c S s

theorem Outcome.agree {c : AuthConfig} {S : Bytes} {s t : AuthBus} (h : Outcome c S s)
    (h' : Outcome c S t) :
    s.ended = t.ended ∧ (s.ended = some .running →
      s.data = t.data ∧ s.rbuffer ++ s.input = t.rbuffer ++ t.input) := by
  -- a decision made on a short buffer is one on the first bytes of the stream
  have hlong : ∀ {R u : Bytes} {e : AuthEnd} {n : Nat} {d : AuthData}, R ++ u = S →
      R.length ≤ busAuthSizeMax → Decides c R e n d →
      ¬ ∀ e n d, ¬ Decides c (S.take busAuthSizeMax) e n d := by
    rintro R u e n d rfl hsize hd hnone
    refine hnone e n d ?_
    rw [List.take_append, List.take_of_length_le hsize]
    exact hd.append _
  rcases h with ⟨R, u, e, n, d, hS, hsize, hend, hd, hrest⟩ | ⟨hend, hnone⟩
  · rcases h' with ⟨R', u', e', n', d', hS', hsize', hend', hd', hrest'⟩ | ⟨hend', hnone'⟩
    · have h1 : Decides c S e n d := hS ▸ hd.append u
      have h2 : Decides c S e' n' d' := hS' ▸ hd'.append u'
      obtain ⟨rfl, rfl, rfl⟩ := h1.unique h2
      refine ⟨hend.trans hend'.symm, fun hrun => ?_⟩
      have he : e = .running := Option.some.inj (hend.symm.trans hrun)
      exact ⟨(hrest he).1.trans (hrest' he).1.symm, (hrest he).2.trans (hrest' he).2.symm⟩
    · exact absurd hnone' (hlong hS hsize hd)
  · rcases h' with ⟨R', u', e', n', d', hS', hsize', hend', hd', hrest'⟩ | ⟨hend', hnone'⟩
    · exact absurd hnone (hlong hS' hsize' hd')
    · refine ⟨hend.trans hend'.symm, fun hrun => ?_⟩
      exact absurd (hend.symm.trans hrun) (by simp)

theorem verifyServerLoop_onTrack {c : AuthConfig} {S : Bytes} (hserver : c.isServer = true)
    (fuel : Nat) : ∀ {processed : Bool} {s : AuthBus}, Waiting c S s → NulFirst s.rbuffer →
      ReflTransGen (Scan c s.rbuffer) scanStart (s.authRbegin, s.data) →
      OnTrack c S (verifyServerLoop c fuel processed s).2 := by
  induction fuel with
  | zero => exact fun h _ _ => Or.inl h
  | succ fuel ih =>
    intro processed s h h0 hscan
    simp only [verifyServerLoop]
    split
    · exact Or.inl h
    · rename_i l hl
      split
      · rename_i hbegin
        split
        · exact Or.inl h
        · refine Or.inr (Outcome.decided s.rbuffer s.input .running (s.authRbegin + l + 2) s.data
            h.stream h.size rfl ?_ fun _ => ⟨rfl, ?_⟩)
          · rw [Decides, if_pos hserver]
            exact Or.inr ⟨h0.2, rfl, (s.authRbegin, s.data), l, hscan, ⟨hl, hbegin⟩, rfl, rfl⟩
          · have hle := memmemCrlf_le hl
            rw [List.length_drop] at hle
            rw [← h.stream, List.drop_append_of_le_length (by omega)]
            rfl
      · rename_i hbegin
        have hnext : ReflTransGen (Scan c s.rbuffer) scanStart
            ((s.answer c l).authRbegin, (s.answer c l).data) :=
          hscan.tail ⟨l, hl, fun hacc => hbegin hacc.2, rfl⟩
        refine ih ⟨h.ended, h.consumed, h.stream, h.size, ?_⟩ h0 hnext
        rw [LinesScanned, if_pos hserver]
        exact Or.inr ⟨by simp [AuthBus.answer], h0, hnext⟩

theorem verify_onTrack {c : AuthConfig} {S : Bytes} {s : AuthBus} (h : Waiting c S s) :
    OnTrack c S (busSocketAuthVerify c s).2 := by
  unfold busSocketAuthVerify
  split
  · rename_i hs
    unfold busSocketAuthVerifyServer
    split
    · exact Or.inl h
    · rename_i h1
      have hne : s.rbuffer ≠ [] := fun hnil => h1 (by rw [hnil]; simp)
      split
      · rename_i h0
        refine Or.inr (Outcome.decided s.rbuffer s.input (.failed .eio) 0 {} h.stream h.size rfl ?_
          fun he => absurd he (by simp))
        rw [Decides, if_pos hs]
        exact Or.inl ⟨h0, hne, rfl, rfl, rfl⟩
      · rename_i h0
        have h0 : NulFirst s.rbuffer := ⟨hne, not_ne_iff.mp h0⟩
        split
        · exact Or.inl h
        · have hscan := h.scanned
          rw [LinesScanned, if_pos hs] at hscan
          by_cases hb : s.authRbegin = 0
          · simp only [if_pos hb]
            have hdata : s.data = {} := by
              rcases hscan with ⟨-, hd⟩ | ⟨hb', -⟩
              · exact hd
              · exact absurd hb hb'
            have hfirst : ReflTransGen (Scan c s.rbuffer) scanStart (1, s.data) := by
              rw [hdata]
              exact ReflTransGen.refl
            refine verifyServerLoop_onTrack hs _ ⟨h.ended, h.consumed, h.stream, h.size, ?_⟩
              h0 hfirst
            rw [LinesScanned, if_pos hs]
            exact Or.inr ⟨one_ne_zero, h0, hfirst⟩
          · simp only [if_neg hb]
            rcases hscan with ⟨hb', -⟩ | ⟨-, -, hscan⟩
            · exact absurd hb' hb
            · exact verifyServerLoop_onTrack hs _ h h0 hscan
  · rename_i hs
    unfold busSocketAuthVerifyClient
    split
    · exact Or.inl h
    · rename_i e f start hlines
      split
      · rename_i r hr
        refine Or.inr (Outcome.decided s.rbuffer s.input (.failed r) 0 {} h.stream h.size rfl ?_
          fun he => absurd he (by simp))
        rw [Decides, if_neg hs]
        exact ⟨e, f, start, hlines, Or.inl ⟨r, hr, rfl, rfl, rfl⟩⟩
      · rename_i d hd
        refine Or.inr (Outcome.decided s.rbuffer s.input .running start d h.stream h.size rfl ?_
          fun _ => ⟨rfl, ?_⟩)
        · rw [Decides, if_neg hs]
          exact ⟨e, f, start, hlines, Or.inr ⟨hd, rfl, rfl⟩⟩
        · rw [← h.stream, List.drop_append_of_le_length (clientLines_append hlines []).2.2.1]
          rfl

theorem verify_undecided {c : AuthConfig} {S : Bytes} {s : AuthBus} (h : Waiting c S s)
    (hv : (busSocketAuthVerify c s).1 = false) (e : AuthEnd) (n : Nat) (d : AuthData) :
    ¬ Decides c s.rbuffer e n d := by
  intro hd
  unfold busSocketAuthVerify at hv
  unfold Decides at hd
  split at hv
  · rename_i hs
    rw [if_pos hs] at hd
    -- a decision needs a line, and there is none behind the last one scanned
    have hstuck : ∀ x : ScanPoint, charAt s.rbuffer 0 = 0 →
        ReflTransGen (Scan c s.rbuffer) scanStart x → memmemCrlf (s.rbuffer.drop x.1) = none →
        False := by
      intro x h0 hx hnone
      rcases hd with ⟨h0', -⟩ | ⟨-, -, y, l, hy, hacc, -⟩
      · exact h0' h0
      · obtain rfl := scan_unique hx hy (not_scan_of_none hnone) hacc.stuck
        exact absurd (hnone.symm.trans hacc.1) (by simp)
    unfold busSocketAuthVerifyServer at hv
    split at hv
    · rename_i h1
      have hnil : s.rbuffer = [] := List.length_eq_zero_iff.mp (by omega)
      refine hstuck scanStart ?_ ReflTransGen.refl ?_ <;> rw [hnil]
      · rfl
      · rfl
    · split at hv
      · exact absurd hv (by simp)
      · rename_i h0
        have h0 : charAt s.rbuffer 0 = 0 := not_ne_iff.mp h0
        split at hv
        · rename_i h3
          refine hstuck scanStart h0 ReflTransGen.refl ?_
          rcases hm : memmemCrlf (s.rbuffer.drop scanStart.1) with _ | l
          · rfl
          · have := memmemCrlf_le hm
            rw [List.length_drop] at this
            simp only [scanStart] at this
            omega
        · have hscan := h.scanned
          rw [LinesScanned, if_pos hs] at hscan
          by_cases hb : s.authRbegin = 0
          · simp only [if_pos hb] at hv
            exact hstuck scanStart h0 ReflTransGen.refl (verifyServerLoop_false hv).1
          · simp only [if_neg hb] at hv
            rcases hscan with ⟨hb', -⟩ | ⟨-, -, hscan⟩
            · exact absurd hb' hb
            · exact hstuck _ h0 hscan (verifyServerLoop_false hv).1
  · rename_i hs
    rw [if_neg hs] at hd
    obtain ⟨i, f, start, hlines, -⟩ := hd
    unfold busSocketAuthVerifyClient at hv
    rw [hlines] at hv
    simp only at hv
    split at hv <;> exact absurd hv (by simp)

theorem verify_waiting {c : AuthConfig} {S : Bytes} {s : AuthBus} (h : Waiting c S s)
    (hv : (busSocketAuthVerify c s).1 = false) : Waiting c S (busSocketAuthVerify c s).2 := by
  rcases verify_onTrack h with hw | hout
  · exact hw
  · have hend : (busSocketAuthVerify c s).2.ended = none := by
      rcases verify_false hv with h' | ⟨-, h'⟩ <;> rw [h'] <;> exact h.ended
    rcases hout with ⟨_, _, _, _, _, _, _, hend', _⟩ | ⟨hend', -⟩ <;>
      exact absurd (hend.symm.trans hend') (by simp)

theorem busAuthSizeMax_le_of_full (s : AuthBus) (h : s.bufferSize ≤ s.rbuffer.length) :
    busAuthSizeMax ≤ s.rbuffer.length := by
  simp only [AuthBus.bufferSize, busAuthSizeMax] at h ⊢
  omega

theorem Waiting.recv {c : AuthConfig} {S : Bytes} {s : AuthBus} (h : Waiting c S s) {n : Nat}
    (hn : n ≤ s.bufferSize - s.rbuffer.length) : Waiting c S (s.recv n) := by
  have hkeep : (s.input.take n).take (s.bufferSize - s.rbuffer.length) = s.input.take n := by
    rw [List.take_take, min_eq_right hn]
  refine ⟨h.ended, h.consumed, ?_, ?_, ?_⟩
  · simp only [AuthBus.recv]
    rw [hkeep, List.append_assoc, List.take_append_drop]
    exact h.stream
  · have hsize := h.size
    simp only [AuthBus.recv, List.length_append, List.length_take, AuthBus.bufferSize] at hn ⊢
    omega
  · have hscan := h.scanned
    unfold LinesScanned at hscan ⊢
    split
    · rename_i hs
      rw [if_pos hs] at hscan
      refine hscan.imp_right fun ⟨hb, h0, hscan⟩ => ⟨hb, ?_, scan_append hscan _⟩
      exact ⟨by simp [AuthBus.recv, h0.1], (charAt_append_of_ne_nil h0.1 _).trans h0.2⟩
    · rename_i hs
      rw [if_neg hs] at hscan
      exact hscan

theorem processAuthenticating_onTrack {c : AuthConfig} {S : Bytes} {s : AuthBus} {wk : Nat × Nat}
    (h : OnTrack c S s) (hfit : s.Fits c wk) :
    OnTrack c S (busSocketProcessAuthenticating c wk s) := by
  rcases h with h | h
  swap
  · -- nothing happens after the end
    have hend : s.ended ≠ none := by
      rcases h with ⟨_, _, _, _, _, _, _, hend, _⟩ | ⟨hend, -⟩ <;> rw [hend] <;> simp
    rw [busSocketProcessAuthenticating, if_pos hend]
    exact Or.inr h
  rcases processAuthenticating_cases c wk s with ⟨hend, hs⟩ | ⟨-, -, -, hs⟩ | ⟨-, hv, hs⟩ |
    ⟨-, hv, hroom, hs⟩ | ⟨hreads, -, hs⟩ | ⟨hreads, -, hs⟩
  · exact absurd h.ended hend
  · rw [hs]
    exact Or.inl ⟨h.ended, h.consumed, h.stream, h.size, h.scanned⟩
  · rw [hs]
    exact verify_onTrack h
  · rw [hs]
    refine Or.inr (Outcome.tooLong rfl fun e n d => ?_)
    -- the buffer is the first 64K of the stream, and no line of it ended the phase
    have hfull := busAuthSizeMax_le_of_full s hroom
    rw [← h.stream, List.take_append_of_le_length hfull, List.take_of_length_le h.size]
    exact verify_undecided h hv e n d
  · rw [hs]
    exact Or.inl (verify_waiting h hreads.2.2.1)
  · rw [hs]
    have hw := verify_waiting h hreads.2.2.1
    refine verify_onTrack (hw.recv ?_)
    rw [(verify_false_sizes hreads.2.2.1 wk.2).1, verify_false_rbuffer hreads.2.2.1]
    exact hfit hreads

theorem authRun_onTrack {c : AuthConfig} {S : Bytes} (wks : List (Nat × Nat)) :
    ∀ {s : AuthBus}, OnTrack c S s → AllFit c wks s → OnTrack c S (authRun c wks s) := by
  induction wks with
  | nil => exact fun h _ => h
  | cons wk wks ih => exact fun h hfit => ih (processAuthenticating_onTrack h hfit.1) hfit.2

def authStart (S U : Bytes) : AuthBus := { unwritten := U, input := S }

theorem authStart_waiting (c : AuthConfig) (S U : Bytes) : Waiting c S (authStart S U) := by
  refine ⟨rfl, rfl, rfl, Nat.zero_le _, ?_⟩
  unfold LinesScanned
  split
  · exact Or.inl ⟨rfl, rfl⟩
  · rfl

/-- Two runs that have both ended have done so in the same way, with the same data negotiated and
the same bytes left for the messages. -/
def AuthBus.SameOutcome (s t : AuthBus) : Prop :=
  s.ended ≠ none → t.ended ≠ none → s.ended = t.ended ∧ (s.ended = some .running →
    s.data = t.data ∧ s.rbuffer ++ s.input = t.rbuffer ++ t.input)

/-- No byte is lost exactly when no read returns more than there is room for, and then the outcome
does not depend on how the bytes arrive. -/
theorem authRun_noByteLost_iff (c : AuthConfig) (S U : Bytes) (wks : List (Nat × Nat)) :
    ((authRun c wks (authStart S U)).Retains ∧
      ∀ U' wks', (authRun c wks' (authStart S U')).Retains →
        (authRun c wks (authStart S U)).SameOutcome (authRun c wks' (authStart S U'))) ↔
      AllFit c wks (authStart S U) := by
  have hiff : ∀ U wks, (authRun c wks (authStart S U)).Retains ↔ AllFit c wks (authStart S U) :=
    fun U wks => authRun_retains_iff wks rfl
  -- a run that has ended and fits has an outcome of its stream
  have hout : ∀ U wks, AllFit c wks (authStart S U) → (authRun c wks (authStart S U)).ended ≠ none →
      Outcome c S (authRun c wks (authStart S U)) := by
    intro U wks hfit hend
    rcases authRun_onTrack wks (Or.inl (authStart_waiting c S U)) hfit with h | h
    · exact absurd h.ended hend
    · exact h
  rw [hiff]
  refine ⟨fun h => h.1, fun hfit => ⟨hfit, fun U' wks' hret hend hend' => ?_⟩⟩
  exact (hout U wks hfit hend).agree (hout U' wks' ((hiff U' wks').mp hret) hend')

def zephyrClient : AuthConfig where
  zephyr := true
  isServer := false
  anonymousAuth := false
  acceptFd := false
  ucred := none
  serverId := List.replicate 16 0

def okThenMessages : Bytes := wordOk ++ List.replicate 32 48 ++ [13, 10] ++ List.replicate 300 108

/-- When all of it is returned by one read, only the first 256 bytes are kept; when the line comes
first, the messages are all there. -/
theorem not_noByteLost_okThenMessages :
    ¬ (authRun zephyrClient [(0, 8192)] (authStart okThenMessages [])).Retains ∧
      ¬ (authRun zephyrClient [(0, 8192)] (authStart okThenMessages [])).SameOutcome
        (authRun zephyrClient [(0, 37)] (authStart okThenMessages [])) := by
  refine ⟨?_, fun h => ?_⟩
  · rw [AuthBus.Retains]
    decide +kernel
  · have hrest := ((h (by decide +kernel) (by decide +kernel)).2 (by decide +kernel)).2
    revert hrest
    decide +kernel

end Basu
