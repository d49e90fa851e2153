import Basu.Message.Copy

/-! A message that is received, copied and sent on, maybe by a bus of the other byte order. -/

namespace Basu
open Lib

theorem Val.length_encs_swap {e e' : Endian} {vs : List Val}
    (hv : ∀ v ∈ vs, ∀ p, (v.enc e p).length = (v.enc e' p).length) (p : Nat) :
    (Val.encs e vs p).length = (Val.encs e' vs p).length := by
  induction vs generalizing p with
  | nil => rfl
  | cons v vs ih =>
    have hhead := hv v (List.mem_cons_self ..) p
    have htail := ih (fun w hw => hv w (List.mem_cons_of_mem _ hw)) (p + (v.enc e' p).length)
    simp only [Val.encs, List.length_append, hhead, htail]

theorem Val.length_enc_swap (e e' : Endian) (v : Val) (p : Nat) :
    (v.enc e p).length = (v.enc e' p).length := by
  induction v using Val.induct generalizing p with
  | basic b =>
    have hpayload : (b.payload e).length = (b.payload e').length := by
      cases b <;> simp [BasicVal.payload, strBytes]
    have h := b.length_enc e p
    have h' := b.length_enc e' p
    simp only [Val.enc]
    omega
  | container v k vs hold ih =>
    have hencs := Val.length_encs_swap ih (k.start p)
    have h := k.length_head e p (Val.encs e vs (k.start p)).length
    have h' := k.length_head e' p (Val.encs e' vs (k.start p)).length
    rw [hold.enc, hold.enc, List.length_append, List.length_append, hencs]
    rw [hencs] at h
    omega

theorem Val.Readable.allSwap {e e' : Endian} {n : Nat} {vs : List Val}
    (hv : ∀ v ∈ vs, ∀ p d, v.Readable e n p d → v.Readable e' n p d) {p d : Nat}
    (h : Val.AllReadable e n vs p d) : Val.AllReadable e' n vs p d := by
  induction vs generalizing p with
  | nil =>
    rw [Val.AllReadable]
    trivial
  | cons v vs ih =>
    rw [Val.AllReadable] at h ⊢
    refine ⟨hv v (List.mem_cons_self ..) p d h.1, ?_⟩
    rw [← Val.length_enc_swap e e' v p]
    exact ih (fun w hw => hv w (List.mem_cons_of_mem _ hw)) h.2

theorem Val.Readable.swap {e : Endian} (e' : Endian) {n : Nat} {v : Val} {p d : Nat}
    (h : v.Readable e n p d) : v.Readable e' n p d := by
  induction v using Val.induct generalizing p d with
  | basic b =>
    rw [Val.Readable] at h ⊢
    exact h
  | container v k vs hold ih =>
    obtain ⟨hd, hlimit, hall⟩ := (hold.readable e n p d).mp h
    rw [Val.length_encs_swap fun w _ p => w.length_enc_swap e e' p] at hlimit
    exact (hold.readable e' n p d).mpr ⟨hd, hlimit, allSwap (fun w hw p d => ih w hw) hall⟩

theorem WInv.runs_header {m m' : Message} {T : Tree} {ops : List Op} (inv : WInv m T)
    (h : Runs m ops m') : m'.header = m.header := by
  induction h generalizing T with
  | nil m => rfl
  | cons h _ ih =>
    obtain ⟨T₁, -, inv₁, -⟩ := inv.step h
    exact (ih inv₁).trans (inv.exec_kept h).header

/-- A copy has the values that the traversal has read, and whoever receives it reads them again,
exactly if the header it is sent with keeps the rules of the parser. -/
theorem copied_readsBack_iff {b : Bytes} {r r' : Received} {bus : Bus} {m m' s : Message}
    {dup : Nat → Except Errno Nat} {fuel cookie : Nat} {x : Bool}
    (h : busMessageFromMalloc b [] = .ok r) (w : Written bus [] m)
    (hcopy : sdBusMessageCopy dup fuel m (sdBusMessageRewind r) true = (.ok x, m', r'))
    (hseal : sdBusMessageSeal m' cookie = .ok s) :
    ∃ items, ReadItems (sdBusMessageRewind r) items r' ∧
      ((∃ t t', busMessageFromMalloc s.blob s.fds = .ok t ∧
          ReadItems (sdBusMessageRewind t) items t') ↔
        Header.Acceptable { m.header with serial := cookie }) := by
  obtain ⟨⟨P, hsig, hroot⟩, hfds, -⟩ := fromMalloc_rewind h
  obtain ⟨ts, hexp⟩ := expecting_rewind h
  unfold sdBusMessageCopy at hcopy
  split_ifs at hcopy with hsealed
  · cases hcopy
  obtain ⟨items, hread, hruns⟩ := copyLoop_spec hcopy
  obtain ⟨vs, hvs⟩ := hread.sound hexp
  have hdec := hvs.decoded hfds (by rw [hroot])
  have hitems := hvs.items
  rw [hfds] at hitems
  subst hitems
  -- what is appended is the tree of these values
  obtain ⟨fs₀, T₀, d₀, hsteps₀⟩ := w.draft
  cases hsteps₀
  obtain ⟨fs, T, d, hsteps⟩ := (w.runs hruns).draft
  obtain rfl := hsteps.unique (Tree.steps_allOps dup hvs.clean hdec.readable
    (fun v _ p d hr hc T => Tree.steps_ops hr hc T) Tree.empty)
  rw [show Tree.empty.pushAll vs = ⟨vs, [], []⟩ from Tree.pushAll_root [] [] vs] at d
  have hsfds : s.fds = [] := (d.seal hseal).2.1
  have hreadable : Tree.Readable m'.endian ⟨vs, [], []⟩ := by
    refine ⟨?_, Val.Readable.allSwap (fun v _ p d => Val.Readable.swap _) hdec.readable⟩
    rw [hdec.signature, hroot]
    cases hs : P.signature with
    | none => exact ⟨@signatureIsValid_sigs [] true (by simp) (by decide), by decide⟩
    | some sig => exact (hsig sig hs).2
  have hiff := d.readsBack_iff hseal
  rw [ReadsBack, hsfds, d₀.body.runs_header hruns] at hiff
  refine ⟨_, hread, ?_⟩
  rw [hsfds]
  exact ⟨fun ht => (hiff.mp ht).1, fun hacc => hiff.mpr ⟨hacc, hreadable⟩⟩

theorem ok_of_any {α : Type} {x : Except Errno α} {P : α → Bool} (h : x.toOption.any P = true) :
    ∃ a, x = .ok a ∧ P a = true := by
  cases x with
  | error e => cases h
  | ok a => exact ⟨a, rfl, h⟩

def bigSignal : Except Errno Message :=
  sdBusMessageNewSignal { nativeEndian := .big } (.ofBytes [47]) (.ofBytes [97, 46, 98])
    (.ofBytes [99])

theorem copied_readsBack_bigSignal : ∃ r r' m' s items t t',
    busMessageFromMalloc twoSignal [] = .ok r ∧ sdBusMessageSeal m' 1 = .ok s ∧
    ReadItems (sdBusMessageRewind r) items r' ∧ s.endian = .big ∧
    busMessageFromMalloc s.blob s.fds = .ok t ∧ ReadItems (sdBusMessageRewind t) items t' := by
  have h : bigSignal.toOption.any (fun m => (busMessageFromMalloc twoSignal []).toOption.any
      fun r => let c := sdBusMessageCopy .ok 2 m (sdBusMessageRewind r) true
      c.1.isOk && (sdBusMessageSeal c.2.1 1).toOption.any (fun s => decide (s.endian = .big)) &&
        decide (Header.Acceptable { m.header with serial := 1 })) = true := by
    decide +kernel
  obtain ⟨m, hm, h⟩ := ok_of_any h
  obtain ⟨r, hr, h⟩ := ok_of_any h
  rcases hc : sdBusMessageCopy .ok 2 m (sdBusMessageRewind r) true with ⟨_ | x, m', r'⟩
  · rw [hc] at h
    cases h
  simp only [hc, Bool.and_eq_true, decide_eq_true_eq] at h
  obtain ⟨s, hs, hend⟩ := ok_of_any h.1.2
  obtain ⟨items, hread, hiff⟩ := copied_readsBack_iff hr (.newSignal hm) hc hs
  obtain ⟨t, t', ht, hback⟩ := hiff.mpr h.2
  exact ⟨r, r', m', s, items, t, t', hr, hs, hread, of_decide_eq_true hend, ht, hback⟩

end Basu
