import Basu.Message.Body

/-! The append side builds the tree it is told to build. `Tree.Step` says what a successful call
adds to the tree; `WInv` relates a message to such a tree, and every successful call keeps it. -/

namespace Basu
open Lib

/-! ## Signatures of open containers -/

theorem Kind.contents_eq (k : Kind) (h : k.isArray = false) : k.contents = Ty.sigs k.members := by
  cases k with
  | array t => exact absurd h (by simp [Kind.isArray])
  | variant t => simp [Kind.contents, Kind.members, Ty.sigs]
  | struct ts => rfl
  | dictEntry k v => simp [Kind.contents, Kind.members, Ty.sigs, Ty.sig]

/-- The signature and the index of a container in which values of the types `child` are open
behind the finished ones. -/
def FrameSig (c : Container) (f : Frame) (child : List Ty) : Prop :=
  c.enclosing = f.kind.enclosing ∧ c.signature = some f.kind.contents ∧
  match f.kind with
  | .array t => c.index = 0 ∧ ∀ u ∈ Val.tys f.done ++ child, u = t
  | k => c.index = (Ty.sigs (Val.tys f.done ++ child)).length ∧
      Val.tys f.done ++ child <+: k.members

def SigRep (r : Container) (root : List Val) : List Ty → List Container → List Frame → Prop
  | child, [], [] =>
    r.enclosing = 0 ∧ strempty r.signature = Ty.sigs (Val.tys root ++ child) ∧
      r.index = (strempty r.signature).length
  | child, c :: cs, f :: fs => FrameSig c f child ∧ SigRep r root [f.kind.ty] cs fs
  | _, _, _ => False

theorem FrameSig.rest {c : Container} {f : Frame} (h : FrameSig c f []) :
    ∃ us, (strempty c.signature).drop c.index = Ty.sigs us ∧
      (∀ u us', us = u :: us' → FrameSig
        (if c.enclosing = sdBusTypeArray then c else { c with index := c.index + u.sig.length })
        f [u]) ∧
      (f.kind.isArray = false → Val.tys f.done ++ us = f.kind.members) := by
  obtain ⟨k, done⟩ := f
  obtain ⟨henc, hsig, hidx⟩ := h
  simp only [List.append_nil] at henc hsig hidx
  have hstr : strempty c.signature = k.contents := by rw [hsig]; rfl
  cases hk : k with
  | array t =>
    simp only [hk] at hidx henc hsig
    refine ⟨[t], by rw [hstr, hidx.1, hk]; simp [Kind.contents, Ty.sigs_singleton], ?_,
      fun h => absurd h (by simp [Kind.isArray])⟩
    rintro u us' hu
    rw [if_pos (show c.enclosing = sdBusTypeArray from henc)]
    refine ⟨henc, hsig, hidx.1, ?_⟩
    intro w hw
    rcases List.mem_append.mp hw with hw | hw
    · exact hidx.2 w hw
    · rw [List.mem_singleton.mp hw]
      exact (List.cons.inj hu).1.symm
  | _ =>
    have hna : k.isArray = false := by rw [hk]; rfl
    have hcont := k.contents_eq hna
    have hne : c.enclosing ≠ sdBusTypeArray := by
      rw [henc, hk, Kind.enclosing]
      decide
    have hidx' : c.index = (Ty.sigs (Val.tys done)).length ∧ Val.tys done <+: k.members := by
      simpa only [hk] using hidx
    obtain ⟨us, hus⟩ := hidx'.2
    rw [← hk]
    refine ⟨us, ?_, ?_, fun _ => hus⟩
    · rw [hstr, hcont, ← hus, Ty.sigs_append, hidx'.1, List.drop_left]
    · rintro u us' rfl
      rw [if_neg hne]
      refine ⟨henc, hsig, ?_⟩
      have : c.index + u.sig.length = (Ty.sigs (Val.tys done ++ [u])).length ∧
          Val.tys done ++ [u] <+: k.members := by
        refine ⟨by rw [hidx'.1, Ty.sigs_append, Ty.sigs_singleton, List.length_append], us', ?_⟩
        rw [← hus, List.append_assoc, List.singleton_append]
      simpa only [hk] using this

theorem SigRep.current {r : Container} {root : List Val} {cs : List Container}
    {fs : List Frame} (h : SigRep r root [] cs fs) :
    (cs = [] ∧ fs = [] ∧ r.enclosing = 0 ∧ r.cur = 0 ∧
      strempty r.signature = Ty.sigs (Val.tys root) ∧
      r.index = (strempty r.signature).length) ∨
    (∃ c cs' f fs', cs = c :: cs' ∧ fs = f :: fs' ∧ FrameSig c f [] ∧
      SigRep r root [f.kind.ty] cs' fs') := by
  cases cs with
  | nil =>
    cases fs with
    | nil =>
      obtain ⟨h0, hs, hi⟩ := h
      exact .inl ⟨rfl, rfl, h0, by rw [Container.cur, hi, charAt_length],
        by simpa using hs, hi⟩
    | cons f fs => exact h.elim
  | cons c cs =>
    cases fs with
    | nil => exact h.elim
    | cons f fs => exact .inr ⟨c, cs, f, fs, rfl, rfl, h.1, h.2⟩

theorem SigRep.push {r : Container} {T : Tree} {u : Ty} {cs : List Container} {v : Val}
    (hv : v.ty = u) (h : SigRep r T.root [u] cs T.frames) :
    SigRep r (T.push v).root [] cs (T.push v).frames := by
  have htys : ∀ vs : List Val, Val.tys (vs ++ [v]) ++ [] = Val.tys vs ++ [u] := by
    intro vs
    simp [Val.tys_eq_map, hv]
  cases hf : T.frames with
  | nil =>
    rw [hf] at h
    simp only [Tree.push, hf]
    cases cs with
    | nil =>
      obtain ⟨h0, hs, hi⟩ := h
      exact ⟨h0, by rw [hs, htys], hi⟩
    | cons c cs => exact h.elim
  | cons f fs =>
    rw [hf] at h
    simp only [Tree.push, hf]
    cases cs with
    | nil => exact h.elim
    | cons c cs =>
      obtain ⟨⟨henc, hsig, hidx⟩, hrest⟩ := h
      refine ⟨⟨henc, hsig, ?_⟩, hrest⟩
      obtain ⟨k, done⟩ := f
      cases k <;> simpa only [htys] using hidx

/-! ## What a call adds to the tree -/

/-- The value of an argument, the `n`-th descriptor of the message if it is one. -/
def BasicArg.val (n : Nat) : BasicArg → BasicVal
  | .num t x => .num t x
  | .boolean p => .boolean (decide (p.getD 0 ≠ 0))
  | .string p => .string (strempty (p.map (·.1)))
  | .objectPath p => .objectPath (strempty (p.map (·.1)))
  | .signature p => .signature (strempty (p.map (·.1)))
  | .unixFd _ _ => .unixFd n
  | .other _ _ => .string []

def BasicArg.fds : BasicArg → List Nat
  | .unixFd (some _) (.ok copy) => [copy]
  | _ => []

/-- What a successful call means for the tree of values. -/
inductive Tree.Step : Tree → Op → Tree → Prop
  | basic (T : Tree) (p : BasicArg) :
      Step T (.appendBasic p)
        { T.push (.basic (p.val T.fds.length)) with fds := T.fds ++ p.fds }
  | opened (T : Tree) (k : Kind) (contents : CStr) (h : contents.1 = k.contents) :
      Step T (.openContainer k.enclosing contents) { T with frames := ⟨k, []⟩ :: T.frames }
  | closed (T : Tree) (f : Frame) (fs : List Frame) (h : T.frames = f :: fs) :
      Step T .closeContainer (Tree.push { T with frames := fs } f.close)

inductive Tree.Steps : Tree → List Op → Tree → Prop
  | nil (T : Tree) : Steps T [] T
  | cons {T T₁ T₂ : Tree} {op : Op} {ops : List Op} (h : T.Step op T₁) (hs : Steps T₁ ops T₂) :
      Steps T (op :: ops) T₂

def Tree.empty : Tree := ⟨[], [], []⟩

structure WInv (m : Message) (T : Tree) : Prop where
  body : BodyInv m T.root T.frames []
  sigs : SigRep m.root T.root [] m.containers T.frames
  made : T.Made
  fds : m.fds = T.fds
  fdsSize : 4 * m.fds.length ≤ m.bodySize
  limit : m.bodySize ≤ uint32Max

theorem Tree.push_fds (T : Tree) (v : Val) : (T.push v).fds = T.fds := by
  unfold Tree.push
  split <;> rfl

theorem argBytes_ok {m : Message} {p : BasicArg} {align : Nat} {bytes : Bytes} {fds : List Nat}
    {v : BasicVal} (hv : p.val m.fds.length = v) (h : argBytes m p = .ok (align, bytes, fds)) :
    align = v.type.align ∧ bytes = v.payload m.endian ∧ fds = p.fds ∧ p.type = v.type.code ∧
      (fds = [] ∨ (fds.length = 1 ∧ bytes.length = 4)) := by
  subst hv
  cases p with
  | num t x =>
    simp only [argBytes, Except.ok.injEq, Prod.mk.injEq] at h
    obtain ⟨rfl, rfl, rfl⟩ := h
    exact ⟨rfl, rfl, rfl, rfl, .inl rfl⟩
  | boolean p =>
    simp only [argBytes, Except.ok.injEq, Prod.mk.injEq] at h
    obtain ⟨rfl, rfl, rfl⟩ := h
    refine ⟨rfl, ?_, rfl, rfl, .inl rfl⟩
    by_cases hp : p.getD 0 = 0 <;> simp [BasicArg.val, BasicVal.payload, hp]
  | string p | signature p =>
    simp only [argBytes, Except.ok.injEq, Prod.mk.injEq] at h
    obtain ⟨rfl, rfl, rfl⟩ := h
    exact ⟨rfl, rfl, rfl, rfl, .inl rfl⟩
  | objectPath p =>
    cases p with
    | none => exact absurd h (by simp [argBytes])
    | some s =>
      simp only [argBytes, Except.ok.injEq, Prod.mk.injEq] at h
      obtain ⟨rfl, rfl, rfl⟩ := h
      exact ⟨rfl, rfl, rfl, rfl, .inl rfl⟩
  | unixFd p dup =>
    cases p with
    | none => exact absurd h (by simp [argBytes])
    | some fd =>
      simp only [argBytes, messagePushFd] at h
      split_ifs at h
      · exact absurd h (by simp [Except.map])
      · exact absurd h (by simp [Except.map])
      · cases dup with
        | error r => exact absurd h (by simp [Except.map])
        | ok copy =>
          simp only [Except.map, Except.ok.injEq, Prod.mk.injEq] at h
          obtain ⟨rfl, rfl, rfl⟩ := h
          exact ⟨rfl, rfl, rfl, rfl, .inr ⟨rfl, by simp⟩⟩
  | other c hc => exact absurd h (by simp [argBytes])

/-! ## The signature half of a call -/

def Message.place (m : Message) (u : Ty) : Container × List Container :=
  match m.containers with
  | [] => ({ m.root with signature := some (strempty m.root.signature ++ u.sig),
                         index := (strempty m.root.signature ++ u.sig).length }, [])
  | c :: cs =>
    (m.root, (if c.enclosing = sdBusTypeArray then c
      else { c with index := c.index + u.sig.length }) :: cs)

/-- The current container has room for a value of type `u`; the root always does. -/
def Message.Expects (m : Message) (u : Ty) : Prop :=
  match m.containers with
  | [] => True
  | c :: _ => ∃ q, (strempty c.signature).drop c.index = u.sig ++ q

theorem SigRep.place {m : Message} {root : List Val} {u : Ty} {fs : List Frame}
    (h : SigRep m.root root [] m.containers fs) (hu : m.Expects u) :
    SigRep (m.place u).1 root [u] (m.place u).2 fs := by
  unfold Message.Expects at hu
  unfold Message.place
  rcases h.current with ⟨hcs, rfl, h0, -, hsig, -⟩ | ⟨c, cs, f, fs', hcs, rfl, hF, hS⟩
  · simp only [hcs]
    exact ⟨h0, by simp [strempty, ← hsig, Ty.sigs_append, Ty.sigs_singleton], rfl⟩
  · simp only [hcs] at hu ⊢
    obtain ⟨q, hq⟩ := hu
    obtain ⟨us, hus, hadv, -⟩ := hF.rest
    obtain ⟨us', rfl, -⟩ := Ty.sigs_eq_sig_append (hus.symm.trans hq)
    exact ⟨hadv u us' rfl, hS⟩

theorem StackRep.congr {e : Endian} {root : List Val} {parts : List Part}
    {cs cs' : List Container} {fs : List Frame} (h : StackRep e root parts cs fs)
    (hcs : cs.map (·.arraySize) = cs'.map (·.arraySize)) : StackRep e root parts cs' fs := by
  induction cs generalizing cs' fs with
  | nil =>
    have : cs' = [] := by simpa using hcs.symm
    rwa [this]
  | cons c cs ih =>
    cases cs' with
    | nil => exact absurd hcs (by simp)
    | cons c' cs' =>
      simp only [List.map_cons, List.cons.injEq] at hcs
      cases fs with
      | nil => exact h.elim
      | cons f fs =>
        refine ⟨?_, ih h.2 hcs.2⟩
        have h1 := h.1
        cases hk : f.kind <;> rw [hk] at h1 <;> simpa only [ArrayRep, ← hcs.1] using h1

theorem BodyInv.congr {m m' : Message} {root : List Val} {fs : List Frame} {rest : Bytes}
    (h : BodyInv m root fs rest) (he : m'.endian = m.endian) (hp : m'.parts = m.parts)
    (hb : m'.bodySize = m.bodySize)
    (hc : m'.containers.map (·.arraySize) = m.containers.map (·.arraySize)) :
    BodyInv m' root fs rest := by
  refine ⟨?_, ?_, ?_⟩
  · rw [he, hp, hb, h.flat_eq]
  · rw [hp, hb, h.size]
  · rw [he, hp]
    exact h.stack.congr hc.symm

theorem Message.place_arraySize (m : Message) (u : Ty) :
    (m.place u).2.map (·.arraySize) = m.containers.map (·.arraySize) := by
  unfold Message.place
  split
  · rename_i h
    rw [h]
  · rename_i c cs h
    rw [h]
    split_ifs <;> rfl

theorem messageGetLastContainer_nil {m : Message} (h : m.containers = []) :
    messageGetLastContainer m = m.root := by simp [messageGetLastContainer, h]

theorem messageGetLastContainer_cons {m : Message} {c : Container} {cs : List Container}
    (h : m.containers = c :: cs) : messageGetLastContainer m = c := by
  simp [messageGetLastContainer, h]

/-! ## Bytes of a value that is being written -/

/-- The body grew by `bytes` and the descriptors by `fds`, and nothing else happened. -/
structure Writes (m m' : Message) (bytes : Bytes) (fds : List Nat) : Prop where
  eq : m' = { m with parts := m'.parts, bodySize := m.bodySize + bytes.length,
                     fds := m.fds ++ fds }
  limit : m.bodySize + bytes.length ≤ uint32Max
  body : ∀ root fs rest, BodyInv m root fs rest → BodyInv m' root fs (rest ++ bytes)

structure Kept (m m' : Message) : Prop where
  endian : m'.endian = m.endian
  header : m'.header = m.header
  enforcedReplySignature : m'.enforcedReplySignature = m.enforcedReplySignature
  allowFds : m'.allowFds = m.allowFds
  sealed : m'.sealed = m.sealed
  poisoned : m'.poisoned = m.poisoned

structure Wrote (m : Message) (u : Ty) (bytes : Bytes) (fds : List Nat) (m' : Message) :
    Prop where
  expects : m.Expects u
  kept : Kept m m'
  bodySize : m'.bodySize = m.bodySize + bytes.length
  limit : m.bodySize + bytes.length ≤ uint32Max
  place : (m'.root, m'.containers) = m.place u
  fds : m'.fds = m.fds ++ fds
  body : ∀ root fs rest, BodyInv m root fs rest → BodyInv m' root fs (rest ++ bytes)

theorem Writes.inner {m m₁ : Message} {bytes : Bytes} {fds : List Nat} {c : Container}
    {cs : List Container} {u : Ty} {q : Str} {n : Nat} (h : Writes m m₁ bytes fds)
    (hcs : m.containers = c :: cs) (hu : (strempty c.signature).drop c.index = u.sig ++ q)
    (hn : n = c.index + u.sig.length) : Wrote m u bytes fds (m₁.advance c n) := by
  have hm := h.eq
  have hcs₁ : m₁.containers = c :: cs := by rw [hm]; exact hcs
  have hadv : m₁.advance c n = { m₁ with containers := (m.place u).2 } := by
    unfold Message.advance Message.setIndex Message.setLastContainer messageGetLastContainer
    simp only [hcs₁, Message.place, hcs, hn, List.headD_cons]
    split_ifs
    · rw [← hcs₁]
    · rfl
  rw [hadv]
  refine ⟨by unfold Message.Expects; rw [hcs]; exact ⟨q, hu⟩, ?_, ?_, h.limit, ?_, ?_, ?_⟩
  · rw [hm]; exact ⟨rfl, rfl, rfl, rfl, rfl, rfl⟩
  · rw [hm]
  · rw [hm]; simp [Message.place, hcs]
  · rw [hm]
  · intro root fs rest inv
    refine (h.body root fs rest inv).congr rfl rfl rfl ?_
    rw [Message.place_arraySize, hm]

theorem Writes.outer {m m₁ : Message} {bytes : Bytes} {fds : List Nat} {u : Ty} {n : Nat}
    (h : Writes (m.strextendSignature u.sig) m₁ bytes fds) (hcs : m.containers = [])
    (h0 : m.root.enclosing = 0)
    (hn : n = (strempty m.root.signature ++ u.sig).length) {c : Container}
    (hc : c.enclosing = m.root.enclosing) : Wrote m u bytes fds (m₁.advance c n) := by
  have hext : m.strextendSignature u.sig =
      { m with root := { m.root with
        signature := some (strempty m.root.signature ++ u.sig) } } := by
    simp [Message.strextendSignature, Message.setLastContainer, messageGetLastContainer, hcs]
  rw [hext] at h
  have hm := h.eq
  have hcs₁ : m₁.containers = [] := by rw [hm]; exact hcs
  have hadv : m₁.advance c n = { m₁ with root := (m.place u).1 } := by
    unfold Message.advance Message.setIndex Message.setLastContainer messageGetLastContainer
    rw [if_neg (by rw [hc, h0]; decide)]
    simp only [hcs₁, Message.place, hcs, hn, List.headD_nil]
    rw [hm]
  rw [hadv]
  refine ⟨by unfold Message.Expects; rw [hcs]; trivial, ?_, ?_, h.limit, ?_, ?_, ?_⟩
  · rw [hm]; exact ⟨rfl, rfl, rfl, rfl, rfl, rfl⟩
  · rw [hm]
  · rw [hm]; simp [Message.place, hcs]
  · rw [hm]
  · intro root fs rest inv
    exact (h.body root fs rest (inv.congr rfl rfl rfl rfl)).congr rfl rfl rfl rfl

/-! ## Appending a basic value -/

theorem BasicVal.length_enc (e : Endian) (v : BasicVal) (p : Nat) :
    p + (v.enc e p).length = alignUp p v.type.align + (v.payload e).length := by
  rw [BasicVal.enc, List.length_append, length_zeros, ← Nat.add_assoc,
    add_padTo p v.type.align_pos]

theorem Writes.extend {m m' : Message} {align : Nat} {fill : Bytes} {fi : Bool}
    {loc : Nat × Nat} (ha : 0 < align) (h : messageExtendBody m align fill fi = (some loc, m')) :
    Writes m m' (zeros (padTo m.bodySize align) ++ fill) [] := by
  obtain ⟨hmax, hm, hinv⟩ := messageExtendBody_ok ha h
  have hlen : m.bodySize + (zeros (padTo m.bodySize align) ++ fill).length =
      alignUp m.bodySize align + fill.length := by
    rw [List.length_append, length_zeros, ← Nat.add_assoc, add_padTo _ ha]
  refine ⟨?_, by omega, fun root fs rest inv => (hinv root fs rest inv).1⟩
  rw [hlen, List.append_nil]
  exact hm

theorem appendBasicValue_ok {m m' : Message} {p : BasicArg} {v : BasicVal}
    (hv : p.val m.fds.length = v) (h : appendBasicValue m p = (.ok (), m')) :
    p.type = v.type.code ∧ 4 * p.fds.length ≤ (v.enc m.endian m.bodySize).length ∧
    ∃ m₁, Writes m m₁ (v.enc m.endian m.bodySize) p.fds ∧
      m' = m₁.advance (messageGetLastContainer m) ((messageGetLastContainer m).index + 1) := by
  unfold appendBasicValue at h
  split at h
  · exact absurd h (by simp)
  · rename_i align bytes fds harg
    obtain ⟨rfl, rfl, rfl, htype, hfds⟩ := argBytes_ok hv harg
    split at h
    · exact absurd h (by simp)
    · rename_i loc m₁ hext
      have hw := Writes.extend v.type.align_pos hext
      have hc : messageGetLastContainer m₁ = messageGetLastContainer m := by rw [hw.eq]; rfl
      simp only [Prod.mk.injEq, true_and, hc] at h
      refine ⟨htype, ?_, { m₁ with fds := m₁.fds ++ p.fds }, ⟨?_, hw.limit, ?_⟩, ?_⟩
      · have hpay : (v.payload m.endian).length ≤ (v.enc m.endian m.bodySize).length := by
          rw [BasicVal.enc, List.length_append]
          omega
        rcases hfds with h0 | ⟨h1, h4⟩
        · rw [h0]; simp
        · omega
      · have := hw.eq
        rw [this]
        simp [BasicVal.enc]
      · intro root fs rest inv
        exact (hw.body root fs rest inv).congr rfl rfl rfl rfl
      · rw [← h]
        rfl

theorem Kind.enclosing_ne_zero (k : Kind) : k.enclosing ≠ 0 := by
  cases k <;> rw [Kind.enclosing] <;> decide

theorem Container.cur_eq (c : Container) : c.cur = charAt ((strempty c.signature).drop c.index) 0 :=
  charAt_drop _ _

theorem FrameSig.next {c : Container} {f : Frame} (h : FrameSig c f []) (hc : c.cur ≠ 0) :
    ∃ (u : Ty) (us : List Ty),
      (strempty c.signature).drop c.index = u.sig ++ Ty.sigs us ∧ c.cur = u.head := by
  obtain ⟨us, hus, -, -⟩ := h.rest
  rw [Container.cur_eq, hus] at hc
  cases us with
  | nil => exact absurd rfl hc
  | cons u us =>
    refine ⟨u, us, by rw [hus, Ty.sigs], ?_⟩
    rw [Container.cur_eq, hus, Ty.sigs, Ty.charAt_sig_append]

theorem messageAppendBasic_ok {m m' : Message} {p : BasicArg} {v : BasicVal} {root : List Val}
    {fs : List Frame} (hv : p.val m.fds.length = v)
    (hs : SigRep m.root root [] m.containers fs) (h : messageAppendBasic m p = (.ok (), m')) :
    p.type = v.type.code ∧ 4 * p.fds.length ≤ (v.enc m.endian m.bodySize).length ∧
    Wrote m (.basic v.type) (v.enc m.endian m.bodySize) p.fds m' := by
  simp only [messageAppendBasic] at h
  rcases hs.current with ⟨hcs, rfl, h0, hcur, hsig, hidx⟩ | ⟨c, cs, f, fs', hcs, rfl, hF, hS⟩
  · -- at the top level the signature is extended first
    simp only [messageGetLastContainer_nil hcs, hcur, h0, ne_eq, not_true_eq_false,
      if_false] at h
    split_ifs at h
    · exact absurd h (by simp)
    · exact absurd h (by simp)
    · exact absurd h (by simp)
    · have hext : m.strextendSignature [p.type] =
          { m with root := { m.root with
            signature := some (strempty m.root.signature ++ [p.type]) } } := by
        simp [Message.strextendSignature, Message.setLastContainer, messageGetLastContainer, hcs]
      have hv' : p.val (m.strextendSignature [p.type]).fds.length = v := by
        rw [hext]
        exact hv
      obtain ⟨htype, hfd, m₁, hw, hm'⟩ := appendBasicValue_ok hv' h
      have hb : (m.strextendSignature [p.type]).bodySize = m.bodySize := by rw [hext]
      have he : (m.strextendSignature [p.type]).endian = m.endian := by rw [hext]
      have hl : messageGetLastContainer (m.strextendSignature [p.type]) =
          { m.root with signature := some (strempty m.root.signature ++ [p.type]) } := by
        rw [hext]
        simp [messageGetLastContainer, hcs]
      rw [hb, he] at hw hfd
      refine ⟨htype, hfd, ?_⟩
      rw [hm', hl]
      have hu : [p.type] = (Ty.basic v.type).sig := by rw [htype, Ty.sig]
      rw [hu] at hw ⊢
      exact hw.outer hcs h0 (by rw [Ty.sig]; simp [hidx]) rfl
  · simp only [messageGetLastContainer_cons hcs] at h
    have henc : c.enclosing ≠ 0 := by rw [hF.1]; exact f.kind.enclosing_ne_zero
    split_ifs at h with h1 h2 h3 h4 h5
    · exact absurd h (by simp)
    · exact absurd h (by simp)
    · exact absurd h (by simp)
    · exact absurd h (by simp)
    · obtain ⟨htype, hfd, m₁, hw, hm'⟩ := appendBasicValue_ok hv h
      refine ⟨htype, hfd, ?_⟩
      obtain ⟨u, us, hu, hhead⟩ := hF.next h4
      have hub : u = .basic v.type := by
        apply Ty.eq_basic_of_head
        rw [← hhead, ← htype]
        simpa using h5
      subst hub
      rw [hm', messageGetLastContainer_cons hcs]
      exact hw.inner hcs hu (by rw [Ty.sig]; rfl)
    · exact absurd h (by simp)

/-! ## Opening a container -/

structure Opens (m m₁ : Message) (k : Kind) (a : Option (Nat × Nat)) : Prop where
  writes : Writes m m₁ (k.head m.endian m.bodySize 0) []
  loc : ∀ c root fs rest, c.arraySize = a → BodyInv m root fs rest →
    ArrayRep m₁.parts c k m.bodySize

theorem openBody_ok {m m₁ : Message} {align : Nat} {fill : Bytes} {a : Option (Nat × Nat)}
    (ha : 0 < align) (h : openBody m align fill = (.ok a, m₁)) :
    a = none ∧ Writes m m₁ (zeros (padTo m.bodySize align) ++ fill) [] := by
  unfold openBody at h
  split at h
  · exact absurd h (by simp)
  · rename_i loc m₂ hext
    simp only [Prod.mk.injEq, Except.ok.injEq] at h
    obtain ⟨rfl, rfl⟩ := h
    exact ⟨rfl, Writes.extend ha hext⟩

theorem Writes.append {m m₁ m₂ : Message} {bs bs' : Bytes} {fds fds' : List Nat}
    (h : Writes m m₁ bs fds) (h' : Writes m₁ m₂ bs' fds') :
    Writes m m₂ (bs ++ bs') (fds ++ fds') := by
  have hm := h.eq
  have hm' := h'.eq
  have hb : m₁.bodySize = m.bodySize + bs.length := by rw [hm]
  have hl := h'.limit
  refine ⟨?_, by rw [List.length_append]; omega, fun root fs rest inv => ?_⟩
  · rw [hm', hm]
    simp [Nat.add_assoc]
  · rw [← List.append_assoc]
    exact h'.body _ _ _ (h.body _ _ _ inv)

theorem openArrayBody_ok {m m₁ : Message} {t : Ty} {a : Option (Nat × Nat)}
    (h : openArrayBody m t.sig = (.ok a, m₁)) : Opens m m₁ (.array t) a := by
  unfold openArrayBody at h
  have hal : busTypeGetAlignment (charAt t.sig 0) = some t.align := by
    have := t.charAt_sig_append []
    rw [List.append_nil] at this
    rw [this, busTypeGetAlignment_head]
  simp only [hal] at h
  split at h
  · exact absurd h (by simp)
  · rename_i loc m₂ hext
    split at h
    · exact absurd h (by simp)
    · rename_i loc' m₃ hext'
      simp only [Prod.mk.injEq, Except.ok.injEq] at h
      obtain ⟨rfl, rfl⟩ := h
      have hw := Writes.extend (by decide) hext
      have hw' := Writes.extend t.align_pos hext'
      have hb : m₂.bodySize = alignUp m.bodySize 4 + 4 := by
        rw [hw.eq]
        simp only [List.length_append, length_zeros, length_putWord, ← Nat.add_assoc]
        rw [add_padTo _ (by decide)]
      refine ⟨?_, ?_⟩
      · have := hw.append hw'
        simpa only [hb, Kind.head, arrayHead, List.append_assoc, List.append_nil] using this
      · intro c root fs rest hc inv
        obtain ⟨-, -, h1⟩ := messageExtendBody_ok (by decide) hext
        obtain ⟨hinv, -, hloc⟩ := h1 root fs rest inv
        obtain ⟨-, -, h2⟩ := messageExtendBody_ok t.align_pos hext'
        obtain ⟨-, hmono, -⟩ := h2 root fs _ hinv
        exact ⟨loc, hc, hmono _ _ (hloc (length_putWord _ _ _))⟩

theorem openBody_opens {m m₁ : Message} {k : Kind} {align : Nat} {fill : Bytes}
    {a : Option (Nat × Nat)} (ha : 0 < align) (hk : k.isArray = false)
    (hhead : k.head m.endian m.bodySize 0 = zeros (padTo m.bodySize align) ++ fill)
    (h : openBody m align fill = (.ok a, m₁)) : Opens m m₁ k a := by
  obtain ⟨rfl, hw⟩ := openBody_ok ha h
  refine ⟨by rw [hhead]; exact hw, fun c root fs rest hc _ => ?_⟩
  cases k with
  | array t => exact absurd hk (by simp [Kind.isArray])
  | _ => exact hc

structure Placed (m : Message) (k : Kind) (a : Option (Nat × Nat)) (m₁ : Message) : Prop where
  wrote : Wrote m k.ty (k.head m.endian m.bodySize 0) [] m₁
  loc : ∀ c root fs rest, c.arraySize = a → BodyInv m root fs rest →
    ArrayRep m₁.parts c k m.bodySize

theorem Message.advance_parts (m : Message) (c : Container) (n : Nat) :
    (m.advance c n).parts = m.parts := by
  unfold Message.advance Message.setIndex Message.setLastContainer
  split_ifs
  · rfl
  · cases m.containers <;> rfl

theorem Opens.inner {m m₁ : Message} {k : Kind} {a : Option (Nat × Nat)} {c : Container}
    {cs : List Container} {q : Str} {n : Nat} (h : Opens m m₁ k a)
    (hcs : m.containers = c :: cs) (hu : (strempty c.signature).drop c.index = k.ty.sig ++ q)
    (hn : n = c.index + k.ty.sig.length) : Placed m k a (m₁.advance c n) := by
  refine ⟨h.writes.inner hcs hu hn, fun c' root fs rest hc inv => ?_⟩
  rw [Message.advance_parts]
  exact h.loc c' root fs rest hc inv

theorem Opens.outer {m m₁ : Message} {k : Kind} {a : Option (Nat × Nat)} {n : Nat}
    (h : Opens (m.strextendSignature k.ty.sig) m₁ k a) (hcs : m.containers = [])
    (h0 : m.root.enclosing = 0)
    (hn : n = (strempty m.root.signature ++ k.ty.sig).length) :
    Placed m k a (m₁.advance m.root n) := by
  have hext : m.strextendSignature k.ty.sig =
      { m with root := { m.root with
        signature := some (strempty m.root.signature ++ k.ty.sig) } } := by
    simp [Message.strextendSignature, Message.setLastContainer, messageGetLastContainer, hcs]
  have hb : (m.strextendSignature k.ty.sig).bodySize = m.bodySize := by rw [hext]
  have he : (m.strextendSignature k.ty.sig).endian = m.endian := by rw [hext]
  have hw := h.writes
  rw [hb, he] at hw
  refine ⟨hw.outer hcs h0 hn rfl, fun c' root fs rest hc inv => ?_⟩
  rw [Message.advance_parts, ← hb]
  refine h.loc c' root fs rest hc ?_
  rw [hext]
  exact inv.congr rfl rfl rfl rfl

/-! The signature of the current container, read as the opened one asks. -/

theorem Container.drop_of_cur {c : Container} {x : UInt8} (hx : x ≠ 0) (h : c.cur = x) :
    (strempty c.signature).drop c.index = x :: (strempty c.signature).drop (c.index + 1) := by
  rw [Container.cur_eq] at h
  rw [eq_cons_of_charAt hx h, List.drop_drop]

theorem Container.drop_of_hasContents {c : Container} {s : Str} (h : c.hasContents s = true) :
    ∃ q, (strempty c.signature).drop (c.index + 1) = s ++ q := by
  unfold Container.hasContents at h
  obtain ⟨q, hq⟩ := List.isPrefixOf_iff_prefix.mp h
  exact ⟨q, hq.symm⟩

theorem Container.drop_of_hasMembers {c : Container} {first last : UInt8} {s : Str}
    (hf : first ≠ 0) (hl : last ≠ 0) (h : c.hasMembers first last s = true) :
    ∃ q, (strempty c.signature).drop c.index = first :: (s ++ [last]) ++ q := by
  simp only [Container.hasMembers, Bool.and_eq_true, decide_eq_true_eq] at h
  obtain ⟨⟨hcur, hcont⟩, hlast⟩ := h
  obtain ⟨q, hq⟩ := Container.drop_of_hasContents hcont
  rw [charAt_drop, ← List.drop_drop, hq, List.drop_left] at hlast
  refine ⟨q.drop 1, ?_⟩
  rw [Container.drop_of_cur hf hcur, hq]
  conv_lhs => rw [eq_cons_of_charAt hl hlast]
  simp

theorem finishOpen_ok {g : Except Errno (Option (Nat × Nat)) × Message} {c : Container} {n : Nat}
    {a : Option (Nat × Nat)} {m₁ : Message}
    (h : finishOpen c n g = (.ok a, m₁)) : ∃ m₂, g = (.ok a, m₂) ∧ m₁ = m₂.advance c n := by
  obtain ⟨r | b, m₂⟩ := g
  · exact absurd h (by simp [finishOpen])
  · simp only [finishOpen, Prod.mk.injEq, Except.ok.injEq] at h
    obtain ⟨rfl, rfl⟩ := h
    exact ⟨m₂, rfl, rfl⟩

theorem busMessageOpenArray_ok {m m₁ : Message} {contents : Str} {a : Option (Nat × Nat)}
    {root : List Val} {fs : List Frame} (h0 : (0 : UInt8) ∉ contents)
    (hs : SigRep m.root root [] m.containers fs)
    (h : busMessageOpenArray m (messageGetLastContainer m) contents = (.ok a, m₁)) :
    ∃ k : Kind, k.enclosing = sdBusTypeArray ∧ contents = k.contents ∧ k.Valid ∧
      Placed m k a m₁ := by
  simp only [busMessageOpenArray] at h
  split_ifs at h with h1 h2 h3 h4 h5
  · exact absurd h (by simp)
  · exact absurd h (by simp)
  · exact absurd h (by simp)
  · obtain ⟨t, rfl, ht⟩ := (signatureIsSingle_iff h0 true).mp (by simpa using h1)
    refine ⟨.array t, rfl, rfl, ht, ?_⟩
    obtain ⟨m₂, hg, rfl⟩ := finishOpen_ok h
    rcases hs.current with ⟨hcs, -, -, hcur, -, -⟩ | ⟨c, cs, f, fs', hcs, -, -, -⟩
    · rw [messageGetLastContainer_nil hcs] at h2
      exact absurd hcur h2
    · rw [messageGetLastContainer_cons hcs] at h3 h4 ⊢
      have hcur : c.cur = sdBusTypeArray := by simpa using h3
      obtain ⟨q, hq⟩ := Container.drop_of_hasContents (by simpa using h4)
      refine (openArrayBody_ok hg).inner (q := q) hcs ?_ ?_
      · rw [Container.drop_of_cur (by decide) hcur, hq, Kind.ty, Ty.sig]
        rfl
      · simp [Kind.ty, Ty.sig]
        omega
  · exact absurd h (by simp)
  · obtain ⟨t, rfl, ht⟩ := (signatureIsSingle_iff h0 true).mp (by simpa using h1)
    refine ⟨.array t, rfl, rfl, ht, ?_⟩
    obtain ⟨m₂, hg, rfl⟩ := finishOpen_ok h
    rcases hs.current with ⟨hcs, -, henc, -, -, -⟩ | ⟨c, cs, f, fs', hcs, -, hF, -⟩
    · have hu : sdBusTypeArray :: t.sig = (Kind.array t).ty.sig := by rw [Kind.ty, Ty.sig]
      rw [hu] at hg ⊢
      rw [messageGetLastContainer_nil hcs]
      refine (openArrayBody_ok hg).outer hcs henc ?_
      simp [Message.strextendSignature, Message.setLastContainer, messageGetLastContainer, hcs,
        strempty]
    · rw [messageGetLastContainer_cons hcs, hF.1] at h5
      exact absurd f.kind.enclosing_ne_zero (by simpa using h5)

theorem busMessageOpenVariant_ok {m m₁ : Message} {contents : Str} {a : Option (Nat × Nat)}
    {root : List Val} {fs : List Frame} (h0 : (0 : UInt8) ∉ contents)
    (hs : SigRep m.root root [] m.containers fs)
    (h : busMessageOpenVariant m (messageGetLastContainer m) contents = (.ok a, m₁)) :
    ∃ k : Kind, k.enclosing = sdBusTypeVariant ∧ contents = k.contents ∧ k.Valid ∧
      Placed m k a m₁ := by
  have hpad : ∀ n s, sigBytes s = zeros (padTo n 1) ++ sigBytes s := by
    intro n s
    rw [padTo_one, zeros_zero, List.nil_append]
  simp only [busMessageOpenVariant] at h
  split_ifs at h with h1 h2 h3 h4 h5
  · exact absurd h (by simp)
  · exact absurd h (by simp)
  · exact absurd h (by simp)
  · obtain ⟨t, rfl, ht⟩ := (signatureIsSingle_iff h0 false).mp (by simpa using h1)
    refine ⟨.variant t, rfl, rfl, ht, ?_⟩
    obtain ⟨m₂, hg, rfl⟩ := finishOpen_ok h
    rcases hs.current with ⟨hcs, -, -, hcur, -, -⟩ | ⟨c, cs, f, fs', hcs, -, -, -⟩
    · rw [messageGetLastContainer_nil hcs] at h3
      exact absurd hcur h3
    · rw [messageGetLastContainer_cons hcs] at h4 ⊢
      have hcur : c.cur = sdBusTypeVariant := by simpa using h4
      refine (openBody_opens (k := .variant t) (by decide) rfl (hpad _ _) hg).inner
        (q := (strempty c.signature).drop (c.index + 1)) hcs ?_ ?_
      · rw [Container.drop_of_cur (by decide) hcur, Kind.ty, Ty.sig]
        rfl
      · simp [Kind.ty, Ty.sig]
  · exact absurd h (by simp)
  · obtain ⟨t, rfl, ht⟩ := (signatureIsSingle_iff h0 false).mp (by simpa using h1)
    refine ⟨.variant t, rfl, rfl, ht, ?_⟩
    obtain ⟨m₂, hg, rfl⟩ := finishOpen_ok h
    rcases hs.current with ⟨hcs, -, henc, -, -, hidx⟩ | ⟨c, cs, f, fs', hcs, -, hF, -⟩
    · have hu : [sdBusTypeVariant] = (Kind.variant t).ty.sig := by rw [Kind.ty, Ty.sig]
      rw [hu] at hg
      rw [messageGetLastContainer_nil hcs]
      refine (openBody_opens (k := .variant t) (by decide) rfl (hpad _ _) hg).outer hcs henc ?_
      rw [hidx, ← hu]
      simp
    · rw [messageGetLastContainer_cons hcs, hF.1] at h5
      exact absurd f.kind.enclosing_ne_zero (by simpa using h5)

theorem busMessageOpenStruct_ok {m m₁ : Message} {contents : Str} {a : Option (Nat × Nat)}
    {root : List Val} {fs : List Frame} (h0 : (0 : UInt8) ∉ contents)
    (hs : SigRep m.root root [] m.containers fs)
    (h : busMessageOpenStruct m (messageGetLastContainer m) contents = (.ok a, m₁)) :
    ∃ k : Kind, k.enclosing = sdBusTypeStruct ∧ contents = k.contents ∧ k.Valid ∧
      Placed m k a m₁ := by
  simp only [busMessageOpenStruct] at h
  split_ifs at h with h1 h2 h3 h4
  · exact absurd h (by simp)
  · exact absurd h (by simp)
  · obtain ⟨ts, rfl, hts, hlen⟩ := (signatureIsValid_iff h0 false).mp (by simpa using h1)
    refine ⟨.struct ts, rfl, rfl, ⟨hts, hlen⟩, ?_⟩
    obtain ⟨m₂, hg, rfl⟩ := finishOpen_ok h
    rcases hs.current with ⟨hcs, -, -, hcur, -, -⟩ | ⟨c, cs, f, fs', hcs, -, -, -⟩
    · rw [messageGetLastContainer_nil hcs] at h2
      exact absurd hcur h2
    · rw [messageGetLastContainer_cons hcs] at h3 ⊢
      have hmem : c.hasMembers sdBusTypeStructBegin sdBusTypeStructEnd (Ty.sigs ts) = true := by
        simpa using h3
      obtain ⟨q, hq⟩ := Container.drop_of_hasMembers (by decide) (by decide) hmem
      refine (openBody_opens (k := .struct ts) (by decide) rfl (List.append_nil _).symm
        hg).inner (q := q) hcs ?_ ?_
      · rw [hq, Kind.ty, Ty.sig]
      · simp [Kind.ty, Ty.sig]
        omega
  · exact absurd h (by simp)
  · obtain ⟨ts, rfl, hts, hlen⟩ := (signatureIsValid_iff h0 false).mp (by simpa using h1)
    refine ⟨.struct ts, rfl, rfl, ⟨hts, hlen⟩, ?_⟩
    obtain ⟨m₂, hg, rfl⟩ := finishOpen_ok h
    rcases hs.current with ⟨hcs, -, henc, -, -, -⟩ | ⟨c, cs, f, fs', hcs, -, hF, -⟩
    · have hu : sdBusTypeStructBegin :: (Ty.sigs ts ++ [sdBusTypeStructEnd]) =
          (Kind.struct ts).ty.sig := by rw [Kind.ty, Ty.sig]
      rw [hu] at hg ⊢
      rw [messageGetLastContainer_nil hcs]
      refine (openBody_opens (k := .struct ts) (by decide) rfl (List.append_nil _).symm
        hg).outer hcs henc ?_
      simp [Message.strextendSignature, Message.setLastContainer, messageGetLastContainer, hcs,
        strempty]
    · rw [messageGetLastContainer_cons hcs, hF.1] at h4
      exact absurd f.kind.enclosing_ne_zero (by simpa using h4)

theorem busMessageOpenDictEntry_ok {m m₁ : Message} {contents : Str} {a : Option (Nat × Nat)}
    {root : List Val} {fs : List Frame} (h0 : (0 : UInt8) ∉ contents)
    (hs : SigRep m.root root [] m.containers fs)
    (h : busMessageOpenDictEntry m (messageGetLastContainer m) contents = (.ok a, m₁)) :
    ∃ k : Kind, k.enclosing = sdBusTypeDictEntry ∧ contents = k.contents ∧ k.Valid ∧
      Placed m k a m₁ := by
  simp only [busMessageOpenDictEntry] at h
  split_ifs at h with h1 h2 h3 h4
  · exact absurd h (by simp)
  · exact absurd h (by simp)
  · exact absurd h (by simp)
  · obtain ⟨k, v, rfl, hv⟩ := (signatureIsPair_iff h0).mp (by simpa using h1)
    refine ⟨.dictEntry k v, rfl, rfl, hv, ?_⟩
    rcases hs.current with ⟨hcs, -, -, hcur, -, -⟩ | ⟨c, cs, f, fs', hcs, -, -, -⟩
    · rw [messageGetLastContainer_nil hcs] at h3
      exact absurd hcur h3
    · rw [messageGetLastContainer_cons hcs] at h2 h4
      have hmem : c.hasMembers sdBusTypeDictEntryBegin sdBusTypeDictEntryEnd (k.code :: v.sig) = true := by
        simpa using h4
      obtain ⟨q, hq⟩ := Container.drop_of_hasMembers (by decide) (by decide) hmem
      have hadv : ∀ n, m₁.advance c n = m₁ := by
        intro n
        rw [Message.advance, if_pos (by simpa using h2)]
      rw [← hadv (c.index + (Kind.dictEntry k v).ty.sig.length)]
      refine (openBody_opens (k := .dictEntry k v) (by decide) rfl (List.append_nil _).symm
        h).inner (q := q) hcs ?_ rfl
      rw [hq, Kind.ty, Ty.sig]
      rfl
  · exact absurd h (by simp)

theorem openByType_ok {m m₁ : Message} {type : UInt8} {contents : Str} {a : Option (Nat × Nat)}
    {root : List Val} {fs : List Frame} (h0 : (0 : UInt8) ∉ contents)
    (hs : SigRep m.root root [] m.containers fs)
    (h : openByType m type contents = (.ok a, m₁)) :
    ∃ k : Kind, k.enclosing = type ∧ contents = k.contents ∧ k.Valid ∧ Placed m k a m₁ := by
  simp only [openByType] at h
  split_ifs at h with hA hV hS hD
  · rw [hA]
    exact busMessageOpenArray_ok h0 hs h
  · rw [hV]
    exact busMessageOpenVariant_ok h0 hs h
  · rw [hS]
    exact busMessageOpenStruct_ok h0 hs h
  · rw [hD]
    exact busMessageOpenDictEntry_ok h0 hs h
  · exact absurd h (by simp)

theorem sdBusMessageOpenContainer_ok {m m' : Message} {type : UInt8} {contents : Str}
    {root : List Val} {fs : List Frame} (h0 : (0 : UInt8) ∉ contents)
    (hs : SigRep m.root root [] m.containers fs)
    (h : sdBusMessageOpenContainer m type contents = (.ok (), m')) :
    ∃ k a m₁, k.enclosing = type ∧ contents = k.contents ∧ k.Valid ∧ Placed m k a m₁ ∧
      m' = { m₁ with containers :=
        { enclosing := k.enclosing, signature := some k.contents, arraySize := a } ::
          m₁.containers } := by
  simp only [sdBusMessageOpenContainer] at h
  split_ifs at h
  · exact absurd h (by simp)
  · exact absurd h (by simp)
  · split at h
    · exact absurd h (by simp)
    · rename_i a m₁ hopen
      simp only [Prod.mk.injEq, true_and] at h
      obtain ⟨k, rfl, rfl, hv, hp⟩ := openByType_ok h0 hs hopen
      exact ⟨k, a, m₁, rfl, rfl, hv, hp, h.symm⟩

/-! ## Closing a container -/

theorem Frame.close_spec {f : Frame} (h : f.kind.isArray = false → Val.tys f.done = f.kind.members)
    (ha : ∀ t, f.kind = .array t → ∀ u ∈ Val.tys f.done, u = t) (hk : f.kind.Valid)
    (hm : Val.AllMade f.done) :
    f.close.ty = f.kind.ty ∧ f.close.Made ∧ f.close.sigsFit = f.sigsFit ∧
      ∀ e p, f.close.enc e p = f.kind.head e p (Val.encs e f.done (f.kind.start p)).length ++
        Val.encs e f.done (f.kind.start p) := by
  obtain ⟨k, done⟩ := f
  cases k with
  | array t =>
    refine ⟨rfl, ?_, by simp [Frame.close, Val.sigsFit, Frame.sigsFit, Kind.sigsFit],
      fun e p => ?_⟩
    · simp only [Frame.close, Val.Made]
      exact ⟨hk, ha t rfl, hm⟩
    · simp only [Frame.close, Val.enc, Kind.head, Kind.start]
  | variant t =>
    have hd := h rfl
    have hlen := congrArg List.length hd
    obtain ⟨v, rfl⟩ := List.length_eq_one_iff.mp
      (by simpa [Val.tys_eq_map, Kind.members] using hlen : done.length = 1)
    have hv : v.ty = t := by simpa [Val.tys, Kind.members] using hd
    subst hv
    simp only [Val.AllMade] at hm
    refine ⟨rfl, ?_, by simp [Frame.close, Val.sigsFit, Frame.sigsFit, Kind.sigsFit,
      Val.allSigsFit], fun e p => ?_⟩
    · simp only [Frame.close, Val.Made]
      exact ⟨hk, hm.1⟩
    · simp only [Frame.close, Val.enc, Kind.head, Kind.start, Val.encs_singleton]
  | struct ts =>
    have hd : Val.tys done = ts := h rfl
    subst hd
    refine ⟨?_, ?_, by simp [Frame.close, Val.sigsFit, Frame.sigsFit, Kind.sigsFit],
      fun e p => ?_⟩
    · simp only [Frame.close, Val.ty, Kind.ty]
    · simp only [Frame.close, Val.Made]
      exact ⟨hk, hm⟩
    · simp only [Frame.close, Val.enc, Kind.head, Kind.start]
  | dictEntry kt vt =>
    have hd := h rfl
    have hlen := congrArg List.length hd
    obtain ⟨a, b, rfl⟩ := List.length_eq_two.mp
      (by simpa [Val.tys_eq_map, Kind.members] using hlen : done.length = 2)
    simp only [Val.tys, Kind.members, List.cons.injEq, and_true] at hd
    obtain ⟨hkey, rfl⟩ := hd
    cases a with
    | basic kv =>
      have hkt : kv.type = kt := by simpa [Val.ty] using hkey
      subst hkt
      simp only [Val.AllMade] at hm
      refine ⟨?_, ?_, by simp [Frame.close, Val.sigsFit, Frame.sigsFit, Kind.sigsFit,
        Val.allSigsFit], fun e p => ?_⟩
      · simp only [Frame.close, Val.ty, Kind.ty]
      · simp only [Frame.close, Val.Made]
        exact ⟨hk, hm.2.1⟩
      · simp only [Frame.close, Val.enc, Kind.head, Kind.start, Val.encs, List.append_nil]
    | _ => exact absurd hkey (by simp [Val.ty])

theorem sdBusMessageCloseContainer_ok {m m' : Message}
    (h : sdBusMessageCloseContainer m = (.ok (), m')) :
    ∃ c cs, m.containers = c :: cs ∧ (c.enclosing = sdBusTypeArray ∨ c.cur = 0) ∧
      m' = { m with containers := cs } := by
  cases hcs : m.containers with
  | nil =>
    simp only [sdBusMessageCloseContainer, hcs] at h
    split_ifs at h <;> exact absurd h (by simp)
  | cons c cs =>
    simp only [sdBusMessageCloseContainer, hcs] at h
    split_ifs at h with h1 h2 h3
    · exact absurd h (by simp)
    · exact absurd h (by simp)
    · exact absurd h (by simp)
    · simp only [Prod.mk.injEq, true_and] at h
      exact ⟨c, cs, rfl, by tauto, h.symm⟩

theorem FrameSig.complete {c : Container} {f : Frame} (h : FrameSig c f [])
    (hc : c.enclosing = sdBusTypeArray ∨ c.cur = 0) (hk : f.kind.isArray = false) :
    Val.tys f.done = f.kind.members := by
  obtain ⟨us, hus, -, hall⟩ := h.rest
  have hne : c.enclosing ≠ sdBusTypeArray := by
    rw [h.1]
    cases hk' : f.kind with
    | array t => rw [hk'] at hk; exact absurd hk (by simp [Kind.isArray])
    | _ => rw [Kind.enclosing]; decide
  have hcur := hc.resolve_left hne
  rw [Container.cur_eq, hus] at hcur
  cases us with
  | nil => simpa using hall hk
  | cons u us =>
    rw [Ty.sigs, Ty.charAt_sig_append] at hcur
    exact absurd hcur u.head_ne_zero

theorem FrameSig.elements {c : Container} {f : Frame} (h : FrameSig c f []) (t : Ty)
    (hk : f.kind = .array t) : ∀ u ∈ Val.tys f.done, u = t := by
  have := h.2.2
  rw [hk] at this
  simpa using this.2

/-! ## Every call keeps the invariant -/

theorem BodyInv.push {m : Message} {T : Tree} {v : Val}
    (h : BodyInv m T.root T.frames
      (v.enc m.endian (stackPos m.endian T.root T.frames))) :
    BodyInv m (T.push v).root (T.push v).frames [] := by
  refine ⟨?_, h.size, ?_⟩
  · rw [List.append_nil, Tree.encStack_push]
    exact h.flat_eq
  · have hst := h.stack
    cases hf : T.frames with
    | nil =>
      rw [hf] at hst
      simp only [Tree.push, hf]
      cases hc : m.containers with
      | nil => trivial
      | cons c cs => rw [hc] at hst; exact hst.elim
    | cons f fs =>
      rw [hf] at hst
      simp only [Tree.push, hf]
      cases hc : m.containers with
      | nil => rw [hc] at hst; exact hst.elim
      | cons c cs => rw [hc] at hst; exact hst

theorem Tree.Made.push {T : Tree} {v : Val} (h : T.Made) (hv : v.Made) : (T.push v).Made := by
  have happ : ∀ vs, Val.AllMade vs → Val.AllMade (vs ++ [v]) := by
    intro vs hvs
    rw [Val.allMade_iff] at hvs ⊢
    simpa [or_imp, forall_and] using ⟨hvs, hv⟩
  cases hf : T.frames with
  | nil =>
    simp only [Tree.push, hf]
    exact ⟨happ _ h.1, by simp⟩
  | cons f fs =>
    have h2 := h.2
    simp only [hf, List.mem_cons, forall_eq_or_imp] at h2
    simp only [Tree.push, hf]
    refine ⟨h.1, ?_⟩
    simp only [List.mem_cons, forall_eq_or_imp]
    exact ⟨⟨h2.1.1, happ _ h2.1.2⟩, h2.2⟩

theorem WInv.bodySize {m : Message} {T : Tree} (h : WInv m T) :
    m.bodySize = stackPos m.endian T.root T.frames := by
  have := h.body.stackPos_le
  simpa using this.symm

theorem WInv.appendBasic {m m' : Message} {T : Tree} {p : BasicArg} (inv : WInv m T)
    (h : messageAppendBasic m p = (.ok (), m')) :
    WInv m' { T.push (.basic (p.val T.fds.length)) with fds := T.fds ++ p.fds } := by
  obtain ⟨-, hfd, hw⟩ := messageAppendBasic_ok rfl inv.sigs h
  have hplace := hw.place
  have hbody := hw.body _ _ _ inv.body
  rw [inv.bodySize, List.nil_append, ← hw.kept.endian] at hbody
  have hsig := inv.sigs.place hw.expects
  rw [← hplace] at hsig
  rw [← inv.fds]
  refine ⟨?_, ?_, ?_, ?_, ?_, by rw [hw.bodySize]; exact hw.limit⟩
  · exact hbody.push (v := .basic (p.val m.fds.length))
  · exact SigRep.push (v := .basic (p.val m.fds.length)) rfl hsig
  · exact inv.made.push (v := .basic (p.val m.fds.length)) trivial
  · exact hw.fds
  · have := inv.fdsSize
    rw [hw.fds, hw.bodySize, List.length_append]
    omega

theorem WInv.openContainer {m m' : Message} {T : Tree} {type : UInt8} {contents : Str}
    (inv : WInv m T) (h0 : (0 : UInt8) ∉ contents)
    (h : sdBusMessageOpenContainer m type contents = (.ok (), m')) :
    ∃ k : Kind, k.enclosing = type ∧ contents = k.contents ∧
      WInv m' { T with frames := ⟨k, []⟩ :: T.frames } := by
  obtain ⟨k, a, m₁, rfl, rfl, hv, hp, rfl⟩ := sdBusMessageOpenContainer_ok h0 inv.sigs h
  refine ⟨k, rfl, rfl, ?_⟩
  have hw := hp.wrote
  have hbody := hw.body _ _ _ inv.body
  have hlen := k.length_head m.endian m.bodySize 0
  have hsize : m₁.bodySize = k.start m.bodySize := by rw [hw.bodySize, hlen]
  have hend := hw.kept.endian
  have hplace := hw.place
  have hsig := inv.sigs.place hw.expects
  rw [← hplace] at hsig
  refine ⟨⟨?_, hbody.size, ?_, hbody.stack⟩, ⟨⟨rfl, rfl, ?_⟩, hsig⟩, ?_, ?_, ?_,
    le_of_eq_of_le hw.bodySize hw.limit⟩
  · simp only [encStack, Val.encs, List.append_nil, length_encStack_eq, hbody.flat_eq, hend,
      List.nil_append]
    rw [← inv.bodySize, hsize, Nat.sub_self]
  · have hst := hp.loc { enclosing := k.enclosing, signature := some k.contents, arraySize := a }
      _ _ _ rfl inv.body
    rw [inv.bodySize, ← hend] at hst
    exact hst
  · cases k <;> simp [Val.tys, Ty.sigs]
  · refine ⟨inv.made.1, ?_⟩
    simp only [List.mem_cons, forall_eq_or_imp]
    exact ⟨⟨hv, trivial⟩, inv.made.2⟩
  · rw [← inv.fds]
    simpa using hw.fds
  · have hfs : m₁.fds = m.fds := by simpa using hw.fds
    have := inv.fdsSize
    rw [hfs]
    have := hw.bodySize
    simp only
    omega

theorem WInv.closeContainer {m m' : Message} {T : Tree} (inv : WInv m T)
    (h : sdBusMessageCloseContainer m = (.ok (), m')) :
    ∃ f fs, T.frames = f :: fs ∧ f.close.sigsFit = f.sigsFit ∧
      WInv m' (Tree.push { T with frames := fs } f.close) := by
  obtain ⟨c, cs, hcs, hc, rfl⟩ := sdBusMessageCloseContainer_ok h
  rcases inv.sigs.current with ⟨hcs', -⟩ | ⟨c', cs', f, fs, hcs', hfs, hF, hS⟩
  · exact absurd (hcs.symm.trans hcs') (by simp)
  · obtain ⟨rfl, rfl⟩ := List.cons.inj (hcs.symm.trans hcs')
    have hmade := inv.made.2
    simp only [hfs, List.mem_cons, forall_eq_or_imp] at hmade
    obtain ⟨hty, hmf, hfit, henc⟩ :=
      f.close_spec (hF.complete hc) hF.elements hmade.1.1 hmade.1.2
    refine ⟨f, fs, hfs, hfit, ?_⟩
    have hbody := inv.body
    have hstack := hbody.stack
    have hpos := inv.bodySize
    rw [hfs, stackPos_cons] at hpos
    rw [hcs, hfs] at hstack
    have hflat := hbody.flat_eq
    simp only [hfs, encStack, length_encStack_eq, List.append_nil] at hflat
    rw [show m.bodySize - f.kind.start (stackPos m.endian T.root fs) =
      (Val.encs m.endian f.done (f.kind.start (stackPos m.endian T.root fs))).length by omega]
      at hflat
    refine ⟨?_, ?_, ?_, by rw [Tree.push_fds]; exact inv.fds, inv.fdsSize, inv.limit⟩
    · refine BodyInv.push (T := { T with frames := fs }) ⟨?_, hbody.size, hstack.2⟩
      rw [henc]
      exact hflat
    · exact SigRep.push (T := { T with frames := fs }) hty hS
    · exact Tree.Made.push (T := { T with frames := fs }) ⟨inv.made.1, hmade.2⟩ hmf

theorem WInv.step {m m' : Message} {T : Tree} {op : Op} (inv : WInv m T)
    (h : op.exec m = (.ok (), m')) :
    ∃ T', T.Step op T' ∧ WInv m' T' ∧ T'.sigsFit = (T.sigsFit && op.sigsFit) := by
  cases op with
  | appendBasic p =>
    refine ⟨_, .basic T p, inv.appendBasic h, ?_⟩
    refine (T.sigsFit_push (.basic (p.val T.fds.length))).trans ?_
    cases p <;> simp [BasicArg.val, Val.sigsFit, BasicVal.sigsFit, Op.sigsFit]
  | openContainer type contents =>
    obtain ⟨k, rfl, hk, hinv⟩ := inv.openContainer contents.2 h
    refine ⟨_, .opened T k contents hk, hinv, ?_⟩
    have hfit : (Frame.mk k []).sigsFit = (Op.openContainer k.enclosing contents).sigsFit := by
      simp only [Frame.sigsFit, Val.allSigsFit, Bool.and_true, Op.sigsFit, hk]
      cases k <;> simp [Kind.sigsFit, Kind.enclosing, Kind.contents, sdBusTypeArray,
        sdBusTypeVariant, sdBusTypeStruct, sdBusTypeDictEntry]
    simp only [Tree.sigsFit, List.all_cons, ← hfit]
    ac_rfl
  | closeContainer =>
    obtain ⟨f, fs, hfs, hfit, hinv⟩ := inv.closeContainer h
    refine ⟨_, .closed T f fs hfs, hinv, ?_⟩
    rw [Tree.sigsFit_push, hfit]
    simp only [Tree.sigsFit, hfs, List.all_cons, Op.sigsFit, Bool.and_true]
    ac_rfl

theorem WInv.runs {m m' : Message} {T : Tree} {ops : List Op} (inv : WInv m T)
    (h : Runs m ops m') :
    ∃ T', T.Steps ops T' ∧ WInv m' T' ∧ T'.sigsFit = (T.sigsFit && ops.all Op.sigsFit) := by
  induction h generalizing T with
  | nil m => exact ⟨T, .nil T, inv, by simp⟩
  | cons h _ ih =>
    obtain ⟨T₁, hstep, inv₁, hfit₁⟩ := inv.step h
    obtain ⟨T₂, hsteps, inv₂, hfit₂⟩ := ih inv₁
    exact ⟨T₂, .cons hstep hsteps, inv₂, by rw [hfit₂, hfit₁, List.all_cons, Bool.and_assoc]⟩

end Basu
