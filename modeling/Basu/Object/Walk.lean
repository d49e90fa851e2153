import Basu.Object.Rooted
import Basu.Object.Dispatch

/-! What every walk along the object tree keeps to, whatever the functions called back do: the
order of the paths, fallbacks below their own path only, each handler once, nothing behind a
handler that took the call, and no handler without access. -/

namespace Basu
open Lib
open Function

theorem append_singleton_split {α : Type*} {l pre post : List α} {x y : α}
    (h : l ++ [y] = pre ++ x :: post) :
    (post = [] ∧ l = pre ∧ y = x) ∨ ∃ post', post = post' ++ [y] ∧ l = pre ++ x :: post' := by
  rcases List.eq_nil_or_concat post with rfl | ⟨post', z, rfl⟩
  · obtain ⟨hl, hy⟩ := List.append_inj' h rfl
    exact .inl ⟨rfl, hl, (List.cons.inj hy).1⟩
  · rw [List.concat_eq_append, ← List.cons_append, ← List.append_assoc] at h
    obtain ⟨hl, hy⟩ := List.append_inj' h rfl
    rw [List.concat_eq_append, (List.cons.inj hy).1]
    exact .inr ⟨post', rfl, hl⟩

theorem mem_filterMap_append {α β : Type*} {f : α → Option β} {l : List α} {e : α} {x : β} :
    x ∈ (l ++ [e]).filterMap f ↔ x ∈ l.filterMap f ∨ f e = some x := by
  simp

theorem nodup_filterMap_append {α β : Type*} {f : α → Option β} {l : List α} {e : α}
    (h : (l.filterMap f).Nodup) (he : ∀ x, f e = some x → x ∉ l.filterMap f) :
    ((l ++ [e]).filterMap f).Nodup := by
  rw [List.filterMap_append]
  rcases hf : f e with _ | x
  · simpa [hf] using h
  · rw [List.filterMap_cons_some hf, List.filterMap_nil, List.nodup_append]
    refine ⟨h, List.nodup_singleton x, fun a ha b hb => ?_⟩
    rw [List.mem_singleton.mp hb]
    rintro rfl
    exact he a hf ha

def UserCall.slot : UserCall → Nat
  | .callback s => s
  | .method s _ => s
  | .get s _ => s
  | .set s _ => s
  | .find s => s
  | .enumerator s => s

def WalkEvent.callback? : WalkEvent → Option Nat
  | .call r => match r.call with
    | .callback s => some s
    | _ => none
  | _ => none

def WalkEvent.method? : WalkEvent → Option (Nat × Str × Str × Str)
  | .call r => match r.call with
    | .method s key => some (s, key)
    | _ => none
  | _ => none

def UserCall.needs : UserCall → Option (Nat × Str × Str × Str)
  | .method s key => some (s, key)
  | .set s key => some (s, key)
  | _ => none

def UserCall.isHandler : UserCall → Bool
  | .callback _ => true
  | .method _ _ => true
  | _ => false

def UserCall.isProperty : UserCall → Bool
  | .get _ _ => true
  | .set _ _ => true
  | _ => false

def UserCall.isEnumerator : UserCall → Bool
  | .enumerator _ => true
  | _ => false

/-- A callback or a method handler that returned something else than zero, or a property handler
that failed; the error may be set as well. -/
def CallRecord.Took (r : CallRecord) : Prop :=
  (r.call.isHandler = true ∧ (r.outcome.ret ≠ .zero ∨ r.outcome.error = true)) ∨
    (r.call.isProperty = true ∧ (r.outcome.ret = .neg ∨ r.outcome.error = true))

structure Serves (b : ObjBus) (p served : Str) (s : Nat) : Prop where
  lt : s < b.nSlots
  path : (b.slot s).path = p
  above : p ∈ served :: objectPathPrefixes served
  own : (b.slot s).isFallback = false → p = served

def Going (log : List WalkEvent) : Prop := ∀ r, .call r ∈ log → ¬ r.Took

def Ended (log : List WalkEvent) : Prop :=
  ∀ pre r post, log = pre ++ .call r :: post → r.Took → ∀ r', .call r' ∉ post

theorem Going.ended {log : List WalkEvent} (h : Going log) : Ended log := by
  rintro pre r post rfl ht
  exact absurd ht (h r (by simp))

/-- The laws of the record, with what the marks say about it. -/
structure WalkInv (wb : WalkBus) (m : ObjectCall) (w : Walk) : Prop where
  rooted : Rooted w.bus
  callbacks : (w.log.filterMap WalkEvent.callback?).Nodup
  callbackMark : ∀ s ∈ w.log.filterMap WalkEvent.callback?,
    s < w.bus.nSlots ∧ (w.bus.slot s).lastIteration = wb.iterationCounter
  methods : (w.log.filterMap WalkEvent.method?).Nodup
  methodMark : ∀ x ∈ w.log.filterMap WalkEvent.method?, x.1 < w.bus.nSlots ∧
    ∀ c ∈ w.bus.members .method, c.parent = x.1 → c.key = x.2 →
      c.lastIteration = wb.iterationCounter
  serves : ∀ r, .call r ∈ w.log → r.call.isEnumerator = false →
    Serves r.bus r.place r.served r.call.slot
  handled : ∀ r, .call r ∈ w.log → (r.call.isHandler = true ∨ r.call.needs ≠ none) →
    r.served = m.path
  access : ∀ pre r post x, w.log = pre ++ .call r :: post → r.call.needs = some x →
    .access x.1 x.2 true ∈ pre

structure Later (w w' : Walk) : Prop where
  earlier : w'.earlier = w.earlier
  pass : w'.pass = w.pass
  nNodes : w.bus.nNodes ≤ w'.bus.nNodes
  nodePath : ∀ n < w.bus.nNodes, (w'.bus.node n).path = (w.bus.node n).path
  nSlots : w.bus.nSlots ≤ w'.bus.nSlots
  slot : ∀ s < w.bus.nSlots, (w'.bus.slot s).path = (w.bus.slot s).path ∧
    (w'.bus.slot s).isFallback = (w.bus.slot s).isFallback

theorem Later.of_bus {w w' : Walk} (he : w'.earlier = w.earlier) (hp : w'.pass = w.pass)
    (hb : w'.bus = w.bus) : Later w w' :=
  ⟨he, hp, by rw [hb], fun _ _ => by rw [hb], by rw [hb], fun _ _ => by rw [hb]; exact ⟨rfl, rfl⟩⟩

theorem Later.refl (w : Walk) : Later w w := .of_bus rfl rfl rfl

theorem Later.trans {w w' w'' : Walk} (h : Later w w') (h' : Later w' w'') : Later w w'' where
  earlier := h'.earlier.trans h.earlier
  pass := h'.pass.trans h.pass
  nNodes := h.nNodes.trans h'.nNodes
  nodePath n hn := (h'.nodePath n (hn.trans_le h.nNodes)).trans (h.nodePath n hn)
  nSlots := h.nSlots.trans h'.nSlots
  slot s hs := by
    obtain ⟨hp, hf⟩ := h.slot s hs
    obtain ⟨hp', hf'⟩ := h'.slot s (hs.trans_le h.nSlots)
    exact ⟨hp'.trans hp, hf'.trans hf⟩

theorem Serves.later {w w' : Walk} {p served : Str} {s : Nat} (h : Serves w.bus p served s)
    (hl : Later w w') : Serves w'.bus p served s := by
  obtain ⟨hp, hf⟩ := hl.slot s h.lt
  exact ⟨h.lt.trans_le hl.nSlots, hp.trans h.path, h.above, fun he => h.own (hf.symm.trans he)⟩

section
variable {env : WalkEnv} {wb : WalkBus} {m : ObjectCall} {w w' : Walk}

theorem WalkInv.record (h : WalkInv wb m w) {e : WalkEvent} (he : ∀ r, e ≠ .call r) :
    WalkInv wb m (w.record e) := by
  have hcb : e.callback? = none := by
    cases e with
    | call r => exact absurd rfl (he r)
    | _ => rfl
  have hme : e.method? = none := by
    cases e with
    | call r => exact absurd rfl (he r)
    | _ => rfl
  have hcbs : (w.log ++ [e]).filterMap WalkEvent.callback? =
      w.log.filterMap WalkEvent.callback? := by simp [hcb]
  have hmes : (w.log ++ [e]).filterMap WalkEvent.method? =
      w.log.filterMap WalkEvent.method? := by simp [hme]
  have hcall : ∀ r, .call r ∈ w.log ++ [e] → .call r ∈ w.log := by
    intro r hr
    rcases List.mem_append.mp hr with hr | hr
    · exact hr
    · exact absurd (List.mem_singleton.mp hr).symm (he r)
  refine ⟨h.rooted, ?_, ?_, ?_, ?_, fun r hr => h.serves r (hcall r hr),
    fun r hr => h.handled r (hcall r hr), ?_⟩
  · exact hcbs ▸ h.callbacks
  · exact hcbs ▸ h.callbackMark
  · exact hmes ▸ h.methods
  · exact hmes ▸ h.methodMark
  · intro pre r post x hlog hx
    rcases append_singleton_split hlog with ⟨-, -, hr⟩ | ⟨post', -, hl⟩
    · exact absurd hr (he r)
    · exact h.access pre r post' x hl hx

theorem Going.record {log : List WalkEvent} (h : Going log) {e : WalkEvent}
    (he : ∀ r, e = .call r → ¬ r.Took) : Going (log ++ [e]) := by
  intro r hr
  rcases List.mem_append.mp hr with hr | hr
  · exact h r hr
  · exact he r (List.mem_singleton.mp hr).symm

theorem Ended.record {log : List WalkEvent} (h : Ended log) {e : WalkEvent}
    (he : ∀ r, e ≠ .call r) : Ended (log ++ [e]) := by
  intro pre r post hlog ht r' hr'
  rcases append_singleton_split hlog with ⟨rfl, -, -⟩ | ⟨post', rfl, hl⟩
  · exact List.not_mem_nil hr'
  · rcases List.mem_append.mp hr' with hr' | hr'
    · exact h pre r post' hl ht r' hr'
    · exact he r' (List.mem_singleton.mp hr').symm

theorem Rooted.congrSlots {b b' : ObjBus} (h : Rooted b) (hn : b'.node = b.node)
    (hm : b'.nodes = b.nodes) (hN : b'.nNodes = b.nNodes) (hS : b'.nSlots = b.nSlots)
    (hs : ∀ s, (b'.slot s).connected = (b.slot s).connected ∧ (b'.slot s).type = (b.slot s).type ∧
      (b'.slot s).node = (b.slot s).node ∧ (b'.slot s).path = (b.slot s).path)
    (hc : ∀ k, ∀ c ∈ b'.members k, ∃ c' ∈ b.members k, c.path = c'.path ∧ c.parent = c'.parent) :
    Rooted b' := by
  refine ⟨h.toShape.congr hn hm hN, ⟨?_, ?_, ?_⟩, ?_, ?_⟩
  · rw [hn]
    exact h.nodup
  · intro n t s
    obtain ⟨h₁, h₂, h₃, -⟩ := hs s
    rw [hn, h₁, h₂, h₃]
    exact h.mem_attached n t s
  · intro s hcon
    rw [hS]
    exact h.slotBound s ((hs s).1 ▸ hcon)
  · intro n t s hmem
    rw [hn] at hmem ⊢
    rw [(hs s).2.2.2]
    exact h.attachedPath n t s hmem
  · intro k c hck
    obtain ⟨c', hc', hp, hpar⟩ := hc k c hck
    rw [hS, (hs _).2.2.2, hp, hpar]
    exact h.memberPath k c' hc'

theorem markSlot_slot (w : Walk) (s i k : Nat) : ((w.markSlot s i).bus.slot k) =
    if k = s then { w.bus.slot s with lastIteration := i } else w.bus.slot k := by
  simp only [Walk.markSlot, setSlot_slot]

theorem WalkInv.markSlot (h : WalkInv wb m w) (s : Nat) :
    WalkInv wb m (w.markSlot s wb.iterationCounter) := by
  have hslot : ∀ k, ((w.markSlot s wb.iterationCounter).bus.slot k).lastIteration =
      if k = s then wb.iterationCounter else (w.bus.slot k).lastIteration := by
    intro k
    rw [markSlot_slot]
    split <;> rfl
  refine { h with rooted := ?_, callbackMark := fun k hk => ⟨(h.callbackMark k hk).1, ?_⟩ }
  · refine h.rooted.congrSlots rfl rfl rfl rfl (fun k => ?_) (fun _ c hc => ⟨c, hc, rfl, rfl⟩)
    rw [markSlot_slot]
    split
    · next hk => rw [hk]; exact ⟨rfl, rfl, rfl, rfl⟩
    · exact ⟨rfl, rfl, rfl, rfl⟩
  · rw [hslot]
    split
    · rfl
    · exact (h.callbackMark k hk).2

theorem mem_markMember {k k' : MemberKind} {key : Str × Str × Str} {i : Nat} {c : VtableMember}
    (hc : c ∈ (w.markMember k key i).bus.members k') :
    (c ∈ w.bus.members k' ∧ (k' = k → c.key ≠ key)) ∨
      (k' = k ∧ ∃ c' ∈ w.bus.members k', c'.key = key ∧ c = { c' with lastIteration := i }) := by
  simp only [Walk.markMember, ObjBus.setMembers, update_apply] at hc
  split at hc
  · next hk =>
    obtain ⟨c', hc', hcc⟩ := List.mem_map.mp hc
    split at hcc
    · next hkey => exact .inr ⟨hk, c', hk ▸ hc', hkey, hcc.symm⟩
    · next hkey => exact .inl ⟨by rw [← hcc, hk]; exact hc', fun _ => hcc ▸ hkey⟩
  · next hk => exact .inl ⟨hc, fun he => absurd he hk⟩

theorem WalkInv.markMember (h : WalkInv wb m w) (k : MemberKind) (key : Str × Str × Str) :
    WalkInv wb m (w.markMember k key wb.iterationCounter) := by
  refine { h with rooted := ?_, methodMark := fun x hx => ⟨(h.methodMark x hx).1, ?_⟩ }
  · refine h.rooted.congrSlots rfl rfl rfl rfl (fun _ => ⟨rfl, rfl, rfl, rfl⟩) (fun k' c hc => ?_)
    rcases mem_markMember hc with ⟨hc, -⟩ | ⟨-, c', hc', -, rfl⟩
    · exact ⟨c, hc, rfl, rfl⟩
    · exact ⟨c', hc', rfl, rfl⟩
  · intro c hc hpar hkey
    rcases mem_markMember hc with ⟨hc, -⟩ | ⟨-, c', hc', -, rfl⟩
    · exact (h.methodMark x hx).2 c hc hpar hkey
    · rfl

structure MayCall (wb : WalkBus) (m : ObjectCall) (w : Walk) (p served : Str) (c : UserCall) :
    Prop where
  serves : c.isEnumerator = false → Serves w.bus p served c.slot
  handled : (c.isHandler = true ∨ c.needs ≠ none) → served = m.path
  access : ∀ x, c.needs = some x → .access x.1 x.2 true ∈ w.log
  callback : ∀ s, c = .callback s → s ∉ w.log.filterMap WalkEvent.callback? ∧
    (w.bus.slot s).lastIteration = wb.iterationCounter
  method : ∀ s key, c = .method s key → (s, key) ∉ w.log.filterMap WalkEvent.method? ∧
    ∀ d ∈ w.bus.members .method, d.parent = s → d.key = key →
      d.lastIteration = wb.iterationCounter

theorem WalkInv.invoke (h : WalkInv wb m w) {p : Str} {rf : Bool} {served : Str} {c : UserCall}
    (hc : MayCall wb m w p served c) : WalkInv wb m (w.invoke env p rf served c).1 := by
  obtain ⟨hr, hk⟩ := h.rooted.execAll (env.respond w.log c served).ops
  set r : CallRecord := ⟨w.bus, c, served, p, rf, env.respond w.log c served⟩
  have hnew : ∀ r', WalkEvent.call r' ∈ w.log ++ [.call r] → .call r' ∈ w.log ∨ r' = r := by
    intro r' hr'
    simpa using hr'
  have hcb : ∀ s, WalkEvent.callback? (.call r) = some s → c = .callback s := by
    intro s hs
    cases c with
    | callback s' => exact congrArg UserCall.callback (Option.some.inj hs)
    | _ => exact absurd hs (by simp [WalkEvent.callback?, r])
  have hme : ∀ x, WalkEvent.method? (.call r) = some x → c = .method x.1 x.2 := by
    intro x hx
    cases c with
    | method s' key => rw [← Option.some.inj hx]
    | _ => exact absurd hx (by simp [WalkEvent.method?, r])
  refine ⟨hr, ?_, ?_, ?_, ?_, ?_, ?_, ?_⟩
  · exact nodup_filterMap_append h.callbacks fun s hs => (hc.callback s (hcb s hs)).1
  · intro s hs
    obtain ⟨hlt, hmark⟩ : s < w.bus.nSlots ∧
        (w.bus.slot s).lastIteration = wb.iterationCounter := by
      rcases mem_filterMap_append.mp hs with hs | hs
      · exact h.callbackMark s hs
      · have hcs := hcb s hs
        have hlt := (hc.serves (by rw [hcs]; rfl)).lt
        rw [hcs] at hlt
        exact ⟨hlt, (hc.callback s hcs).2⟩
    exact ⟨hlt.trans_le hk.nSlots, (hk.slot s hlt).2.2.trans hmark⟩
  · exact nodup_filterMap_append h.methods fun x hx => (hc.method x.1 x.2 (hme x hx)).1
  · intro x hx
    obtain ⟨hlt, hmark⟩ : x.1 < w.bus.nSlots ∧ ∀ d ∈ w.bus.members .method, d.parent = x.1 →
        d.key = x.2 → d.lastIteration = wb.iterationCounter := by
      rcases mem_filterMap_append.mp hx with hx | hx
      · exact h.methodMark x hx
      · have hcx := hme x hx
        have hlt := (hc.serves (by rw [hcx]; rfl)).lt
        rw [hcx] at hlt
        exact ⟨hlt, (hc.method x.1 x.2 hcx).2⟩
    exact ⟨hlt.trans_le hk.nSlots,
      fun d hd hpar => hmark d (hk.members _ d hd (hpar ▸ hlt)) hpar⟩
  · intro r' hr'
    rcases hnew r' hr' with hr' | rfl
    · exact h.serves r' hr'
    · exact hc.serves
  · intro r' hr'
    rcases hnew r' hr' with hr' | rfl
    · exact h.handled r' hr'
    · exact hc.handled
  · intro pre r' post x hl hx
    rcases append_singleton_split hl with ⟨-, rfl, hre⟩ | ⟨post', -, hl⟩
    · obtain rfl : r = r' := WalkEvent.call.inj hre
      exact hc.access x hx
    · exact h.access pre r' post' x hl hx

structure Calm (wb : WalkBus) (m : ObjectCall) (w w' : Walk) : Prop where
  later : Later w w'
  inv : WalkInv wb m w'
  going : Going w'.log
  methods : w'.log.filterMap WalkEvent.method? = w.log.filterMap WalkEvent.method?
  grows : w.log <+: w'.log

/-- A piece that invokes property handlers only, and returns a negative value if one fails. -/
structure Tame (wb : WalkBus) (m : ObjectCall) (w : Walk) (x : Walk × Ret) : Prop where
  later : Later w x.1
  inv : WalkInv wb m x.1
  ended : Ended x.1.log
  going : x.2 ≠ .neg → Going x.1.log
  methods : x.1.log.filterMap WalkEvent.method? = w.log.filterMap WalkEvent.method?
  grows : w.log <+: x.1.log

structure Good (wb : WalkBus) (m : ObjectCall) (w : Walk) (x : Walk × Ret) : Prop where
  later : Later w x.1
  inv : WalkInv wb m x.1
  ended : Ended x.1.log
  going : x.2 = .zero → Going x.1.log

theorem Calm.refl (h : WalkInv wb m w) (hg : Going w.log) : Calm wb m w w :=
  ⟨.refl w, h, hg, rfl, List.prefix_refl _⟩

theorem Calm.trans {w'' : Walk} (h : Calm wb m w w') (h' : Calm wb m w' w'') : Calm wb m w w'' :=
  ⟨h.later.trans h'.later, h'.inv, h'.going, h'.methods.trans h.methods, h.grows.trans h'.grows⟩

theorem Calm.good (h : Calm wb m w w') (r : Ret) : Good wb m w (w', r) :=
  ⟨h.later, h.inv, h.going.ended, fun _ => h.going⟩

theorem Calm.tame (h : Calm wb m w w') (r : Ret) : Tame wb m w (w', r) :=
  ⟨h.later, h.inv, h.going.ended, fun _ => h.going, h.methods, h.grows⟩

theorem Tame.calm {x : Walk × Ret} (h : Tame wb m w x) (hx : x.2 ≠ .neg) : Calm wb m w x.1 :=
  ⟨h.later, h.inv, h.going hx, h.methods, h.grows⟩

theorem Calm.tame_trans {x : Walk × Ret} (h : Calm wb m w w') (h' : Tame wb m w' x) :
    Tame wb m w x :=
  ⟨h.later.trans h'.later, h'.inv, h'.ended, h'.going, h'.methods.trans h.methods,
    h.grows.trans h'.grows⟩

theorem Good.of_later {x : Walk × Ret} (h : Good wb m w' x) (hl : Later w w') : Good wb m w x :=
  ⟨hl.trans h.later, h.inv, h.ended, h.going⟩

theorem Good.seq {f g : WalkStep} {v : Walk} (h : Good wb m w (f v))
    (hg : Good wb m w (f v) → Going (f v).1.log → Good wb m (f v).1 (g (f v).1)) :
    Good wb m w (WalkStep.seq f g v) := by
  unfold WalkStep.seq
  split
  · next hz => exact (hg h (h.going hz)).of_later h.later
  · exact h

variable (wb m) in
def CalmFrom (v : Walk) (f : WalkStep) : Prop :=
  ∀ w, Later v w → WalkInv wb m w → Going w.log → Calm wb m w (f w).1

variable (wb m) in
def TameFrom (v : Walk) (f : WalkStep) : Prop :=
  ∀ w, Later v w → WalkInv wb m w → Going w.log → Tame wb m w (f w)

variable (wb m) in
def GoodFrom (v : Walk) (f : WalkStep) : Prop :=
  ∀ w, Later v w → WalkInv wb m w → Going w.log → Good wb m w (f w)

section combinators
variable {v : Walk} {f g : WalkStep}

theorem GoodFrom.seq (hf : GoodFrom wb m v f) (hg : GoodFrom wb m v g) :
    GoodFrom wb m v (WalkStep.seq f g) := by
  intro w hl hi hgo
  exact (hf w hl hi hgo).seq fun h hz => hg _ (hl.trans h.later) h.inv hz

theorem GoodFrom.unlessModified (h : GoodFrom wb m v f) :
    GoodFrom wb m v (unlessModified f) := by
  intro w hl hi hg
  unfold Basu.unlessModified
  split
  · exact (Calm.refl hi hg).good _
  · exact h w hl hi hg

theorem CalmFrom.unlessModified (h : CalmFrom wb m v f) :
    CalmFrom wb m v (unlessModified f) := by
  intro w hl hi hg
  unfold Basu.unlessModified
  split
  · exact .refl hi hg
  · exact h w hl hi hg

theorem GoodFrom.working (h : GoodFrom wb m v f) (k : Work) :
    GoodFrom wb m v (working env k f) := by
  intro w hl hi hg
  unfold Basu.working
  split
  · exact h w hl hi hg
  · exact (Calm.refl hi hg).good _

theorem TameFrom.unlessModified (h : TameFrom wb m v f) :
    TameFrom wb m v (unlessModified f) := by
  intro w hl hi hg
  unfold Basu.unlessModified
  split
  · exact (Calm.refl hi hg).tame _
  · exact h w hl hi hg

theorem TameFrom.working (h : TameFrom wb m v f) (k : Work) :
    TameFrom wb m v (working env k f) := by
  intro w hl hi hg
  unfold Basu.working
  split
  · exact h w hl hi hg
  · exact (Calm.refl hi hg).tame _

theorem Tame.next {x : Walk × Ret} (h : Tame wb m w x) (hl : Later v w)
    (hg : TameFrom wb m v g) :
    Tame wb m w (if x.2 = .neg then x else Basu.unlessModified g x.1) := by
  split
  · exact h
  · next hx =>
    have hc := h.calm hx
    exact hc.tame_trans (hg.unlessModified _ (hl.trans hc.later) hc.inv hc.going)

theorem replyMethod_fst (env : WalkEnv) (m : ObjectCall) (kind : ReplyKind) (w : Walk) :
    (replyMethod env m kind w).1 = w ∨
      (replyMethod env m kind w).1 = w.record (.reply kind) := by
  unfold replyMethod
  split
  · exact .inl rfl
  · split
    · exact .inl rfl
    · split
      · exact .inr rfl
      · exact .inl rfl

end combinators

end

end Basu
