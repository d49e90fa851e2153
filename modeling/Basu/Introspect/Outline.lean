import Basu.Introspect.Leak

/-! What a document says outside its nested nodes, and the updates of the context that come of it. -/

namespace Basu.Introspect
open Lib

def outline (pathPrefix : Str) : Control → List XmlToken → List XmlToken
  | _, [] => []
  | k, t :: ts =>
    match k.step pathPrefix t with
    | .error _ => []
    | .ok (k', _) =>
      if k.nodes.length ≤ 1 then t :: outline pathPrefix k' ts else outline pathPrefix k' ts

/-- What the tokens of an outline do: the updates of the inspected node, and where nested nodes are
left out. -/
def reading (pathPrefix : Str) : Control → List XmlToken → List (Action Update)
  | _, [] => []
  | k, t :: ts =>
    match k.step pathPrefix t with
    | .error _ => []
    | .ok (k', u) =>
      if k'.nodes.length ≤ 1 then .own u :: reading pathPrefix k' ts
      else .foreign :: reading pathPrefix k ts

inductive Control.Runs (pathPrefix : Str) :
    Control → List XmlToken → List Update → Control → Prop
  | nil (k : Control) : Runs pathPrefix k [] [] k
  | cons {k k₁ k' : Control} {t : XmlToken} {ts : List XmlToken} {u : Update} {us : List Update} :
      k.step pathPrefix t = .ok (k₁, u) → Runs pathPrefix k₁ ts us k' →
        Runs pathPrefix k (t :: ts) (u :: us) k'

def NodeState.idle : NodeState → Bool
  | .node | .nodeName => true
  | _ => false

def XmlToken.Closes : XmlToken → Prop
  | .tagClose _ | .tagCloseEmpty => True
  | _ => False

section
variable {τ : Type*} {P : τ → Prop} {t : XmlToken} {x : τ}

theorem elementTurn_all {tag : String} {attr opens : Str → Except Errno τ} {close stay : τ}
    (hattr : ∀ n x, attr n = .ok x → P x) (hopens : ∀ n x, t = .tagOpen n → opens n = .ok x → P x)
    (hclose : t.Closes → P close) (hstay : P stay)
    (h : elementTurn tag attr opens close stay t = .ok x) : P x := by
  cases t with
  | attributeName name => exact hattr name x h
  | tagOpen name => exact hopens name x rfl h
  | tagCloseEmpty =>
    obtain rfl := Except.ok.inj h
    exact hclose trivial
  | tagClose name =>
    rw [elementTurn] at h
    split at h
    · obtain rfl := Except.ok.inj h
      exact hclose trivial
    · exact absurd h nofun
  | text name =>
    rw [elementTurn] at h
    split at h
    · obtain rfl := Except.ok.inj h
      exact hstay
    · exact absurd h nofun
  | attributeValue value => exact absurd h nofun

theorem valueTurn_all {take : Str → τ} (htake : ∀ v, P (take v)) (h : valueTurn take t = .ok x) :
    P x := by
  cases t with
  | attributeValue value =>
    obtain rfl := Except.ok.inj h
    exact htake value
  | _ => exact absurd h nofun

end

theorem NodeFrame.attr_all {P : NodeTurn → Prop} {f : NodeFrame} {names : List (String × NodeState)}
    {name : Str} {x : NodeTurn} (hnames : ∀ y ∈ names, P (f.goto y.2 .keep))
    (h : f.attr names name = .ok x) : P x := by
  unfold NodeFrame.attr at h
  split at h
  · next y hy =>
    obtain rfl := Except.ok.inj h
    exact hnames y (List.mem_of_find?_eq_some hy)
  · exact absurd h nofun

/-- What a turn of the loop of `parse_xml_node` can do: in a nested node it writes the fields that all
nodes share, and between interfaces the inspected node writes nothing. -/
def Turned (depth : Nat) (f : NodeFrame) (t : XmlToken) : NodeTurn → Prop
  | .next f' u => (depth ≠ 0 → u.Nested) ∧
      (depth = 0 → f'.state.idle = true → f.state.idle = true ∧ u = .keep ∨ u = .closeInterface)
  | .nested => f.state = .node ∧ t = .tagOpen (str "node")
  | .annotate _ => f.state.idle = false
  | .leave => f.state = .node ∧ t.Closes

theorem turned_keep {depth : Nat} {f f' : NodeFrame} {t : XmlToken}
    (h : f'.state.idle = true → f.state.idle = true) : Turned depth f t (.next f' .keep) :=
  ⟨fun _ => trivial, fun _ hidle => Or.inl ⟨h hidle, rfl⟩⟩

theorem turned_busy {depth : Nat} {f f' : NodeFrame} {t : XmlToken} {u : Update}
    (hidle : f'.state.idle = false) (hu : depth ≠ 0 → u.Nested) :
    Turned depth f t (.next f' u) :=
  ⟨hu, fun _ h => absurd h (by simp [hidle])⟩

theorem turned_goto {depth : Nat} {f f' : NodeFrame} {t : XmlToken} (h : f'.state.idle = false) :
    Turned depth f t (.next f' .keep) := turned_busy h fun _ => trivial

theorem nested_own {depth : Nat} {u : Update} (h : depth ≠ 0) :
    (if depth = 0 then u else .keep).Nested := by
  rw [if_neg h]
  trivial

theorem turned_leave {depth : Nat} {f : NodeFrame} {t : XmlToken} (hs : f.state = .node)
    (hc : t.Closes) : Turned depth f t .leave := ⟨hs, hc⟩

theorem turned_closeInterface {depth : Nat} {f f' : NodeFrame} {t : XmlToken} :
    Turned depth f t (.next f' (if depth = 0 then .closeInterface else .keep)) :=
  ⟨nested_own, fun hd _ => Or.inr (if_pos hd)⟩

theorem NodeFrame.signalArgument_nested (f : NodeFrame) : f.signalArgument.Nested := by
  unfold NodeFrame.signalArgument
  split
  · trivial
  · split <;> trivial

theorem NodeFrame.attr_turned {depth : Nat} {f : NodeFrame} {t : XmlToken}
    {names : List (String × NodeState)} {name : Str} {x : NodeTurn}
    (hnames : ∀ y ∈ names, y.2.idle = true → f.state.idle = true)
    (h : f.attr names name = .ok x) : Turned depth f t x :=
  NodeFrame.attr_all (fun y hy => turned_keep (hnames y hy)) h

theorem opens_turned {depth : Nat} {f : NodeFrame} {t : XmlToken} {x : NodeTurn} {name : Str}
    {s : NodeState} (hs : s.idle = false) (hf : f.state.idle = false)
    (h : (if name = str "arg" then .ok (f.goto s .keep)
      else if name = str "annotation" then .ok (.annotate (some .member))
      else .error .einval) = (.ok x : Except Errno NodeTurn)) : Turned depth f t x := by
  split at h
  · obtain rfl := Except.ok.inj h
    exact turned_goto hs
  split at h
  · obtain rfl := Except.ok.inj h
    exact hf
  · exact absurd h nofun

theorem annotationOnly_turned {depth : Nat} {f : NodeFrame} {t : XmlToken} {x : NodeTurn} {name : Str}
    {flags : Option Flags} (hf : f.state.idle = false)
    (h : (if name = str "annotation" then .ok (.annotate flags) else .error .einval) =
      (.ok x : Except Errno NodeTurn)) : Turned depth f t x := by
  split at h
  · obtain rfl := Except.ok.inj h
    exact hf
  · exact absurd h nofun

theorem nodeTurn_turned {depth : Nat} {f : NodeFrame} {t : XmlToken} {x : NodeTurn}
    (h : nodeTurn depth f t = .ok x) : Turned depth f t x := by
  cases hs : f.state with
  | node =>
    simp only [nodeTurn, hs] at h
    refine elementTurn_all (fun n x => NodeFrame.attr_turned (by simp [hs, NodeState.idle]))
      (fun n x ht h => ?_) (turned_leave hs) (turned_keep fun _ => by rw [hs]; rfl) h
    split at h
    · obtain rfl := Except.ok.inj h
      exact turned_goto rfl
    split at h
    · next hn =>
      obtain rfl := Except.ok.inj h
      exact ⟨hs, by rw [ht, hn]⟩
    · exact absurd h nofun
  | nodeName =>
    simp only [nodeTurn, hs] at h
    exact valueTurn_all (fun v => turned_keep fun _ => by rw [hs]; rfl) h
  | interface =>
    simp only [nodeTurn, hs] at h
    refine elementTurn_all (fun n x => NodeFrame.attr_turned (by simp [NodeState.idle]))
      (fun n x ht h => ?_) (fun _ => turned_closeInterface)
      (turned_goto rfl) h
    split at h
    · obtain rfl := Except.ok.inj h
      exact turned_goto rfl
    split at h
    · obtain rfl := Except.ok.inj h
      exact turned_goto rfl
    split at h
    · obtain rfl := Except.ok.inj h
      exact turned_busy rfl fun _ => trivial
    · exact annotationOnly_turned (by rw [hs]; rfl) h
  | method | signal =>
    simp only [nodeTurn, hs] at h
    exact elementTurn_all (fun n x => NodeFrame.attr_turned (by simp [NodeState.idle]))
      (fun n x _ => opens_turned rfl (by rw [hs]; rfl)) (fun _ => turned_busy rfl nested_own)
      (turned_goto rfl) h
  | methodArg =>
    simp only [nodeTurn, hs] at h
    refine elementTurn_all (fun n x => NodeFrame.attr_turned (by simp [NodeState.idle]))
      (fun n x _ => annotationOnly_turned (by rw [hs]; rfl)) (fun _ => ?_)
      (turned_goto rfl) h
    split
    · next hd => exact turned_busy rfl fun hne => absurd hd hne
    · exact turned_goto rfl
  | signalArg =>
    simp only [nodeTurn, hs] at h
    exact elementTurn_all (fun n x => NodeFrame.attr_turned (by simp [NodeState.idle]))
      (fun n x _ => annotationOnly_turned (by rw [hs]; rfl))
      (fun _ => turned_busy rfl fun _ => f.signalArgument_nested)
      (turned_goto rfl) h
  | property =>
    simp only [nodeTurn, hs] at h
    exact elementTurn_all (fun n x => NodeFrame.attr_turned (by simp [NodeState.idle]))
      (fun n x _ => annotationOnly_turned (by rw [hs]; rfl)) (fun _ => turned_busy rfl nested_own)
      (turned_goto rfl) h
  | interfaceName | methodName | signalName | propertyName | propertyType =>
    simp only [nodeTurn, hs] at h
    exact valueTurn_all (fun v => turned_busy rfl nested_own) h
  | propertyAccess =>
    simp only [nodeTurn, hs] at h
    refine valueTurn_all (fun v => turned_busy rfl fun _ => ?_) h
    split <;> trivial
  | methodArgName | methodArgType | methodArgDirection | signalArgName | signalArgType
  | signalArgDirection =>
    simp only [nodeTurn, hs] at h
    exact valueTurn_all (fun v => turned_goto rfl) h

/-- Calls for nested nodes stand above the one for the inspected node, whose locals are `f`. -/
def Control.Above (f : NodeFrame) (k : Control) : Prop := ∃ fs, fs ≠ [] ∧ k.nodes = fs ++ [f]

def Control.Idle (k : Control) : Prop :=
  k.annotating = none ∧ ∀ f ∈ k.nodes, f.state.idle = true

theorem enter_ok {k k' : Control} {depth : Nat} {pathPrefix : Str} {u : Update}
    (h : k.enter depth pathPrefix = .ok (k', u)) :
    k' = { k with nodes := { pathPrefix := pathPrefix } :: k.nodes } ∧ u = .keep := by
  unfold Control.enter at h
  split at h
  · exact absurd h nofun
  · obtain ⟨hk, hu⟩ := Prod.mk.inj (Except.ok.inj h)
    exact ⟨hk.symm, hu.symm⟩

theorem step_cases {pathPrefix : Str} {k k' : Control} {t : XmlToken} {u : Update}
    (h : k.step pathPrefix t = .ok (k', u)) :
    (k.annotating ≠ none ∧ u.Nested ∧ ∃ a, k' = { k with annotating := a }) ∨
      (k = {} ∧ u = .keep ∧ ¬t.OfAttribute ∧
        (k' = {} ∨ k' = { nodes := [{ pathPrefix := pathPrefix }] })) ∨
      ∃ f fs x, k = { nodes := f :: fs } ∧ nodeTurn fs.length f t = .ok x ∧
        match x with
        | .next f' u' => k' = { nodes := f' :: fs } ∧ u = u'
        | .nested => k' = { nodes := { pathPrefix := f.np } :: f :: fs } ∧ u = .keep
        | .annotate flags => k' = { k with annotating := some { flags := flags } } ∧ u = .keep
        | .leave => k' = { nodes := fs } ∧ u = .leaveNode f.np := by
  obtain ⟨annotating, nodes⟩ := k
  unfold Control.step at h
  cases annotating with
  | some a =>
    simp only at h
    cases hx : annotationTurn a t with
    | error r => simp only [hx, reduceCtorEq] at h
    | ok x =>
      cases x with
      | next a' =>
        simp only [hx, Except.ok.injEq, Prod.mk.injEq] at h
        obtain ⟨rfl, rfl⟩ := h
        exact Or.inl ⟨nofun, trivial, some a', rfl⟩
      | leave =>
        simp only [hx, Except.ok.injEq, Prod.mk.injEq] at h
        obtain ⟨rfl, rfl⟩ := h
        exact Or.inl ⟨nofun, by split <;> trivial, none, rfl⟩
  | none =>
    cases nodes with
    | nil =>
      refine Or.inr (Or.inl ⟨rfl, ?_⟩)
      simp only at h
      split at h
      · split at h
        · obtain ⟨rfl, rfl⟩ := enter_ok h
          exact ⟨rfl, nofun, Or.inr rfl⟩
        · exact absurd h nofun
      · split at h
        · obtain ⟨rfl, rfl⟩ := Prod.mk.inj (Except.ok.inj h)
          exact ⟨rfl, nofun, Or.inl rfl⟩
        · exact absurd h nofun
      · exact absurd h nofun
    | cons f fs =>
      simp only at h
      cases hx : nodeTurn fs.length f t with
      | error r => simp only [hx, reduceCtorEq] at h
      | ok x =>
        refine Or.inr (Or.inr ⟨f, fs, x, rfl, hx, ?_⟩)
        cases x with
        | next f' u' =>
          simp only [hx, Except.ok.injEq, Prod.mk.injEq] at h
          exact ⟨h.1.symm, h.2.symm⟩
        | nested =>
          simp only [hx] at h
          exact enter_ok h
        | annotate flags | leave =>
          simp only [hx, Except.ok.injEq, Prod.mk.injEq] at h
          exact ⟨h.1.symm, h.2.symm⟩

theorem Control.Above.nodes_length {f : NodeFrame} {k : Control} (h : k.Above f) :
    ¬k.nodes.length ≤ 1 := by
  obtain ⟨fs, hfs, hk⟩ := h
  have hpos := List.length_pos_of_ne_nil hfs
  rw [hk, List.length_append, List.length_singleton]
  omega

theorem step_above {pathPrefix : Str} {k k' : Control} {t : XmlToken} {u : Update} {f : NodeFrame}
    (hk : k.Above f) (h : k.step pathPrefix t = .ok (k', u)) :
    u.Nested ∧ (k'.Above f ∨ k' = { nodes := [f] } ∧ t.Closes) := by
  obtain ⟨fs, hfs, hnodes⟩ := hk
  obtain ⟨-, hu, a, rfl⟩ | ⟨rfl, -⟩ | ⟨g, gs, x, rfl, hx, hk'⟩ := step_cases h
  · exact ⟨hu, Or.inl ⟨fs, hfs, hnodes⟩⟩
  · rw [List.nil_eq_append_iff] at hnodes
    exact absurd hnodes.1 hfs
  · obtain ⟨g', fs, rfl⟩ := List.exists_cons_of_ne_nil hfs
    obtain ⟨rfl, rfl⟩ := List.cons.inj hnodes
    have hturn := nodeTurn_turned hx
    have hdepth : (fs ++ [f]).length ≠ 0 := by simp
    cases x with
    | next f' u' =>
      obtain ⟨rfl, rfl⟩ := hk'
      exact ⟨hturn.1 hdepth, Or.inl ⟨f' :: fs, List.cons_ne_nil _ _, rfl⟩⟩
    | nested =>
      obtain ⟨rfl, rfl⟩ := hk'
      exact ⟨trivial, Or.inl ⟨_ :: g :: fs, List.cons_ne_nil _ _, rfl⟩⟩
    | annotate flags =>
      obtain ⟨rfl, rfl⟩ := hk'
      exact ⟨trivial, Or.inl ⟨g :: fs, List.cons_ne_nil _ _, rfl⟩⟩
    | leave =>
      obtain ⟨rfl, rfl⟩ := hk'
      refine ⟨trivial, ?_⟩
      cases fs with
      | nil => exact Or.inr ⟨rfl, hturn.2⟩
      | cons g' fs => exact Or.inl ⟨g' :: fs, List.cons_ne_nil _ _, rfl⟩

theorem step_inspected {pathPrefix : Str} {k k' : Control} {t : XmlToken} {u : Update}
    (hk : k.nodes.length ≤ 1) (h : k.step pathPrefix t = .ok (k', u)) :
    k'.nodes.length ≤ 1 ∨ ∃ f, k = { nodes := [f] } ∧ f.state = .node ∧
      t = .tagOpen (str "node") ∧ k' = { nodes := [{ pathPrefix := f.np }, f] } ∧ u = .keep := by
  obtain ⟨-, -, a, rfl⟩ | ⟨-, -, -, rfl | rfl⟩ | ⟨f, fs, x, rfl, hx, hk'⟩ := step_cases h
  · exact Or.inl hk
  · exact Or.inl (Nat.zero_le 1)
  · exact Or.inl (le_refl 1)
  · have hturn := nodeTurn_turned hx
    obtain rfl : fs = [] := List.length_eq_zero_iff.mp (Nat.le_zero.mp (Nat.le_of_succ_le_succ hk))
    cases x with
    | next f' u' =>
      obtain ⟨rfl, rfl⟩ := hk'
      exact Or.inl (le_refl 1)
    | nested =>
      obtain ⟨rfl, rfl⟩ := hk'
      exact Or.inr ⟨f, rfl, hturn.1, hturn.2, rfl, rfl⟩
    | annotate flags =>
      obtain ⟨rfl, rfl⟩ := hk'
      exact Or.inl (le_refl 1)
    | leave =>
      obtain ⟨rfl, rfl⟩ := hk'
      exact Or.inl (Nat.zero_le 1)

theorem step_ofAttribute {pathPrefix : Str} {k k' : Control} {t : XmlToken} {u : Update}
    (ht : t.OfAttribute) (h : k.step pathPrefix t = .ok (k', u)) (hk : k.nodes ≠ []) :
    k'.nodes ≠ [] := by
  obtain ⟨-, -, a, rfl⟩ | ⟨-, -, hnot, -⟩ | ⟨f, fs, x, rfl, hx, hk'⟩ := step_cases h
  · exact hk
  · exact absurd ht hnot
  · have hturn := nodeTurn_turned hx
    cases x with
    | next f' u' | nested | annotate flags =>
      obtain ⟨rfl, rfl⟩ := hk'
      exact List.cons_ne_nil _ _
    | leave => cases t <;> first | exact absurd hturn.2 not_false | exact absurd ht not_false

theorem runs_ofAttribute {pathPrefix : Str} {k k' : Control} {ts : List XmlToken}
    {us : List Update} (h : Control.Runs pathPrefix k ts us k') (ht : ∀ t ∈ ts, t.OfAttribute)
    (hk : k.nodes ≠ []) : k'.nodes ≠ [] := by
  induction h with
  | nil k => exact hk
  | cons hstep _ ih =>
    obtain ⟨hhead, htail⟩ := List.forall_mem_cons.mp ht
    exact ih htail (step_ofAttribute hhead hstep hk)

section
variable {pathPrefix : Str} {k k' : Control} {t : XmlToken} {u : Update}

theorem outline_inspected (h : k.step pathPrefix t = .ok (k', u)) (hk : k.nodes.length ≤ 1)
    (ts : List XmlToken) :
    outline pathPrefix k (t :: ts) = t :: outline pathPrefix k' ts := by
  simp only [outline, h, if_pos hk]

theorem outline_above (h : k.step pathPrefix t = .ok (k', u)) (hk : ¬k.nodes.length ≤ 1)
    (ts : List XmlToken) : outline pathPrefix k (t :: ts) = outline pathPrefix k' ts := by
  simp only [outline, h, if_neg hk]

theorem reading_own (h : k.step pathPrefix t = .ok (k', u)) (hk : k'.nodes.length ≤ 1)
    (ts : List XmlToken) :
    reading pathPrefix k (t :: ts) = .own u :: reading pathPrefix k' ts := by
  simp only [reading, h, if_pos hk]

theorem reading_foreign (h : k.step pathPrefix t = .ok (k', u)) (hk : ¬k'.nodes.length ≤ 1)
    (ts : List XmlToken) :
    reading pathPrefix k (t :: ts) = .foreign :: reading pathPrefix k ts := by
  simp only [reading, h, if_neg hk]

end

theorem above_of_nested (f g : NodeFrame) : Control.Above f { nodes := [g, f] } :=
  ⟨[g], List.cons_ne_nil _ _, rfl⟩

theorem runs_filled {pathPrefix : Str} {k k' : Control} {ts : List XmlToken} {us : List Update}
    (h : Control.Runs pathPrefix k ts us k') (hk' : k' = {}) :
    (k.nodes.length ≤ 1 →
      Filled NestedBlock us (reading pathPrefix k (outline pathPrefix k ts))) ∧
    ∀ f, k.Above f → ∃ block us', us = block ++ us' ∧ NestedBlock block ∧
      Filled NestedBlock us' (reading pathPrefix { nodes := [f] } (outline pathPrefix k ts)) := by
  induction h with
  | nil k =>
    subst hk'
    exact ⟨fun _ => .nil, fun f hf => absurd (Nat.zero_le 1) hf.nodes_length⟩
  | @cons k k₁ k' t ts u us hstep _ ih =>
    obtain ⟨hinspected, habove⟩ := ih hk'
    constructor
    · intro hk
      rw [outline_inspected hstep hk]
      by_cases hk₁ : k₁.nodes.length ≤ 1
      · rw [reading_own hstep hk₁]
        exact .own u (hinspected hk₁)
      · obtain ⟨f, rfl, -, -, rfl, rfl⟩ := (step_inspected hk hstep).resolve_left hk₁
        obtain ⟨block, us', rfl, hblock, hfilled⟩ := habove f (above_of_nested f _)
        rw [reading_foreign hstep hk₁, ← List.cons_append]
        exact .foreign (List.forall_mem_cons.mpr ⟨trivial, hblock⟩) hfilled
    · intro f hf
      rw [outline_above hstep hf.nodes_length]
      obtain ⟨hu, hk₁ | ⟨rfl, -⟩⟩ := step_above hf hstep
      · obtain ⟨block, us', rfl, hblock, hfilled⟩ := habove f hk₁
        exact ⟨u :: block, us', rfl, List.forall_mem_cons.mpr ⟨hu, hblock⟩, hfilled⟩
      · exact ⟨[u], us, rfl, List.forall_mem_singleton.mpr hu, hinspected (le_refl 1)⟩

def Control.Placed (k : Control) : Prop :=
  k.annotating ≠ none → ∃ f ∈ k.nodes, f.state.idle = false

theorem step_idle {pathPrefix : Str} {k k' : Control} {t : XmlToken} {u : Update}
    (hp : k.Placed) (hk : k.nodes.length ≤ 1) (h : k.step pathPrefix t = .ok (k', u))
    (hk' : k'.nodes.length ≤ 1) :
    k'.Placed ∧ (k'.Idle → k.Idle ∧ u.quiet = true ∨ u = .closeInterface) := by
  obtain ⟨hframe, -, a, rfl⟩ | ⟨rfl, rfl, -, rfl | rfl⟩ | ⟨f, fs, x, rfl, hx, hx'⟩ :=
    step_cases h
  · obtain ⟨f, hf, hidle⟩ := hp hframe
    exact ⟨fun _ => ⟨f, hf, hidle⟩, fun hk => absurd (hk.2 f hf) (by simp [hidle])⟩
  · exact ⟨hp, fun hidle => Or.inl ⟨hidle, rfl⟩⟩
  · exact ⟨fun h => absurd rfl h, fun _ => Or.inl ⟨⟨rfl, nofun⟩, rfl⟩⟩
  · have hturn := nodeTurn_turned hx
    obtain rfl : fs = [] := List.length_eq_zero_iff.mp (Nat.le_zero.mp (Nat.le_of_succ_le_succ hk))
    cases x with
    | next f' u' =>
      obtain ⟨rfl, rfl⟩ := hx'
      refine ⟨fun h => absurd rfl h, fun hidle => ?_⟩
      obtain ⟨hf, rfl⟩ | hu := hturn.2 rfl (hidle.2 f' (List.mem_singleton_self f'))
      · exact Or.inl ⟨⟨rfl, List.forall_mem_singleton.mpr hf⟩, rfl⟩
      · exact Or.inr hu
    | nested =>
      obtain ⟨rfl, rfl⟩ := hx'
      exact absurd hk' (by simp)
    | annotate flags =>
      obtain ⟨rfl, rfl⟩ := hx'
      exact ⟨fun _ => ⟨f, List.mem_singleton_self f, hturn⟩, fun hidle => absurd hidle.1 nofun⟩
    | leave =>
      obtain ⟨rfl, rfl⟩ := hx'
      refine ⟨fun h => absurd rfl h, fun _ => Or.inl ⟨⟨rfl, ?_⟩, rfl⟩⟩
      exact List.forall_mem_singleton.mpr (by rw [hturn.1]; rfl)

theorem opens_own (q : Bool) (u : Update) : ∃ q', opens q (.own u) = some q' ∧
    (u.quiet = true → q' = q) ∧ (u = .closeInterface → q' = false) := by
  cases u with
  | keep | leaveNode => exact ⟨q, rfl, fun _ => rfl, nofun⟩
  | closeInterface => exact ⟨false, rfl, nofun, fun _ => rfl⟩
  | _ => exact ⟨true, rfl, nofun, nofun⟩

theorem reading_allowed {pathPrefix : Str} (ts : List XmlToken) : ∀ {k : Control} {q : Bool},
    k.Placed → k.nodes.length ≤ 1 → (k.Idle → q = false) →
      Allowed opens q (reading pathPrefix k ts) := by
  induction ts with
  | nil => exact fun _ _ _ => trivial
  | cons t ts ih =>
    intro k q hp hk hidle
    cases h : k.step pathPrefix t with
    | error r =>
      simp only [reading, h]
      exact trivial
    | ok x =>
      obtain ⟨k', u⟩ := x
      by_cases hk' : k'.nodes.length ≤ 1
      · obtain ⟨hp', hidle'⟩ := step_idle hp hk h hk'
        obtain ⟨q', hq', hquiet, hclose⟩ := opens_own q u
        rw [reading_own h hk']
        refine ⟨q', hq', ih hp' hk' fun hi => ?_⟩
        obtain ⟨hk, hu⟩ | hu := hidle' hi
        · exact (hquiet hu).trans (hidle hk)
        · exact hclose hu
      · obtain ⟨f, rfl, hf, -⟩ := (step_inspected hk h).resolve_left hk'
        have hq : q = false :=
          hidle ⟨rfl, List.forall_mem_singleton.mpr (by rw [hf]; rfl)⟩
        subst hq
        rw [reading_foreign h hk']
        exact ⟨false, rfl, ih hp hk fun _ => rfl⟩

end Basu.Introspect
