import Mathlib.Data.List.Basic

/-! Two runs of one machine that differ in what a stranger does at given places: which fields of
the state he may have written last, and when the two runs are seen to do the same. -/

namespace Lib

/-- An action of the run itself, or a place where a stranger acts. -/
inductive Action (α : Type*)
  | own (a : α)
  | foreign

/-- The actions of a run whose stranger does a block that `N` allows at each of his places. -/
inductive Filled {α : Type*} (N : List α → Prop) : List α → List (Action α) → Prop
  | nil : Filled N [] []
  | own {l : List α} {es : List (Action α)} (a : α) : Filled N l es →
      Filled N (a :: l) (.own a :: es)
  | foreign {block l : List α} {es : List (Action α)} : N block → Filled N l es →
      Filled N (block ++ l) (.foreign :: es)

/-- Which fields an action writes whatever they held before, and which it shows. -/
structure Policy (α φ : Type*) where
  settles : α → φ → Bool
  shows : α → φ → Bool

variable {σ α φ ω π : Type*}

/-- The fields that the stranger may have written last, one action later. -/
def Policy.after (p : Policy α φ) (t : φ → Bool) : Action α → φ → Bool
  | .own a, f => t f && !p.settles a f
  | .foreign, _ => true

/-- No action shows a field that the stranger may have written last. -/
def Policy.Sealed (p : Policy α φ) : (φ → Bool) → List (Action α) → Prop
  | _, [] => True
  | t, .own a :: es => (∀ f, p.shows a f → t f = false) ∧ p.Sealed (p.after t (.own a)) es
  | t, .foreign :: es => p.Sealed (p.after t .foreign) es

section
variable (step : σ → α → σ) (observe : σ → α → Option ω)

def observed : σ → List α → List ω
  | _, [] => []
  | s, a :: l => (observe s a).toList ++ observed (step s a) l

theorem observed_append (l l' : List α) : ∀ s,
    observed step observe s (l ++ l') =
      observed step observe s l ++ observed step observe (l.foldl step s) l' := by
  induction l with
  | nil => exact fun s => rfl
  | cons a l ih =>
    intro s
    rw [List.cons_append, observed, observed, ih, List.append_assoc, List.foldl_cons]

/-- Two states that agree on all the stranger cannot have written stay so, and show the same. -/
structure Hides (p : Policy α φ) (N : List α → Prop) (R : (φ → Bool) → σ → σ → Prop) : Prop where
  own : ∀ {t s s'} a, R t s s' → R (p.after t (.own a)) (step s a) (step s' a)
  same : ∀ {t s s'} a, R t s s' → (∀ f, p.shows a f → t f = false) → observe s a = observe s' a
  foreign : ∀ {t s s' block block'}, R t s s' → N block → N block' →
    R (fun _ => true) (block.foldl step s) (block'.foldl step s')
  silent : ∀ {block} s, N block → observed step observe s block = []

/-- Two states of which one shows that the stranger has acted stay so. `next` says which actions
follow one another. -/
structure Tells (p : Policy α φ) (next : π → Action α → Option π) (N N' : List α → Prop)
    (D : π → (φ → Bool) → σ → σ → Prop) : Prop where
  own : ∀ {q q' t s s' a}, next q (.own a) = some q' → D q t s s' →
    D q' (p.after t (.own a)) (step s a) (step s' a)
  other : ∀ {q t s s' a f}, D q t s s' → observe s a = observe s' a → p.shows a f → t f = false
  foreign : ∀ {q q' t s s' block block'}, next q .foreign = some q' → D q t s s' → N block →
    N' block' → D q' (fun _ => true) (block.foldl step s) (block'.foldl step s')
  aligned : ∀ s s' a, (observe s a).isSome = (observe s' a).isSome
  silent : ∀ {block} s, N block → observed step observe s block = []
  silent' : ∀ {block} s, N' block → observed step observe s block = []

end

def Allowed (next : π → Action α → Option π) : π → List (Action α) → Prop
  | _, [] => True
  | q, e :: es => ∃ q', next q e = some q' ∧ Allowed next q' es

variable {step : σ → α → σ} {observe : σ → α → Option ω} {p : Policy α φ}

theorem Hides.observed_eq {N : List α → Prop} {R : (φ → Bool) → σ → σ → Prop}
    (h : Hides step observe p N R) {es : List (Action α)} {l : List α} (hl : Filled N l es) :
    ∀ {l' t s s'}, Filled N l' es → R t s s' → p.Sealed t es →
      observed step observe s l = observed step observe s' l' := by
  induction hl with
  | nil =>
    intro l' t s s' hl' _ _
    cases hl'
    rfl
  | own a _ ih =>
    intro l' t s s' hl' hr hs
    cases hl' with
    | own _ hl' => rw [observed, observed, h.same a hr hs.1, ih hl' (h.own a hr) hs.2]
  | foreign hb _ ih =>
    intro l' t s s' hl' hr hs
    cases hl' with
    | foreign hb' hl' =>
      rw [observed_append, observed_append, h.silent s hb, h.silent s' hb',
        ih hl' (h.foreign hr hb hb') hs]

theorem toList_append_inj {a b : Option ω} {l l' : List ω} (hs : a.isSome = b.isSome)
    (h : a.toList ++ l = b.toList ++ l') : a = b ∧ l = l' := by
  cases a with
  | none =>
    cases b with
    | none => exact ⟨rfl, h⟩
    | some y => simp at hs
  | some x =>
    cases b with
    | none => simp at hs
    | some y =>
      obtain ⟨hx, ht⟩ := List.cons.inj h
      exact ⟨congrArg some hx, ht⟩

theorem Tells.sealed {next : π → Action α → Option π} {N N' : List α → Prop}
    {D : π → (φ → Bool) → σ → σ → Prop} (h : Tells step observe p next N N' D)
    {es : List (Action α)} {l : List α} (hl : Filled N l es) :
    ∀ {l' q t s s'}, Filled N' l' es → D q t s s' → Allowed next q es →
      observed step observe s l = observed step observe s' l' → p.Sealed t es := by
  induction hl with
  | nil => exact fun _ _ _ _ => trivial
  | own a _ ih =>
    intro l' q t s s' hl' hd ⟨q', hq, hes⟩ ho
    cases hl' with
    | own _ hl' =>
      obtain ⟨hone, hrest⟩ := toList_append_inj (h.aligned s s' a) ho
      exact ⟨fun f hf => h.other hd hone hf, ih hl' (h.own hq hd) hes hrest⟩
  | foreign hb _ ih =>
    intro l' q t s s' hl' hd ⟨q', hq, hes⟩ ho
    cases hl' with
    | foreign hb' hl' =>
      rw [observed_append, observed_append, h.silent s hb, h.silent' s' hb'] at ho
      exact ih hl' (h.foreign hq hd hb hb') hes ho

end Lib
