import Basu.Introspect.Outline

/-! Other contents put in place of those of the nested nodes of a document. -/

namespace Basu.Introspect
open Lib

def closing : XmlState → Str
  | .tag => str "></node"
  | _ => str "/>"

def closingTokens : XmlState → List XmlToken
  | .tag => [.tagClose (str "node")]
  | _ => [.tagCloseEmpty]

def annotationText (field value : String) : Str :=
  str "<annotation name='" ++ str field ++ str "' value='" ++ str value ++ str "'/>"

def allAnnotationText : Str :=
  annotationText "org.freedesktop.DBus.Deprecated" "true" ++
    annotationText "org.freedesktop.DBus.Method.NoReply" "true" ++
    annotationText "org.freedesktop.DBus.Property.EmitsChangedSignal" "const"

def loudText : Str :=
  str "><interface>" ++ allAnnotationText ++ str "<property access='write'>" ++ allAnnotationText ++
    str "</property>" ++ str "<signal>" ++ str "<arg type='s'/>" ++ str "</signal></interface"

def annotationTokens (field value : String) : List XmlToken :=
  [.tagOpen (str "annotation"), .attributeName (str "name"), .attributeValue (str field),
    .attributeName (str "value"), .attributeValue (str value), .tagCloseEmpty]

def allAnnotationTokens : List XmlToken :=
  annotationTokens "org.freedesktop.DBus.Deprecated" "true" ++
    annotationTokens "org.freedesktop.DBus.Method.NoReply" "true" ++
    annotationTokens "org.freedesktop.DBus.Property.EmitsChangedSignal" "const"

def annotationUpdates (flags : Flags) (field value : String) : List Update :=
  [.keep, .keep, .keep, .keep, .keep, .annotate flags (some (str field)) (some (str value))]

def allAnnotationUpdates (flags : Flags) : List Update :=
  annotationUpdates flags "org.freedesktop.DBus.Deprecated" "true" ++
    annotationUpdates flags "org.freedesktop.DBus.Method.NoReply" "true" ++
    annotationUpdates flags "org.freedesktop.DBus.Property.EmitsChangedSignal" "const"

def loudTokens : List XmlToken :=
  [.tagOpen (str "interface")] ++ allAnnotationTokens ++
    [.tagOpen (str "property"), .attributeName (str "access"), .attributeValue (str "write")] ++
    allAnnotationTokens ++
    [.tagClose (str "property"), .tagOpen (str "signal"), .tagOpen (str "arg"),
      .attributeName (str "type"), .attributeValue (str "s"), .tagCloseEmpty,
      .tagClose (str "signal"), .tagClose (str "interface")]

def EndsName (p : Str) : Prop := ∃ c, p.head? = some c ∧ endsTagName c = true

def FollowsNode (s : XmlState) (p : Str) : Prop := s = .tag ∧ EndsName p ∨ s = .text

theorem closing_read {s : XmlState} {p : Str} (h : FollowsNode s p) :
    xmlTokens (closing s ++ p) .tag =
      (closingTokens s ++ (xmlTokens p s).1, (xmlTokens p s).2) := by
  have hread : ∀ s', (s' = .tag ∨ s' = .text) → readTokens 1 (closing s' ++ [charGreater]) .tag =
      some (closingTokens s', [charGreater], s') := by
    rintro s' (rfl | rfl) <;> decide +kernel
  have hs : s = .tag ∨ s = .text := h.imp And.left id
  obtain ⟨u, hu, -, hall⟩ := readTokens_append (hread s hs) (List.mem_singleton_self _)
  obtain rfl := List.append_cancel_right hu
  refine hall p fun t ht => Or.inr ?_
  obtain ⟨rfl, hp⟩ | rfl := h
  · obtain rfl := Option.some.inj ht
    exact Or.inr ⟨⟨_, Or.inl rfl⟩, hp⟩
  · obtain rfl := Option.some.inj ht
    exact Or.inl rfl

theorem loudText_read {p : Str} (h : EndsName p) :
    xmlTokens (loudText ++ p) .tag = (loudTokens ++ (xmlTokens p .tag).1, (xmlTokens p .tag).2) := by
  have hread : readTokens 48 (loudText ++ [charGreater]) .tag =
      some (loudTokens, [charGreater], .tag) := by
    decide +kernel
  obtain ⟨u, hu, -, hall⟩ := readTokens_append hread (List.mem_singleton_self _)
  obtain rfl := List.append_cancel_right hu
  refine hall p fun t ht => Or.inr (Or.inr ⟨?_, h⟩)
  obtain rfl := Option.some.inj ht
  exact ⟨_, Or.inl rfl⟩

theorem closing_endsName (s : XmlState) (p : Str) : EndsName (closing s ++ p) := by
  cases s
  · exact ⟨charSlash, rfl, rfl⟩
  · exact ⟨charSlash, rfl, rfl⟩
  · exact ⟨charGreater, rfl, rfl⟩
  · exact ⟨charSlash, rfl, rfl⟩

theorem closing_clean (s : XmlState) : (0 : UInt8) ∉ closing s := by
  cases s <;> decide

inductive Stays (pathPrefix : Str) (f : NodeFrame) :
    Control → List XmlToken → List Update → Control → Prop
  | nil (k : Control) : Stays pathPrefix f k [] [] k
  | cons {k k₁ k' : Control} {t : XmlToken} {ts : List XmlToken} {u : Update} {us : List Update} :
      k.Above f → k.step pathPrefix t = .ok (k₁, u) → Stays pathPrefix f k₁ ts us k' →
        Stays pathPrefix f k (t :: ts) (u :: us) k'

section
variable {pathPrefix : Str} {f : NodeFrame} {k k₁ k' : Control} {ts ts' : List XmlToken}
  {us us' : List Update}

theorem Stays.append (h : Stays pathPrefix f k ts us k₁) (h' : Stays pathPrefix f k₁ ts' us' k') :
    Stays pathPrefix f k (ts ++ ts') (us ++ us') k' := by
  induction h with
  | nil => exact h'
  | cons habove hstep _ ih => exact .cons habove hstep (ih h')

theorem Stays.runs (h : Stays pathPrefix f k ts us k₁)
    (h' : Control.Runs pathPrefix k₁ ts' us' k') :
    Control.Runs pathPrefix k (ts ++ ts') (us ++ us') k' := by
  induction h with
  | nil => exact h'
  | cons _ hstep _ ih => exact .cons hstep (ih h')

theorem Stays.outline (h : Stays pathPrefix f k ts us k₁) :
    outline pathPrefix k (ts ++ ts') = outline pathPrefix k₁ ts' := by
  induction h with
  | nil => rfl
  | cons habove hstep _ ih => rw [List.cons_append, outline_above hstep habove.nodes_length, ih]

theorem stays_one {t : XmlToken} {u : Update} (g : NodeFrame) (hk : k.nodes = [g, f])
    (h : k.step pathPrefix t = .ok (k', u)) : Stays pathPrefix f k [t] [u] k' :=
  .cons ⟨[g], List.cons_ne_nil _ _, hk⟩ h (.nil k')

theorem stays_annotated {g : NodeFrame} {flags : Flags}
    (h : nodeTurn 1 g (.tagOpen (str "annotation")) = .ok (.annotate (some flags)))
    (field value : String) :
    Stays pathPrefix f { nodes := [g, f] } (annotationTokens field value)
      (annotationUpdates flags field value) { nodes := [g, f] } := by
  have hopen : Control.step pathPrefix { nodes := [g, f] } (.tagOpen (str "annotation")) =
      .ok ({ annotating := some { flags := some flags }, nodes := [g, f] }, .keep) := by
    simp only [Control.step, List.length_singleton, h]
  have habove : ∀ a, Control.Above f { annotating := a, nodes := [g, f] } :=
    fun _ => ⟨[g], List.cons_ne_nil _ _, rfl⟩
  let reading (a : AnnotationFrame) : Control := { annotating := some a, nodes := [g, f] }
  let a : AnnotationFrame := { flags := some flags }
  let b : AnnotationFrame := { flags := some flags, field := some (str field) }
  let c : AnnotationFrame :=
    { flags := some flags, field := some (str field), value := some (str value) }
  have hname : (reading a).step pathPrefix (.attributeName (str "name")) =
      .ok (reading { a with state := .name }, .keep) := rfl
  have hfield : (reading { a with state := .name }).step pathPrefix (.attributeValue (str field)) =
      .ok (reading b, .keep) := rfl
  have hvalue : (reading b).step pathPrefix (.attributeName (str "value")) =
      .ok (reading { b with state := .value }, .keep) := rfl
  have hvalue' : (reading { b with state := .value }).step pathPrefix
      (.attributeValue (str value)) = .ok (reading c, .keep) := rfl
  have hclose : (reading c).step pathPrefix .tagCloseEmpty =
      .ok ({ nodes := [g, f] }, .annotate flags (some (str field)) (some (str value))) := rfl
  exact .cons (habove _) hopen (.cons (habove _) hname (.cons (habove _) hfield
    (.cons (habove _) hvalue (.cons (habove _) hvalue' (.cons (habove _) hclose (.nil _))))))

theorem stays_allAnnotations {g : NodeFrame} {flags : Flags}
    (h : nodeTurn 1 g (.tagOpen (str "annotation")) = .ok (.annotate (some flags))) :
    Stays pathPrefix f { nodes := [g, f] } allAnnotationTokens (allAnnotationUpdates flags)
      { nodes := [g, f] } :=
  ((stays_annotated h _ _).append (stays_annotated h _ _)).append (stays_annotated h _ _)

theorem stays_loud (np : Str) : ∃ block,
    Stays pathPrefix f { nodes := [{ pathPrefix := np }, f] } loudTokens block
      { nodes := [{ pathPrefix := np }, f] } ∧ LoudBlock (block ++ [.leaveNode np]) := by
  let g (s : NodeState) : NodeFrame := { pathPrefix := np, state := s }
  let arg : NodeFrame := { pathPrefix := np, state := .signalArg, argumentType := some (str "s") }
  have one : ∀ (x y : NodeFrame) (t : XmlToken) (u : Update),
      Control.step pathPrefix { nodes := [x, f] } t = .ok ({ nodes := [y, f] }, u) →
        Stays pathPrefix f { nodes := [x, f] } [t] [u] { nodes := [y, f] } :=
    fun x _ _ _ h => stays_one x rfl h
  have hopen := one (g .node) (g .interface) (.tagOpen (str "interface")) .keep rfl
  have hinterface : Stays pathPrefix f { nodes := [g .interface, f] } allAnnotationTokens
      (allAnnotationUpdates .interface) { nodes := [g .interface, f] } := stays_allAnnotations rfl
  have hproperty :=
    ((one (g .interface) (g .property) (.tagOpen (str "property")) .emitsChange rfl).append
      (one (g .property) (g .propertyAccess) (.attributeName (str "access")) .keep rfl)).append
      (one (g .propertyAccess) (g .property) (.attributeValue (str "write")) .writable rfl)
  have hmember : Stays pathPrefix f { nodes := [g .property, f] } allAnnotationTokens
      (allAnnotationUpdates .member) { nodes := [g .property, f] } := stays_allAnnotations rfl
  have hsignal :=
    (((one (g .property) (g .interface) (.tagClose (str "property")) .keep rfl).append
      (one (g .interface) (g .signal) (.tagOpen (str "signal")) .keep rfl)).append
      (one (g .signal) (g .signalArg) (.tagOpen (str "arg")) .keep rfl)).append
      ((one (g .signalArg) (g .signalArgType) (.attributeName (str "type")) .keep rfl).append
        (one (g .signalArgType) arg (.attributeValue (str "s")) .keep rfl))
  have hclose :=
    ((one arg (g .signal) .tagCloseEmpty (.extendSignature (str "s")) rfl).append
      (one (g .signal) (g .interface) (.tagClose (str "signal")) .keep rfl)).append
      (one (g .interface) (g .node) (.tagClose (str "interface")) .keep rfl)
  exact ⟨_, (((hopen.append hinterface).append hproperty).append hmember).append
    (hsignal.append hclose), rfl⟩

theorem stays_closing {s : XmlState} (hs : s = .tag ∨ s = .text) (np : Str) :
    Stays pathPrefix f { nodes := [{ pathPrefix := np }, f] } (closingTokens s) [.leaveNode np]
      { nodes := [f] } := by
  rcases hs with rfl | rfl <;> exact stays_one _ rfl rfl

end

structure Fills (pathPrefix : Str) (N : List Update → Prop) (text : Str) (ts : List XmlToken) :
    Prop where
  read : ∀ {p}, EndsName p →
    xmlTokens (text ++ p) .tag = (ts ++ (xmlTokens p .tag).1, (xmlTokens p .tag).2)
  stays : ∀ f np, ∃ block, Stays pathPrefix f { nodes := [{ pathPrefix := np }, f] } ts block
    { nodes := [{ pathPrefix := np }, f] } ∧ N (.keep :: (block ++ [.leaveNode np]))
  endsName : ∀ {p}, EndsName p → EndsName (text ++ p)
  clean : (0 : UInt8) ∉ text

theorem quiet_fills (pathPrefix : Str) : Fills pathPrefix QuietBlock [] [] where
  read _ := rfl
  stays f np := by
    refine ⟨[], .nil _, ?_⟩
    rintro u hu
    simp only [List.nil_append, List.mem_cons, List.not_mem_nil, or_false] at hu
    rcases hu with rfl | rfl <;> rfl
  endsName h := h
  clean := List.not_mem_nil

theorem loud_fills (pathPrefix : Str) : Fills pathPrefix LoudBlock loudText loudTokens where
  read := loudText_read
  stays f np := by
    obtain ⟨block, hstays, hloud⟩ := stays_loud np
    exact ⟨block, hstays, (List.filter_cons_of_neg (by decide)).trans hloud⟩
  endsName _ := ⟨charGreater, rfl, rfl⟩
  clean := by decide +kernel

/-- The text behind `k₀` says outside nested nodes what `ts` say behind `k`, and its nested nodes make
blocks that `N` allows. -/
structure Refilled (pathPrefix : Str) (N : List Update → Prop) (k k₀ : Control) (ts : List XmlToken)
    (p : Str) (s : XmlState) (ts' : List XmlToken) (us : List Update) : Prop where
  clean : (0 : UInt8) ∉ p
  tokens : xmlTokens p s = (ts', none)
  runs : Control.Runs pathPrefix k₀ ts' us {}
  outline : outline pathPrefix k₀ ts' = outline pathPrefix k ts
  filled : Filled N us (reading pathPrefix k₀ (Introspect.outline pathPrefix k ts))

section
variable {pathPrefix : Str} {N : List Update → Prop} {text : Str} {ft : List XmlToken}

theorem greater_mem_of_value {k k₁ : Control} {t : XmlToken} {ts : List XmlToken} {u : Update}
    {us : List Update} {p r : Str} {s s' : XmlState} (hp : k.Placed)
    (he : xmlTokenize p s = .token t r s') (hr : xmlTokens r s' = (ts, none))
    (hstep : k.step pathPrefix t = .ok (k₁, u)) (hruns : Control.Runs pathPrefix k₁ ts us {}) :
    (∃ v, t = .attributeValue v) → charGreater ∈ r := by
  rintro ⟨v, rfl⟩
  by_contra hnot
  have hs : s' = .tag := (xmlTokenize_suffix he).1
  have hk : k.nodes ≠ [] := by
    intro hnil
    obtain ⟨ha, -⟩ | ⟨-, -, hattr, -⟩ | ⟨f, fs, x, rfl, -⟩ := step_cases hstep
    · obtain ⟨f, hf, -⟩ := hp ha
      rw [hnil] at hf
      exact absurd hf List.not_mem_nil
    · exact hattr trivial
    · exact absurd hnil (List.cons_ne_nil _ _)
  have hk₁ : k₁.nodes ≠ [] :=
    step_ofAttribute (show (XmlToken.attributeValue v).OfAttribute from trivial) hstep hk
  exact runs_ofAttribute hruns (xmlTokens_unclosed hnot (Or.inl hs) hr) hk₁ rfl

theorem refill (hN : Fills pathPrefix N text ft) {ts : List XmlToken} :
    ∀ {p : Str} {s : XmlState} {k : Control} {us : List Update}, (0 : UInt8) ∉ p →
      xmlTokens p s = (ts, none) → Control.Runs pathPrefix k ts us {} →
      (k.Placed → k.nodes.length ≤ 1 → ∃ p' ts' us', p'.head? = p.head? ∧
        Refilled pathPrefix N k k ts p' s ts' us') ∧
      ∀ f, k.Above f → ∃ s' p' ts' us', FollowsNode s' p' ∧
        Refilled pathPrefix N k { nodes := [f] } ts p' s' ts' us' := by
  induction ts with
  | nil =>
    intro p s k us hclean htokens hruns
    cases hruns with
    | nil =>
      refine ⟨fun _ _ => ⟨p, [], [], rfl, hclean, htokens, .nil _, rfl, .nil⟩, fun f hf => ?_⟩
      exact absurd (Nat.zero_le 1) hf.nodes_length
  | cons t ts ih =>
    intro p s k us hclean htokens hruns
    obtain ⟨-, hnil⟩ | ⟨t', r, s₁, l, hts, he, hl⟩ := xmlTokens_cases htokens
    · exact absurd hnil (List.cons_ne_nil _ _)
    obtain ⟨rfl, rfl⟩ := List.cons.inj hts
    cases hruns with
    | @cons _ k₁ _ _ _ u us hstep hruns =>
    obtain ⟨hlands, v, hv, rfl⟩ := xmlTokenize_suffix he
    have hcleanr : (0 : UInt8) ∉ r := fun h => hclean (List.mem_append_right v h)
    have hcleanv : (0 : UInt8) ∉ v := fun h => hclean (List.mem_append_left r h)
    obtain ⟨hinspected, habove⟩ := ih hcleanr hl hruns
    constructor
    · intro hp hk
      obtain ⟨-, w, -, hvw, hlocal⟩ :=
        xmlTokenize_local he (greater_mem_of_value hp he hl hstep hruns)
      obtain rfl := List.append_cancel_right hvw
      obtain ⟨c, v, rfl⟩ := List.exists_cons_of_ne_nil hv
      by_cases hk₁ : k₁.nodes.length ≤ 1
      · obtain ⟨r', ts', us', hhead, hre⟩ := hinspected (step_idle hp hk hstep hk₁).1 hk₁
        refine ⟨c :: v ++ r', t :: ts', u :: us', rfl, ?_, ?_, .cons hstep hre.runs, ?_, ?_⟩
        · exact fun h => (List.mem_append.mp h).elim hcleanv hre.clean
        · rw [xmlTokens_token (hlocal r' (Or.inl hhead)), hre.tokens]
        · rw [outline_inspected hstep hk, outline_inspected hstep hk, hre.outline]
        · rw [outline_inspected hstep hk, reading_own hstep hk₁]
          exact .own u hre.filled
      · obtain ⟨f, rfl, -, rfl, rfl, rfl⟩ := (step_inspected hk hstep).resolve_left hk₁
        obtain ⟨s', r', ts', us', hfollows, hre⟩ := habove f (above_of_nested f _)
        have hs' : s' = .tag ∨ s' = .text := hfollows.imp And.left id
        obtain ⟨block, hstays, hblock⟩ := hN.stays f f.np
        have hends := closing_endsName s' r'
        have hread : xmlTokens (text ++ (closing s' ++ r')) s₁ =
            (ft ++ (closingTokens s' ++ ts'), none) := by
          rw [hlands.1, hN.read hends, closing_read hfollows, hre.tokens]
        have hin := hstays.append (stays_closing hs' f.np)
        refine ⟨c :: v ++ (text ++ (closing s' ++ r')),
          .tagOpen (str "node") :: (ft ++ (closingTokens s' ++ ts')),
          .keep :: ((block ++ [.leaveNode f.np]) ++ us'), rfl, ?_, ?_, ?_, ?_, ?_⟩
        · simp only [List.mem_append, not_or]
          exact ⟨hcleanv, hN.clean, closing_clean s', hre.clean⟩
        · rw [xmlTokens_token (hlocal _ (Or.inr (Or.inr
            ⟨⟨_, Or.inr ⟨by decide, rfl⟩⟩, hN.endsName hends⟩))), hread]
        · rw [← List.append_assoc ft]
          exact .cons hstep (hin.runs hre.runs)
        · rw [outline_inspected hstep hk, outline_inspected hstep hk, ← List.append_assoc ft,
            hin.outline, hre.outline]
        · rw [outline_inspected hstep hk, reading_foreign hstep hk₁, ← List.cons_append]
          exact .foreign hblock hre.filled
    · intro f hf
      obtain ⟨-, hk₁ | ⟨rfl, hcloses⟩⟩ := step_above hf hstep
      · obtain ⟨s', p', ts', us', hfollows, hre⟩ := habove f hk₁
        refine ⟨s', p', ts', us', hfollows, hre.clean, hre.tokens, hre.runs, ?_, ?_⟩
        · rw [outline_above hstep hf.nodes_length, hre.outline]
        · rw [outline_above hstep hf.nodes_length]
          exact hre.filled
      · obtain ⟨r', ts', us', hhead, hre⟩ := hinspected (fun h => absurd rfl h) (le_refl 1)
        refine ⟨s₁, r', ts', us', ?_, hre.clean, hre.tokens, hre.runs, ?_, ?_⟩
        · cases t with
          | tagClose n =>
            obtain ⟨rfl, d, hd, hends⟩ := hlands
            exact Or.inl ⟨rfl, d, hhead.trans hd, hends⟩
          | tagCloseEmpty => exact Or.inr hlands
          | _ => exact absurd hcloses not_false
        · rw [outline_above hstep hf.nodes_length, hre.outline]
        · rw [outline_above hstep hf.nodes_length]
          exact hre.filled

end

end Basu.Introspect
