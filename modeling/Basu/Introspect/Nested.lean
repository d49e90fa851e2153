import Basu.Introspect.Refill

/-! Whether the contents of nested nodes show in the callbacks about the inspected node. -/

namespace Basu.Introspect
open Lib

def inspected (calls : List Call) : List Call :=
  calls.filter fun
    | .onPath _ => false
    | _ => true

/-- The document is accepted, for a client whose callbacks let it be. -/
def Accepted (pathPrefix xml : Str) : Prop :=
  ∃ ops calls, parseXmlIntrospect ops pathPrefix xml = .ok calls

def documentOutline (pathPrefix xml : Str) : List XmlToken :=
  outline pathPrefix {} (xmlTokens xml .null).1

def documentReading (pathPrefix xml : Str) : List (Action Update) :=
  reading pathPrefix {} (documentOutline pathPrefix xml)

/-- Other contents of the nested nodes make the same callbacks about the inspected node. -/
def NestedApart (pathPrefix xml : Str) : Prop :=
  ∀ ops xml' calls calls', (0 : UInt8) ∉ xml' →
    parseXmlIntrospect ops pathPrefix xml = .ok calls →
    parseXmlIntrospect ops pathPrefix xml' = .ok calls' →
    documentOutline pathPrefix xml' = documentOutline pathPrefix xml →
      inspected calls' = inspected calls

/-- No callback passes on a field that a nested node may have written last. -/
def NestedSettled (pathPrefix xml : Str) : Prop :=
  leakPolicy.Sealed (fun _ => false) (documentReading pathPrefix xml)

def XMLIntrospectOps.listens (ops : XMLIntrospectOps) (c : Call) : Bool := (ops.callback c).isSome

def willing : XMLIntrospectOps where
  onPath := some fun _ => none
  onInterface := some fun _ => none
  onMethod := some fun _ => none
  onSignal := some fun _ => none
  onProperty := some fun _ => none

theorem invoke_ok {ops : XMLIntrospectOps} {calls calls' : List Call} {c : Option Call}
    (h : ops.invoke calls c = .ok calls') : calls' = calls ++ c.toList.filter ops.listens := by
  unfold XMLIntrospectOps.invoke at h
  split at h
  · exact (Except.ok.inj h).symm.trans (List.append_nil calls).symm
  next call =>
  split at h
  · next hnone =>
    have hlistens : ¬ops.listens call = true := by simp [XMLIntrospectOps.listens, hnone]
    rw [Option.toList_some, List.filter_cons_of_neg hlistens]
    exact (Except.ok.inj h).symm.trans (List.append_nil calls).symm
  · next f hsome =>
    have hlistens : ops.listens call = true := by simp [XMLIntrospectOps.listens, hsome]
    split at h
    · exact absurd h nofun
    · rw [Option.toList_some, List.filter_cons_of_pos hlistens]
      exact (Except.ok.inj h).symm

theorem willing_invoke (calls : List Call) (c : Option Call) :
    willing.invoke calls c = .ok (calls ++ c.toList) := by
  cases c with
  | none => exact congrArg Except.ok (List.append_nil calls).symm
  | some call => cases call <;> rfl

theorem foldlM_runs {ops : XMLIntrospectOps} {pathPrefix : Str} {ts : List XmlToken} :
    ∀ {p p' : Parser}, ts.foldlM (Parser.step ops pathPrefix) p = .ok p' →
      ∃ us, Control.Runs pathPrefix p.control ts us p'.control ∧
        p'.calls = p.calls ++
          (observed Context.update Context.call p.context us).filter ops.listens := by
  induction ts with
  | nil =>
    intro p p' h
    obtain rfl := Except.ok.inj h
    exact ⟨[], .nil _, (List.append_nil _).symm⟩
  | cons t ts ih =>
    intro p p' h
    rw [List.foldlM_cons] at h
    cases hp : Parser.step ops pathPrefix p t with
    | error r =>
      rw [hp] at h
      exact absurd h nofun
    | ok p₁ =>
      rw [hp] at h
      obtain ⟨us, hruns, hcalls⟩ := ih (p := p₁) h
      unfold Parser.step at hp
      split at hp
      · exact absurd hp nofun
      next k u hstep =>
      split at hp
      · exact absurd hp nofun
      next calls hinvoke =>
      obtain rfl := Except.ok.inj hp
      refine ⟨u :: us, .cons hstep hruns, ?_⟩
      rw [hcalls, invoke_ok hinvoke, observed, List.filter_append, List.append_assoc]

theorem runs_foldlM {pathPrefix : Str} {k k' : Control} {ts : List XmlToken} {us : List Update}
    (h : Control.Runs pathPrefix k ts us k') : ∀ (c : Context) (calls : List Call),
      ∃ c', ts.foldlM (Parser.step willing pathPrefix) ⟨k, c, calls⟩ =
        .ok ⟨k', c', calls ++ observed Context.update Context.call c us⟩ := by
  induction h with
  | nil k => exact fun c calls => ⟨c, by rw [observed, List.append_nil]; rfl⟩
  | @cons k k₁ k' t ts u us hstep _ ih =>
    intro c calls
    obtain ⟨c', hfold⟩ := ih (c.update u) (calls ++ (c.call u).toList)
    refine ⟨c', ?_⟩
    have hone : Parser.step willing pathPrefix ⟨k, c, calls⟩ t =
        .ok ⟨k₁, c.update u, calls ++ (c.call u).toList⟩ := by
      simp only [Parser.step, hstep, willing_invoke]
    rw [List.foldlM_cons, hone, observed, ← List.append_assoc]
    exact hfold

theorem parse_runs {ops : XMLIntrospectOps} {pathPrefix xml : Str} {calls : List Call}
    (h : parseXmlIntrospect ops pathPrefix xml = .ok calls) :
    ∃ ts us, xmlTokens xml .null = (ts, none) ∧ Control.Runs pathPrefix {} ts us {} ∧
      calls = (observed Context.update Context.call {} us).filter ops.listens := by
  unfold parseXmlIntrospect at h
  generalize xmlTokens xml .null = x at h ⊢
  obtain ⟨ts, r⟩ := x
  simp only at h
  split at h
  · exact absurd h nofun
  next p hp =>
  split at h
  · exact absurd h nofun
  split at h
  · next hcontrol =>
    obtain ⟨us, hruns, hcalls⟩ := foldlM_runs hp
    obtain rfl := Except.ok.inj h
    rw [hcontrol] at hruns
    exact ⟨ts, us, rfl, hruns, hcalls⟩
  · exact absurd h nofun

theorem runs_parse {pathPrefix xml : Str} {ts : List XmlToken} {us : List Update}
    (ht : xmlTokens xml .null = (ts, none)) (h : Control.Runs pathPrefix {} ts us {}) :
    parseXmlIntrospect willing pathPrefix xml =
      .ok (observed Context.update Context.call {} us) := by
  obtain ⟨c', hfold⟩ := runs_foldlM h {} []
  unfold parseXmlIntrospect
  rw [ht]
  simp only
  have hstart : ({} : Parser) = ⟨{}, {}, []⟩ := rfl
  rw [hstart, hfold]
  rfl

theorem inspected_observed (us : List Update) : ∀ c : Context,
    inspected (observed Context.update Context.call c us) =
      observed Context.update Context.seen c us := by
  induction us with
  | nil => exact fun _ => rfl
  | cons u us ih =>
    intro c
    have hone : inspected (c.call u).toList = (c.seen u).toList := by cases u <;> rfl
    rw [observed, observed, ← ih, ← hone]
    exact List.filter_append ..

theorem inspected_filter (calls : List Call) (p : Call → Bool) :
    inspected (calls.filter p) = (inspected calls).filter p := by
  unfold inspected
  rw [List.filter_filter, List.filter_filter]
  exact List.filter_congr fun _ _ => Bool.and_comm _ _

theorem apart_start : Apart false (fun _ => false) {} {} :=
  ⟨Agree.refl _ _, nofun, nofun, nofun, fun _ => rfl⟩

theorem document_filled {pathPrefix xml : Str} {ts : List XmlToken} {us : List Update}
    (ht : xmlTokens xml .null = (ts, none)) (h : Control.Runs pathPrefix {} ts us {}) :
    Filled NestedBlock us (documentReading pathPrefix xml) := by
  unfold documentReading documentOutline
  rw [ht]
  exact (runs_filled h rfl).1 (Nat.zero_le 1)

theorem document_refill {pathPrefix xml : Str} {N : List Update → Prop} {text : Str}
    {ft ts : List XmlToken} {us : List Update} (hN : Fills pathPrefix N text ft)
    (hclean : (0 : UInt8) ∉ xml) (ht : xmlTokens xml .null = (ts, none))
    (h : Control.Runs pathPrefix {} ts us {}) :
    ∃ xml' us', (0 : UInt8) ∉ xml' ∧ documentOutline pathPrefix xml' = documentOutline pathPrefix xml ∧
      parseXmlIntrospect willing pathPrefix xml' =
        .ok (observed Context.update Context.call {} us') ∧
      Filled N us' (documentReading pathPrefix xml) := by
  obtain ⟨xml', ts', us', -, hre⟩ :=
    (refill hN hclean ht h).1 (fun h => absurd rfl h) (Nat.zero_le 1)
  refine ⟨xml', us', hre.clean, ?_, runs_parse hre.tokens hre.runs, ?_⟩
  · unfold documentOutline
    rw [hre.tokens, ht]
    exact hre.outline
  · unfold documentReading documentOutline
    rw [ht]
    exact hre.filled

/-- The contents of nested nodes show in no callback about the inspected node exactly if every field
that a callback passes on has been written, or its interface closed, since the last nested node. -/
theorem nestedApart_iff (pathPrefix xml : Str) (hclean : (0 : UInt8) ∉ xml)
    (h : Accepted pathPrefix xml) : NestedApart pathPrefix xml ↔ NestedSettled pathPrefix xml := by
  obtain ⟨ops₀, calls₀, hparse₀⟩ := h
  obtain ⟨ts, us, ht, hruns, -⟩ := parse_runs hparse₀
  constructor
  · intro happart
    obtain ⟨quiet, usQuiet, hcleanQuiet, houtQuiet, hparseQuiet, hfillQuiet⟩ :=
      document_refill (quiet_fills pathPrefix) hclean ht hruns
    obtain ⟨loud, usLoud, hcleanLoud, houtLoud, hparseLoud, hfillLoud⟩ :=
      document_refill (loud_fills pathPrefix) hclean ht hruns
    have hparse := runs_parse ht hruns
    have hquiet := happart willing quiet _ _ hcleanQuiet hparse hparseQuiet houtQuiet
    have hloud := happart willing loud _ _ hcleanLoud hparse hparseLoud houtLoud
    have hsame := hquiet.trans hloud.symm
    rw [inspected_observed, inspected_observed] at hsame
    have hallowed : Allowed opens false (documentReading pathPrefix xml) :=
      reading_allowed _ (fun h => absurd rfl h) (Nat.zero_le 1) fun _ => rfl
    exact leak_tells.sealed hfillQuiet hfillLoud apart_start hallowed hsame
  · intro hsealed ops xml' calls calls' _ hparse hparse' hout
    obtain ⟨ts, us, ht, hruns, rfl⟩ := parse_runs hparse
    obtain ⟨ts', us', ht', hruns', rfl⟩ := parse_runs hparse'
    have hfill := document_filled ht hruns
    have hfill' := document_filled ht' hruns'
    have hreading : documentReading pathPrefix xml' = documentReading pathPrefix xml :=
      congrArg (reading pathPrefix {}) hout
    rw [hreading] at hfill'
    rw [inspected_filter, inspected_filter, inspected_observed, inspected_observed]
    exact congrArg _ (leak_hides.observed_eq hfill' hfill (Agree.refl _ _) hsealed)

def closedDocument : Str := str "<node><interface name='a'/><node></node></node>"

theorem nestedApart_iff_closed :
    NestedApart (str "/") closedDocument ↔ NestedSettled (str "/") closedDocument :=
  nestedApart_iff (str "/") closedDocument (by decide +kernel)
    ⟨willing, [.onInterface (some (str "a")) 0, .onPath (str "/"), .onPath (str "/")],
      by decide +kernel⟩

/-- A nested node with a signal, and behind it a method that gets the argument of the signal. -/
theorem not_nestedApart : ¬∀ pathPrefix xml, (0 : UInt8) ∉ xml → Accepted pathPrefix xml →
    NestedApart pathPrefix xml := by
  intro h
  let around (contents : Str) : Str :=
    str "<node><node>" ++ contents ++ str "</node><interface name='a'><method name='m'/>" ++
      str "</interface></node>"
  have hempty : parseXmlIntrospect willing (str "/") (around []) =
      .ok [.onPath (str "/"), .onMethod (some (str "a")) (some (str "m")) none none 0,
        .onInterface (some (str "a")) 0, .onPath (str "/")] := by
    decide +kernel
  have hsignal : parseXmlIntrospect willing (str "/")
      (around (str "<interface><signal><arg type='s'/></signal></interface>")) =
      .ok [.onPath (str "/"), .onMethod (some (str "a")) (some (str "m")) (some (str "s")) none 0,
        .onInterface (some (str "a")) 0, .onPath (str "/")] := by
    decide +kernel
  have hsame := h (str "/") (around []) (by decide +kernel) ⟨_, _, hempty⟩ _ _ _ _
    (by decide +kernel) hempty hsignal (by decide +kernel)
  exact absurd hsame (by decide +kernel)

end Basu.Introspect
