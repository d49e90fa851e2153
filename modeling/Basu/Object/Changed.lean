import Basu.Object.Steady

/-! `PropertiesChanged`: the first pass over the vtables of an interface writes the values that have
changed, the second one the names that are invalidated. -/

namespace Basu.Changed
open Lib
open Steady (Property)

variable {U V : Type}

/-- What a function called back comes to. Behind one that changed the tree the caller starts
again. -/
inductive Called (α : Type)
  | done (a : α)
  | failed
  | modified
  deriving DecidableEq, Repr

/-- The user data of a slot; its `find` in either pass, with no object or its user data; and the
property that is asked for at a position of the list of names. -/
structure Callbacks (U V : Type) where
  userdata : Nat → U
  find : Bool → Nat → Called (Option U)
  get : Nat → Nat → VtableEntry → U → Called V

/-- How `emit_properties_changed_on_interface` ends: at an assertion, with the error of a function
called back, with `-ENOENT`, without a signal, or with one. -/
inductive Emitted (V : Type)
  | assertion
  | failed
  | noEntry
  | nothing
  | signal (changed : List (Property V)) (invalidated : List Str)
  deriving DecidableEq, Repr

structure FirstPass (V : Type) where
  changed : List (Property V) := []
  hasInvalidating : Bool := false
  hasChanging : Bool := false

section
variable (cb : Callbacks U V) (b : ObjBus) (p interface : Str) (requireFallback : Bool)

def nodeVtableGetUserdata (second : Bool) (c : Nat) : Called (Option U) :=
  match (b.slot c).find with
  | none => .done (some (cb.userdata c))
  | some _ => cb.find second c

def withObject {σ : Type} (second : Bool) (c : Nat) (st : σ)
    (f : U → Except (Emitted V) σ) : Except (Emitted V) σ :=
  match nodeVtableGetUserdata cb b second c with
  | .failed => .error .failed
  | .modified => .error .nothing
  | .done none => .ok st
  | .done (some u) => f u

def concerns (c : Nat) : Bool :=
  !(requireFallback && !(b.slot c).isFallback) && (b.slot c).interface = interface

def lookup (property : Str) : Option VtableMember :=
  Table.get VtableMember.key (b.members .property) (p, interface, property)

def appendOne (i c : Nat) (u : U) (e : VtableEntry) (st : FirstPass V) :
    Except (Emitted V) (FirstPass V) :=
  match cb.get i c e u with
  | .failed => .error .failed
  | .modified => .error .nothing
  | .done x =>
    .ok { st with hasChanging := true, changed := st.changed ++ [⟨e.member, e.signature, x⟩] }

def firstNames (c : Nat) (u : U) : Nat → List Str → FirstPass V → Except (Emitted V) (FirstPass V)
  | _, [], st => .ok st
  | i, property :: names, st =>
    if !memberNameIsValid property then .error .assertion
    else match lookup b p interface property with
      | none => .error .noEntry
      | some v =>
        if c ≠ v.parent then firstNames c u (i + 1) names st
        else if !(hasFlag v.entry.flags sdBusVtablePropertyEmitsChange ||
            hasFlag v.entry.flags sdBusVtablePropertyEmitsInvalidation) then .error .assertion
        else if hasFlag v.entry.flags sdBusVtableHidden then .error .assertion
        else if hasFlag v.entry.flags sdBusVtablePropertyEmitsInvalidation then
          firstNames c u (i + 1) names { st with hasInvalidating := true }
        else (appendOne cb i c u v.entry st).bind (firstNames c u (i + 1) names)

def firstEntries (c : Nat) (u : U) : Nat → List VtableEntry → FirstPass V →
    Except (Emitted V) (FirstPass V)
  | _, [], st => .ok st
  | i, e :: es, st =>
    if e.kind ≠ some .property || hasFlag e.flags sdBusVtableHidden then
      firstEntries c u (i + 1) es st
    else if hasFlag e.flags sdBusVtablePropertyEmitsInvalidation then
      firstEntries c u (i + 1) es { st with hasInvalidating := true }
    else if !hasFlag e.flags sdBusVtablePropertyEmitsChange then firstEntries c u (i + 1) es st
    else (appendOne cb i c u e st).bind (firstEntries c u (i + 1) es)

def firstPass (names : Option (List Str)) : List Nat → FirstPass V →
    Except (Emitted V) (FirstPass V)
  | [], st => .ok st
  | c :: l, st =>
    if !concerns b interface requireFallback c then firstPass names l st
    else (withObject cb b false c st fun u =>
      match names with
      | some names => firstNames cb b p interface c u 0 names st
      | none => firstEntries cb c u 0 (b.slot c).vtable.entries st).bind (firstPass names l)

def secondNames (c : Nat) : List Str → List Str → Except (Emitted V) (List Str)
  | [], st => .ok st
  | property :: names, st =>
    match lookup b p interface property with
    | none => .error .assertion
    | some v =>
      if c ≠ v.parent then .error .assertion
      else if !hasFlag v.entry.flags sdBusVtablePropertyEmitsInvalidation then secondNames c names st
      else secondNames c names (st ++ [property])

def secondEntries (es : List VtableEntry) : List Str :=
  (es.filter fun e => e.kind = some .property && !hasFlag e.flags sdBusVtableHidden &&
    hasFlag e.flags sdBusVtablePropertyEmitsInvalidation).map VtableEntry.member

def secondPass (names : Option (List Str)) : List Nat → List Str → Except (Emitted V) (List Str)
  | [], st => .ok st
  | c :: l, st =>
    if !concerns b interface requireFallback c then secondPass names l st
    else (withObject cb b true c st fun _ =>
      match names with
      | some names => secondNames b p interface c names st
      | none => .ok (st ++ secondEntries (b.slot c).vtable.entries)).bind (secondPass names l)

def emitPropertiesChangedOnInterface (names : Option (List Str)) : Emitted V :=
  match b.getNode p with
  | none => .nothing
  | some n =>
    match firstPass cb b p interface requireFallback names (b.vtables n) {} with
    | .error e => e
    | .ok st =>
      if !st.hasInvalidating && !st.hasChanging then .nothing
      else if st.hasInvalidating then
        match secondPass cb b p interface requireFallback names (b.vtables n) [] with
        | .error e => e
        | .ok invalidated => .signal st.changed invalidated
      else .signal st.changed []

end

section
variable (cb : Callbacks U V) (b : ObjBus) (p interface : Str) (requireFallback : Bool)
  (names : List Str)

def Marked (property : Str) : Prop :=
  memberNameIsValid property = true ∧ ∃ v, lookup b p interface property = some v ∧
    (hasFlag v.entry.flags sdBusVtablePropertyEmitsChange = true ∨
      hasFlag v.entry.flags sdBusVtablePropertyEmitsInvalidation = true)

def owner (property : Str) : Option Nat := (lookup b p interface property).map VtableMember.parent

def isInvalidated (property : Str) : Bool :=
  match lookup b p interface property with
  | none => false
  | some v => hasFlag v.entry.flags sdBusVtablePropertyEmitsInvalidation

/-- The signal lists each name once, with its value if it emits changes, and nothing else; no
assertion is reached. -/
structure ListsEachOnce : Prop where
  safe : emitPropertiesChangedOnInterface cb b p interface requireFallback (some names) ≠ .assertion
  once : ∀ changed invalidated,
    emitPropertiesChangedOnInterface cb b p interface requireFallback (some names) =
      .signal changed invalidated →
    ∀ name ∈ names,
      (changed.map Property.member).count name =
          (if isInvalidated b p interface name then 0 else 1) ∧
        invalidated.count name = if isInvalidated b p interface name then 1 else 0
  only : ∀ changed invalidated,
    emitPropertiesChangedOnInterface cb b p interface requireFallback (some names) =
      .signal changed invalidated →
    (∀ x ∈ changed, ∃ i v u, names[i]? = some x.member ∧ lookup b p interface x.member = some v ∧
      cb.get i v.parent v.entry u = .done x.value ∧ x.signature = v.entry.signature) ∧
    ∀ x ∈ invalidated, x ∈ names

/-- What keeps a pass from going through: an assertion, or a function called back that fails or
changes the tree. -/
inductive Obstacle
  | assertion
  | stop
  deriving DecidableEq, Repr

def nameObstacle (c : Nat) (u : U) (i : Nat) (property : Str) : List Obstacle :=
  match lookup b p interface property with
  | none => []
  | some v =>
    if c ≠ v.parent then []
    else if hasFlag v.entry.flags sdBusVtableHidden then [.assertion]
    else if hasFlag v.entry.flags sdBusVtablePropertyEmitsInvalidation then []
    else match cb.get i c v.entry u with
      | .done _ => []
      | _ => [.stop]

def namesObstacles (c : Nat) (u : U) : Nat → List Str → List Obstacle
  | _, [] => []
  | i, property :: names =>
    nameObstacle cb b p interface c u i property ++ namesObstacles c u (i + 1) names

def vtableObstacles (second : Bool) (f : Nat → U → List Obstacle) (c : Nat) : List Obstacle :=
  if !concerns b interface requireFallback c then []
  else match nodeVtableGetUserdata cb b second c with
    | .done none => []
    | .done (some u) => f c u
    | _ => [.stop]

def vtablesAt : List Nat :=
  match b.getNode p with
  | none => []
  | some n => b.vtables n

def firstObstacles : List Obstacle :=
  (vtablesAt b p).flatMap (vtableObstacles cb b interface requireFallback false fun c u =>
    namesObstacles cb b p interface c u 0 names)

def namesLacking (c : Nat) : List Obstacle :=
  names.flatMap fun property => if owner b p interface property = some c then [] else [.assertion]

def secondObstacles : List Obstacle :=
  (vtablesAt b p).flatMap (vtableObstacles cb b interface requireFallback true fun c _ =>
    namesLacking b p interface names c)

def HasObject (second : Bool) (c : Nat) : Prop :=
  c ∈ vtablesAt b p ∧ concerns b interface requireFallback c = true ∧
    ∃ u, nodeVtableGetUserdata cb b second c = .done (some u)

def Served (second : Bool) (property : Str) : Prop :=
  ∃ c, owner b p interface property = some c ∧ HasObject cb b p interface requireFallback second c

def Invalidates : Prop := ∃ name ∈ names, isInvalidated b p interface name = true ∧
  Served cb b p interface requireFallback false name

/-- No hidden property comes first among the obstacles; where something is invalidated, the second
pass does not come first to a vtable that lacks a name; and if the passes go through, no name is
given twice and each is on a vtable that has an object in its passes. -/
structure OneVtable : Prop where
  shown : (firstObstacles cb b p interface requireFallback names).head? ≠ some .assertion
  whole : firstObstacles cb b p interface requireFallback names = [] →
    Invalidates cb b p interface requireFallback names →
    (secondObstacles cb b p interface requireFallback names).head? ≠ some .assertion
  served : firstObstacles cb b p interface requireFallback names = [] →
    (Invalidates cb b p interface requireFallback names →
      secondObstacles cb b p interface requireFallback names = []) →
    (∃ name ∈ names, Served cb b p interface requireFallback false name) →
    names.Nodup ∧ ∀ name ∈ names, Served cb b p interface requireFallback false name ∧
      (isInvalidated b p interface name = true → Served cb b p interface requireFallback true name)

end

/-- The computation ends at the first obstacle, or with the result. -/
def Meets {σ : Type} (obstacles : List Obstacle) (r : Except (Emitted V) σ) (a : σ) : Prop :=
  match obstacles.head? with
  | some .assertion => r = .error .assertion
  | some .stop => r = .error .failed ∨ r = .error .nothing
  | none => r = .ok a

theorem Meets.ok {σ : Type} (a : σ) : Meets (V := V) [] (.ok a) a := rfl

theorem Meets.bind {σ τ : Type} {o o' : List Obstacle} {r : Except (Emitted V) σ} {a : σ}
    {f : σ → Except (Emitted V) τ} {c : τ} (h : Meets o r a) (h' : Meets o' (f a) c) :
    Meets (o ++ o') (r.bind f) c := by
  rcases o with _ | ⟨x, o⟩
  · obtain rfl : r = .ok a := h
    exact h'
  · cases x with
    | assertion =>
      obtain rfl : r = .error .assertion := h
      rfl
    | stop =>
      rcases (h : r = .error .failed ∨ r = .error .nothing) with rfl | rfl
      · exact Or.inl rfl
      · exact Or.inr rfl

def FirstPass.add (x y : FirstPass V) : FirstPass V where
  changed := x.changed ++ y.changed
  hasInvalidating := x.hasInvalidating || y.hasInvalidating
  hasChanging := x.hasChanging || y.hasChanging

theorem FirstPass.add_assoc (x y z : FirstPass V) : (x.add y).add z = x.add (y.add z) := by
  simp [FirstPass.add, Bool.or_assoc]

theorem FirstPass.add_empty (x : FirstPass V) : x.add {} = x := by
  simp [FirstPass.add]

section
variable (cb : Callbacks U V) (b : ObjBus) (p interface : Str) (requireFallback : Bool)
  (names : List Str)

def firstOfName (c : Nat) (u : U) (i : Nat) (property : Str) : FirstPass V :=
  match lookup b p interface property with
  | none => {}
  | some v =>
    if c ≠ v.parent then {}
    else if hasFlag v.entry.flags sdBusVtablePropertyEmitsInvalidation then { hasInvalidating := true }
    else match cb.get i c v.entry u with
      | .done x => { hasChanging := true, changed := [⟨v.entry.member, v.entry.signature, x⟩] }
      | _ => {}

def firstOfNames (c : Nat) (u : U) : Nat → List Str → FirstPass V
  | _, [] => {}
  | i, property :: names =>
    (firstOfName cb b p interface c u i property).add (firstOfNames c u (i + 1) names)

def firstOfVtable (c : Nat) : FirstPass V :=
  if !concerns b interface requireFallback c then {}
  else match nodeVtableGetUserdata cb b false c with
    | .done (some u) => firstOfNames cb b p interface c u 0 names
    | _ => {}

def firstOf : List Nat → FirstPass V
  | [] => {}
  | c :: l => (firstOfVtable cb b p interface requireFallback names c).add (firstOf l)

def secondOfVtable (c : Nat) : List Str :=
  if !concerns b interface requireFallback c then []
  else match nodeVtableGetUserdata cb b true c with
    | .done (some _) => names.filter (isInvalidated b p interface)
    | _ => []

end

section
variable {cb : Callbacks U V} {b : ObjBus} {p interface : Str} {requireFallback : Bool}
  {names : List Str}

theorem firstNames_meets (c : Nat) (u : U) (names : List Str)
    (hm : ∀ name ∈ names, Marked b p interface name) (i : Nat) (st : FirstPass V) :
    Meets (namesObstacles cb b p interface c u i names)
      (firstNames cb b p interface c u i names st)
      (st.add (firstOfNames cb b p interface c u i names)) := by
  induction names generalizing i st with
  | nil => exact (FirstPass.add_empty st).symm ▸ Meets.ok st
  | cons property names ih =>
    obtain ⟨⟨hvalid, v, hv, hmark⟩, hm⟩ := List.forall_mem_cons.mp hm
    have hmark : (hasFlag v.entry.flags sdBusVtablePropertyEmitsChange ||
        hasFlag v.entry.flags sdBusVtablePropertyEmitsInvalidation) = true := by
      simpa using hmark
    have ih := ih hm (i + 1)
    unfold firstNames namesObstacles firstOfNames nameObstacle firstOfName
    simp only [hvalid, hv, hmark, Bool.not_true, Bool.false_eq_true, if_false]
    by_cases hc : c = v.parent
    swap
    · simpa [hc, FirstPass.add] using ih st
    simp only [hc, ne_eq, not_true_eq_false, if_false]
    rcases hasFlag v.entry.flags sdBusVtableHidden with _ | _
    swap
    · rfl
    rw [← FirstPass.add_assoc]
    rcases hasFlag v.entry.flags sdBusVtablePropertyEmitsInvalidation with _ | _
    · simp only [Bool.false_eq_true, if_false]
      unfold appendOne
      rcases cb.get i v.parent v.entry u with x | _ | _
      · simpa [FirstPass.add, Except.bind, hc] using ih (st.add
          { hasChanging := true, changed := [⟨v.entry.member, v.entry.signature, x⟩] })
      · exact Or.inl rfl
      · exact Or.inr rfl
    · simpa [FirstPass.add, hc] using ih (st.add { hasInvalidating := true })

theorem firstPass_meets (hm : ∀ name ∈ names, Marked b p interface name) (l : List Nat)
    (st : FirstPass V) :
    Meets (l.flatMap (vtableObstacles cb b interface requireFallback false fun c u =>
        namesObstacles cb b p interface c u 0 names))
      (firstPass cb b p interface requireFallback (some names) l st)
      (st.add (firstOf cb b p interface requireFallback names l)) := by
  induction l generalizing st with
  | nil => exact (FirstPass.add_empty st).symm ▸ Meets.ok st
  | cons c l ih =>
    rw [List.flatMap_cons, vtableObstacles, firstPass, firstOf, firstOfVtable]
    rcases concerns b interface requireFallback c with _ | _
    · simpa [FirstPass.add] using ih st
    · rw [← FirstPass.add_assoc]
      refine Meets.bind (a := st.add _) ?_ (ih _)
      unfold withObject
      rcases nodeVtableGetUserdata cb b false c with o | _ | _
      · rcases o with _ | u
        · exact (FirstPass.add_empty st).symm ▸ Meets.ok st
        · exact firstNames_meets c u names hm 0 st
      · exact Or.inl rfl
      · exact Or.inr rfl

theorem secondNames_meets (c : Nat) (names : List Str)
    (hm : ∀ name ∈ names, Marked b p interface name) (st : List Str) :
    Meets (V := V) (namesLacking b p interface names c) (secondNames b p interface c names st)
      (st ++ names.filter (isInvalidated b p interface)) := by
  induction names generalizing st with
  | nil => exact (List.append_nil st).symm ▸ Meets.ok st
  | cons property names ih =>
    obtain ⟨⟨-, v, hv, -⟩, hm⟩ := List.forall_mem_cons.mp hm
    have ih := ih hm
    have ho : owner b p interface property = some v.parent := by simp only [owner, hv, Option.map_some]
    have hi : isInvalidated b p interface property =
        hasFlag v.entry.flags sdBusVtablePropertyEmitsInvalidation := by simp only [isInvalidated, hv]
    rw [namesLacking, List.flatMap_cons, ← namesLacking, secondNames, List.filter_cons, hi, ho]
    simp only [hv, Option.some.injEq]
    by_cases hc : v.parent = c
    · simp only [hc, if_true, ne_eq, not_true_eq_false, if_false, List.nil_append]
      rcases hasFlag v.entry.flags sdBusVtablePropertyEmitsInvalidation with _ | _
      · exact ih st
      · simpa using ih (st ++ [property])
    · have hc' : c ≠ v.parent := fun h => hc h.symm
      simp only [hc, hc', ne_eq, not_false_eq_true, if_true, if_false]
      rfl

theorem secondPass_meets (hm : ∀ name ∈ names, Marked b p interface name) (l : List Nat)
    (st : List Str) :
    Meets (l.flatMap (vtableObstacles cb b interface requireFallback true fun c _ =>
        namesLacking b p interface names c))
      (secondPass cb b p interface requireFallback (some names) l st)
      (st ++ l.flatMap (secondOfVtable cb b p interface requireFallback names)) := by
  induction l generalizing st with
  | nil => exact (List.append_nil st).symm ▸ Meets.ok st
  | cons c l ih =>
    rw [List.flatMap_cons, List.flatMap_cons, ← List.append_assoc, vtableObstacles, secondPass,
      secondOfVtable]
    rcases concerns b interface requireFallback c with _ | _
    · simpa using ih st
    · refine Meets.bind (a := st ++ _) ?_ (ih _)
      unfold withObject
      rcases nodeVtableGetUserdata cb b true c with o | _ | _
      · rcases o with _ | u
        · exact (List.append_nil st).symm ▸ Meets.ok st
        · exact secondNames_meets c names hm st
      · exact Or.inl rfl
      · exact Or.inr rfl

variable (cb b interface requireFallback) in
def hasObject (second : Bool) (c : Nat) : Bool :=
  concerns b interface requireFallback c && match nodeVtableGetUserdata cb b second c with
    | .done (some _) => true
    | _ => false

theorem hasObject_iff {second : Bool} {c : Nat} :
    hasObject cb b interface requireFallback second c = true ↔
      concerns b interface requireFallback c = true ∧
        ∃ u, nodeVtableGetUserdata cb b second c = .done (some u) := by
  unfold hasObject
  rw [Bool.and_eq_true]
  refine and_congr_right fun _ => ?_
  rcases nodeVtableGetUserdata cb b second c with (_ | u) | _ | _ <;> simp

variable (b p interface) in
def ownNames (invalidated : Bool) (names : List Str) (c : Nat) : List Str :=
  names.filter fun name => owner b p interface name = some c &&
    isInvalidated b p interface name = invalidated

theorem served_iff {second : Bool} {name : Str} :
    Served cb b p interface requireFallback second name ↔ ∃ c ∈ vtablesAt b p,
      hasObject cb b interface requireFallback second c = true ∧
        owner b p interface name = some c := by
  constructor
  · rintro ⟨c, ho, hc, hobj⟩
    exact ⟨c, hc, hasObject_iff.mpr hobj, ho⟩
  · rintro ⟨c, hc, hobj, ho⟩
    exact ⟨c, ho, hc, hasObject_iff.mp hobj⟩

theorem count_ownNames {l : List Nat} (hl : l.Nodup) (P : Nat → Bool) (invalidated : Bool)
    (names : List Str) (name : Str) :
    (l.flatMap fun c => if P c then ownNames b p interface invalidated names c else []).count name =
      if isInvalidated b p interface name = invalidated ∧
        ∃ c ∈ l, P c = true ∧ owner b p interface name = some c then names.count name else 0 := by
  have hown : ∀ c, (ownNames b p interface invalidated names c).count name =
      if isInvalidated b p interface name = invalidated ∧ owner b p interface name = some c then
        names.count name else 0 := by
    intro c
    unfold ownNames
    split
    · next h =>
      rw [List.count_filter]
      simp [h]
    · next h =>
      rw [List.count_eq_zero]
      intro hm
      have hq := (List.mem_filter.mp hm).2
      simp only [Bool.and_eq_true, decide_eq_true_eq] at hq
      exact h ⟨hq.2, hq.1⟩
  induction l with
  | nil => simp
  | cons c l ih =>
    obtain ⟨hc, hl⟩ := List.nodup_cons.mp hl
    rw [List.flatMap_cons, List.count_append, ih hl]
    by_cases hhere : isInvalidated b p interface name = invalidated ∧
        owner b p interface name = some c
    · have hrest : ¬∃ d ∈ l, P d = true ∧ owner b p interface name = some d := by
        rintro ⟨d, hd, -, ho⟩
        exact hc (Option.some.inj (hhere.2.symm.trans ho) ▸ hd)
      rcases hP : P c with _ | _
      · simp [hP, hrest]
      · simp [hP, hown, hhere, hc]
    · have hz : (if P c then ownNames b p interface invalidated names c else []).count name = 0 := by
        split
        · rw [hown, if_neg hhere]
        · rfl
      rw [hz, Nat.zero_add]
      refine if_congr (and_congr_right fun hi => ?_) rfl rfl
      rw [List.exists_mem_cons_iff, or_iff_right]
      exact fun h => hhere ⟨hi, h.2⟩

section
variable (hmem : ∀ name v, lookup b p interface name = some v → v.entry.member = name)
include hmem

theorem firstOfNames_spec (c : Nat) (u : U) (names : List Str)
    (hm : ∀ name ∈ names, Marked b p interface name) (i : Nat)
    (hno : namesObstacles cb b p interface c u i names = []) :
    (firstOfNames cb b p interface c u i names).changed.map Property.member =
        ownNames b p interface false names c ∧
      (firstOfNames cb b p interface c u i names).hasChanging =
        !(ownNames b p interface false names c).isEmpty ∧
      (firstOfNames cb b p interface c u i names).hasInvalidating =
        !(ownNames b p interface true names c).isEmpty := by
  induction names generalizing i with
  | nil => exact ⟨rfl, rfl, rfl⟩
  | cons property names ih =>
    obtain ⟨⟨-, v, hv, -⟩, hm⟩ := List.forall_mem_cons.mp hm
    obtain ⟨hno, hrest⟩ := List.append_eq_nil_iff.mp hno
    obtain ⟨hch, hhc, hhi⟩ := ih hm (i + 1) hrest
    have ho : owner b p interface property = some v.parent := by simp only [owner, hv, Option.map_some]
    have hi : isInvalidated b p interface property =
        hasFlag v.entry.flags sdBusVtablePropertyEmitsInvalidation := by simp only [isInvalidated, hv]
    have hmember := hmem property v hv
    unfold firstOfNames
    simp only [FirstPass.add, List.map_append, hch, hhc, hhi]
    unfold nameObstacle at hno
    unfold ownNames firstOfName
    simp only [hv, List.filter_cons, ho, hi, Option.some.injEq] at hno ⊢
    by_cases hc : c = v.parent
    · have hc' : v.parent = c := hc.symm
      simp only [hc', ne_eq, not_true_eq_false, if_false, decide_true, Bool.true_and] at hno ⊢
      split at hno
      · exact absurd hno nofun
      rcases hf : hasFlag v.entry.flags sdBusVtablePropertyEmitsInvalidation with _ | _
      · simp only [hf, Bool.false_eq_true, if_false] at hno
        rcases hx : cb.get i c v.entry u with x | _ | _
        · simp [hmember]
        · simp [hx] at hno
        · simp [hx] at hno
      · simp
    · have hc' : ¬v.parent = c := fun h => hc h.symm
      simp [hc, hc']

theorem firstOf_spec (hm : ∀ name ∈ names, Marked b p interface name) (l : List Nat)
    (hno : l.flatMap (vtableObstacles cb b interface requireFallback false fun c u =>
      namesObstacles cb b p interface c u 0 names) = []) :
    (firstOf cb b p interface requireFallback names l).changed.map Property.member =
        (l.flatMap fun c => if hasObject cb b interface requireFallback false c then
          ownNames b p interface false names c else []) ∧
      ((firstOf cb b p interface requireFallback names l).hasChanging = true ↔ ∃ c ∈ l,
        hasObject cb b interface requireFallback false c = true ∧
          ownNames b p interface false names c ≠ []) ∧
      ((firstOf cb b p interface requireFallback names l).hasInvalidating = true ↔ ∃ c ∈ l,
        hasObject cb b interface requireFallback false c = true ∧
          ownNames b p interface true names c ≠ []) := by
  induction l with
  | nil => simp [firstOf]
  | cons c l ih =>
    rw [List.flatMap_cons] at hno
    obtain ⟨hno, hrest⟩ := List.append_eq_nil_iff.mp hno
    obtain ⟨hch, hhc, hhi⟩ := ih hrest
    simp only [firstOf, FirstPass.add, List.map_append, Bool.or_eq_true, hch, hhc, hhi,
      List.flatMap_cons, List.exists_mem_cons_iff]
    unfold vtableObstacles at hno
    unfold firstOfVtable hasObject
    rcases hcon : concerns b interface requireFallback c with _ | _
    · simp
    rcases hu : nodeVtableGetUserdata cb b false c with (_ | u) | _ | _
    · simp
    · simp only [hcon, hu, Bool.not_true, Bool.false_eq_true, if_false] at hno
      obtain ⟨h₁, h₂, h₃⟩ := firstOfNames_spec hmem c u names hm 0 hno
      simp [h₁, h₂, h₃]
    · simp [hcon, hu] at hno
    · simp [hcon, hu] at hno

theorem mem_firstOfNames (c : Nat) (u : U) (names : List Str) (i : Nat) {x : Property V}
    (hx : x ∈ (firstOfNames cb b p interface c u i names).changed) :
    ∃ k v, names[k]? = some x.member ∧ lookup b p interface x.member = some v ∧
      cb.get (i + k) v.parent v.entry u = .done x.value ∧ x.signature = v.entry.signature := by
  induction names generalizing i with
  | nil => exact absurd hx List.not_mem_nil
  | cons property names ih =>
    simp only [firstOfNames, FirstPass.add, List.mem_append] at hx
    rcases hx with hx | hx
    · unfold firstOfName at hx
      split at hx
      · exact absurd hx List.not_mem_nil
      next v hv =>
      split at hx
      · exact absurd hx List.not_mem_nil
      next hc =>
      obtain rfl : c = v.parent := by simpa using hc
      split at hx
      · exact absurd hx List.not_mem_nil
      split at hx
      · next a ha =>
        obtain rfl := List.mem_singleton.mp hx
        have hname := hmem property v hv
        exact ⟨0, v, by simp [hname], by rw [hname]; exact hv, ha, rfl⟩
      · exact absurd hx List.not_mem_nil
    · obtain ⟨k, v, hk, hv, ha, hs⟩ := ih (i + 1) hx
      exact ⟨k + 1, v, hk, hv, by rw [Nat.add_right_comm] at ha; exact ha, hs⟩

theorem mem_firstOf (l : List Nat) {x : Property V}
    (hx : x ∈ (firstOf cb b p interface requireFallback names l).changed) :
    ∃ i v u, names[i]? = some x.member ∧ lookup b p interface x.member = some v ∧
      cb.get i v.parent v.entry u = .done x.value ∧ x.signature = v.entry.signature := by
  induction l with
  | nil => exact absurd hx List.not_mem_nil
  | cons c l ih =>
    simp only [firstOf, FirstPass.add, List.mem_append] at hx
    rcases hx with hx | hx
    · unfold firstOfVtable at hx
      split at hx
      · exact absurd hx List.not_mem_nil
      split at hx
      · next u _ =>
        obtain ⟨k, v, hk, hv, ha, hs⟩ := mem_firstOfNames hmem c u names 0 hx
        exact ⟨k, v, u, hk, hv, by rwa [Nat.zero_add] at ha, hs⟩
      · exact absurd hx List.not_mem_nil
    · exact ih hx

end

theorem owns_all {l : List Nat}
    (hno : l.flatMap (vtableObstacles cb b interface requireFallback true fun c _ =>
      namesLacking b p interface names c) = []) {c : Nat} (hc : c ∈ l)
    (ho : hasObject cb b interface requireFallback true c = true) :
    ∀ name ∈ names, owner b p interface name = some c := by
  have hv := List.flatMap_eq_nil_iff.mp hno c hc
  obtain ⟨hcon, u, hu⟩ := hasObject_iff.mp ho
  simp only [vtableObstacles, hcon, hu, Bool.not_true, Bool.false_eq_true, if_false] at hv
  intro name hn
  by_contra hne
  have := List.flatMap_eq_nil_iff.mp hv name hn
  simp [hne] at this

theorem secondOf_spec (l : List Nat)
    (hno : l.flatMap (vtableObstacles cb b interface requireFallback true fun c _ =>
      namesLacking b p interface names c) = []) :
    l.flatMap (secondOfVtable cb b p interface requireFallback names) =
      l.flatMap fun c => if hasObject cb b interface requireFallback true c then
        ownNames b p interface true names c else [] := by
  have hcongr : ∀ c ∈ l, secondOfVtable cb b p interface requireFallback names c =
      if hasObject cb b interface requireFallback true c then
        ownNames b p interface true names c else [] := by
    intro c hc
    unfold secondOfVtable
    rcases ho : hasObject cb b interface requireFallback true c with _ | _
    · have hno := mt hasObject_iff.mpr (by simp [ho] :
        ¬hasObject cb b interface requireFallback true c = true)
      rcases hcon : concerns b interface requireFallback c with _ | _
      · rfl
      · simp only [Bool.not_true, Bool.false_eq_true, if_false]
        split
        · next u hu => exact absurd ⟨hcon, u, hu⟩ hno
        · rfl
    · obtain ⟨hcon, u, hu⟩ := hasObject_iff.mp ho
      simp only [hcon, hu, Bool.not_true, Bool.false_eq_true, if_false, if_true]
      refine List.filter_congr fun name hn => ?_
      simp [owns_all hno hc ho name hn]
  exact congrArg List.flatten (List.map_congr_left hcongr)

theorem ownNames_ne_nil {invalidated : Bool} {c : Nat} :
    ownNames b p interface invalidated names c ≠ [] ↔ ∃ name ∈ names,
      owner b p interface name = some c ∧ isInvalidated b p interface name = invalidated := by
  rw [ownNames, ne_eq, List.filter_eq_nil_iff]
  push Not
  simp

end

section
variable {cb : Callbacks U V} {b : ObjBus} {p interface : Str} {requireFallback : Bool}
  {names : List Str}

theorem lookup_member (h : ObjectTree b) (name : Str) (v : VtableMember)
    (hv : lookup b p interface name = some v) : v.entry.member = name := by
  obtain ⟨hm, hk⟩ := Table.mem_of_get hv
  simp only [VtableMember.key, Prod.mk.injEq] at hk
  obtain ⟨n, -, -, -, -, -, hmember⟩ := (h.declares .property v).mpr ⟨v.lastIteration, hm⟩
  rw [← hmember, hk.2.2]

theorem vtablesAt_nodup (h : ObjectTree b) : (vtablesAt b p).Nodup := by
  unfold vtablesAt
  rcases b.getNode p with _ | n
  · exact List.nodup_nil
  · exact h.nodup n .vtable

theorem nodup_iff_count {names : List Str} : names.Nodup ↔ ∀ name ∈ names, names.count name = 1 := by
  rw [List.nodup_iff_count_le_one]
  constructor
  · intro h name hn
    exact Nat.le_antisymm (h name) (List.count_pos_iff.mpr hn)
  · intro h name
    by_cases hn : name ∈ names
    · exact (h name hn).le
    · rw [List.count_eq_zero_of_not_mem hn]
      exact Nat.zero_le 1

theorem ListsEachOnce.of_no_signal
    (h : emitPropertiesChangedOnInterface cb b p interface requireFallback (some names) =
        .failed ∨
      emitPropertiesChangedOnInterface cb b p interface requireFallback (some names) = .nothing) :
    ListsEachOnce cb b p interface requireFallback names := by
  refine ⟨?_, fun ch inv hs => ?_, fun ch inv hs => ?_⟩
  all_goals rcases h with h | h
  · exact h ▸ nofun
  · exact h ▸ nofun
  · exact absurd (h.symm.trans hs) nofun
  · exact absurd (h.symm.trans hs) nofun
  · exact absurd (h.symm.trans hs) nofun
  · exact absurd (h.symm.trans hs) nofun

theorem FirstPass.empty_add (x : FirstPass V) : ({} : FirstPass V).add x = x := by
  simp [FirstPass.add]

theorem exists_ownNames_iff {invalidated : Bool} :
    (∃ c ∈ vtablesAt b p, hasObject cb b interface requireFallback false c = true ∧
        ownNames b p interface invalidated names c ≠ []) ↔
      ∃ name ∈ names, isInvalidated b p interface name = invalidated ∧
        Served cb b p interface requireFallback false name := by
  constructor
  · rintro ⟨c, hc, ho, hn⟩
    obtain ⟨name, hname, howner, hi⟩ := ownNames_ne_nil.mp hn
    exact ⟨name, hname, hi, served_iff.mpr ⟨c, hc, ho, howner⟩⟩
  · rintro ⟨name, hname, hi, hs⟩
    obtain ⟨c, hc, ho, howner⟩ := served_iff.mp hs
    exact ⟨c, hc, ho, ownNames_ne_nil.mpr ⟨name, hname, howner, hi⟩⟩

variable (cb interface requireFallback names) in
open Classical in
theorem count_served (hl : (vtablesAt b p).Nodup) (second invalidated : Bool) (name : Str) :
    ((vtablesAt b p).flatMap fun c => if hasObject cb b interface requireFallback second c then
        ownNames b p interface invalidated names c else []).count name =
      if isInvalidated b p interface name = invalidated ∧
        Served cb b p interface requireFallback second name then names.count name else 0 := by
  rw [count_ownNames hl]
  refine if_congr (and_congr_right fun _ => ?_) rfl rfl
  rw [served_iff]

open Classical in
theorem lists_signal_iff {changed : List (Property V)} {invalidated : List Str} {S : Str → Prop}
    (hsig : emitPropertiesChangedOnInterface cb b p interface requireFallback (some names) =
      .signal changed invalidated)
    (hchanged : ∀ name, (changed.map Property.member).count name =
      if isInvalidated b p interface name = false ∧
        Served cb b p interface requireFallback false name then names.count name else 0)
    (hinvalidated : ∀ name, invalidated.count name =
      if isInvalidated b p interface name = true ∧ S name then names.count name else 0)
    (honly : ∀ x ∈ changed, ∃ i v u, names[i]? = some x.member ∧
      lookup b p interface x.member = some v ∧ cb.get i v.parent v.entry u = .done x.value ∧
        x.signature = v.entry.signature) :
    ListsEachOnce cb b p interface requireFallback names ↔ ∀ name ∈ names,
      names.count name = 1 ∧ (isInvalidated b p interface name = true → S name) ∧
        (isInvalidated b p interface name = false →
          Served cb b p interface requireFallback false name) := by
  constructor
  · intro hl name hname
    obtain ⟨h₁, h₂⟩ := hl.once _ _ hsig name hname
    rw [hchanged] at h₁
    rw [hinvalidated] at h₂
    rcases hi : isInvalidated b p interface name with _ | _
    · simp only [hi, true_and, Bool.false_eq_true, if_false] at h₁
      split at h₁
      · next hs => exact ⟨h₁, nofun, fun _ => hs⟩
      · exact absurd h₁ nofun
    · simp only [hi, true_and, if_true] at h₂
      split at h₂
      · next hs => exact ⟨h₂, fun _ => hs, nofun⟩
      · exact absurd h₂ nofun
  · intro hall
    refine ⟨by rw [hsig]; exact nofun, fun ch inv hs name hname => ?_, fun ch inv hs => ?_⟩
    · obtain ⟨rfl, rfl⟩ := Emitted.signal.inj (hsig.symm.trans hs)
      obtain ⟨hone, hinv, hch⟩ := hall name hname
      rw [hchanged, hinvalidated]
      rcases hi : isInvalidated b p interface name with _ | _
      · simp [hch hi, hone]
      · simp [hinv hi, hone]
    · obtain ⟨rfl, rfl⟩ := Emitted.signal.inj (hsig.symm.trans hs)
      refine ⟨honly, fun x hx => ?_⟩
      have hpos := List.count_pos_iff.mpr hx
      rw [hinvalidated] at hpos
      split at hpos
      · exact List.count_pos_iff.mp hpos
      · exact absurd hpos (lt_irrefl 0)

theorem head?_eq_none {o : List Obstacle} (h : o.head? = none) : o = [] :=
  List.head?_eq_none_iff.mp h

end

/-- For marked properties of an interface the call reaches no assertion and lists each once, exactly
if one vtable has what is invalidated. -/
theorem listsEachOnce_iff (cb : Callbacks U V) (b : ObjBus) (h : ObjectTree b) (p interface : Str)
    (requireFallback : Bool) (names : List Str) (hm : ∀ name ∈ names, Marked b p interface name) :
    ListsEachOnce cb b p interface requireFallback names ↔
      OneVtable cb b p interface requireFallback names := by
  have hmem : ∀ name v, lookup b p interface name = some v → v.entry.member = name :=
    lookup_member h
  have hnodup := vtablesAt_nodup (p := p) h
  have hfirst : Meets (firstObstacles cb b p interface requireFallback names)
      (firstPass cb b p interface requireFallback (some names) (vtablesAt b p) {})
      (FirstPass.add {} (firstOf cb b p interface requireFallback names (vtablesAt b p))) :=
    firstPass_meets hm (vtablesAt b p) {}
  have hsecond : Meets (secondObstacles cb b p interface requireFallback names)
      (secondPass cb b p interface requireFallback (some names) (vtablesAt b p) [])
      ((vtablesAt b p).flatMap (secondOfVtable cb b p interface requireFallback names)) :=
    secondPass_meets hm (vtablesAt b p) []
  rcases hn : b.getNode p with _ | n
  · have hv : vtablesAt b p = [] := by simp only [vtablesAt, hn]
    have hno : ∀ second name, ¬Served cb b p interface requireFallback second name := by
      rintro second name ⟨c, -, hc, -⟩
      exact absurd (hv ▸ hc) List.not_mem_nil
    refine iff_of_true (.of_no_signal (Or.inr ?_)) ⟨?_, ?_, ?_⟩
    · simp only [emitPropertiesChangedOnInterface, hn]
    · simp [firstObstacles, hv]
    · rintro - ⟨name, -, -, hs⟩
      exact absurd hs (hno _ _)
    · rintro - - ⟨name, -, hs⟩
      exact absurd hs (hno _ _)
  have hv : vtablesAt b p = b.vtables n := by simp only [vtablesAt, hn]
  have hemit : emitPropertiesChangedOnInterface cb b p interface requireFallback (some names) =
      match firstPass cb b p interface requireFallback (some names) (vtablesAt b p) {} with
      | .error e => e
      | .ok st =>
        if !st.hasInvalidating && !st.hasChanging then .nothing
        else if st.hasInvalidating then
          match secondPass cb b p interface requireFallback (some names) (vtablesAt b p) [] with
          | .error e => e
          | .ok invalidated => .signal st.changed invalidated
        else .signal st.changed [] := by
    simp only [emitPropertiesChangedOnInterface, hn, hv]
  unfold Meets at hfirst
  split at hfirst
  · next ho =>
    rw [hfirst] at hemit
    exact iff_of_false (fun hl => hl.safe hemit) fun hone => hone.shown ho
  · next ho =>
    refine iff_of_true (.of_no_signal ?_) ⟨by rw [ho]; exact nofun, fun hno => ?_, fun hno => ?_⟩
    · rcases hfirst with hf | hf
      · exact Or.inl (by rw [hemit, hf])
      · exact Or.inr (by rw [hemit, hf])
    · exact absurd (hno ▸ ho) nofun
    · exact absurd (hno ▸ ho) nofun
  next ho =>
  have hno := head?_eq_none ho
  rw [hfirst] at hemit
  rw [FirstPass.empty_add] at hemit
  dsimp only at hemit
  obtain ⟨hchanged, hch, hinv⟩ := firstOf_spec hmem hm (vtablesAt b p) hno
  have honly : ∀ x ∈ (firstOf cb b p interface requireFallback names (vtablesAt b p)).changed,
      ∃ i v u, names[i]? = some x.member ∧ lookup b p interface x.member = some v ∧
        cb.get i v.parent v.entry u = .done x.value ∧ x.signature = v.entry.signature :=
    fun x => mem_firstOf hmem (vtablesAt b p)
  rw [exists_ownNames_iff] at hch hinv
  have hcount := count_served cb interface requireFallback names hnodup
  generalize firstOf cb b p interface requireFallback names (vtablesAt b p) = st at *
  rcases hi : st.hasInvalidating with _ | _
  · have hninv : ¬Invalidates cb b p interface requireFallback names :=
      fun h => absurd (hi.symm.trans (hinv.mpr h)) nofun
    rcases hc : st.hasChanging with _ | _
    · refine iff_of_true (.of_no_signal (Or.inr ?_))
        ⟨by rw [ho]; exact nofun, fun _ hin => absurd hin hninv, fun _ _ hsome => ?_⟩
      · simp [hemit, hi, hc]
      · obtain ⟨name, hname, hs⟩ := hsome
        rcases hk : isInvalidated b p interface name with _ | _
        · exact absurd (hc.symm.trans (hch.mpr ⟨name, hname, hk, hs⟩)) nofun
        · exact absurd ⟨name, hname, hk, hs⟩ hninv
    · -- Nothing is invalidated: one pass writes the signal.
      have hsig : emitPropertiesChangedOnInterface cb b p interface requireFallback (some names) =
          .signal st.changed [] := by simp [hemit, hi, hc]
      rw [lists_signal_iff (S := fun _ => False) hsig
        (fun name => by rw [hchanged]; exact hcount false false name) (by simp) honly]
      constructor
      · intro hall
        refine ⟨by rw [ho]; exact nofun, fun _ hin => absurd hin hninv, fun _ _ _ =>
          ⟨nodup_iff_count.mpr fun name hname => (hall name hname).1, fun name hname => ?_⟩⟩
        obtain ⟨-, hnot, hs⟩ := hall name hname
        rcases hk : isInvalidated b p interface name with _ | _
        · exact ⟨hs hk, nofun⟩
        · exact absurd (hnot hk) not_false
      · intro hone
        obtain ⟨name, hname, -, hs⟩ := hch.mp hc
        obtain ⟨hnd, hall⟩ := hone.served hno (fun hin => absurd hin hninv) ⟨name, hname, hs⟩
        intro name hname
        obtain ⟨hs, -⟩ := hall name hname
        exact ⟨nodup_iff_count.mp hnd name hname, fun hk => hninv ⟨name, hname, hk, hs⟩,
          fun _ => hs⟩
  · have hinvalidates : Invalidates cb b p interface requireFallback names := hinv.mp hi
    simp only [hi, Bool.not_true, Bool.false_and, Bool.false_eq_true, if_false, if_true] at hemit
    unfold Meets at hsecond
    split at hsecond
    · next ho₂ =>
      rw [hsecond] at hemit
      exact iff_of_false (fun hl => hl.safe hemit) fun hone => hone.whole hno hinvalidates ho₂
    · next ho₂ =>
      refine iff_of_true (.of_no_signal ?_) ⟨by rw [ho]; exact nofun,
        fun _ _ => by rw [ho₂]; exact nofun, fun _ hall => ?_⟩
      · rcases hsecond with hf | hf
        · exact Or.inl (by rw [hemit, hf])
        · exact Or.inr (by rw [hemit, hf])
      · exact absurd (hall hinvalidates ▸ ho₂) nofun
    next ho₂ =>
    have hno₂ := head?_eq_none ho₂
    rw [hsecond] at hemit
    dsimp only at hemit
    rw [lists_signal_iff (S := Served cb b p interface requireFallback true) hemit
      (fun name => by rw [hchanged]; exact hcount false false name)
      (fun name => by rw [secondOf_spec _ hno₂]; exact hcount true true name) honly]
    obtain ⟨inv, hinv, hinvk, hinvs⟩ := hinvalidates
    constructor
    · intro hall
      refine ⟨by rw [ho]; exact nofun, fun _ _ => by rw [ho₂]; exact nofun, fun _ _ _ =>
        ⟨nodup_iff_count.mpr fun name hname => (hall name hname).1, fun name hname => ?_⟩⟩
      obtain ⟨-, hsi, hsc⟩ := hall name hname
      refine ⟨?_, hsi⟩
      rcases hk : isInvalidated b p interface name with _ | _
      · exact hsc hk
      · -- The one vtable of the second pass is also that of the name served in the first.
        obtain ⟨c, hc, hobj, howner⟩ := served_iff.mp (hsi hk)
        have hinvowner := owns_all hno₂ hc hobj inv hinv
        obtain ⟨d, hd, hdobj, hdowner⟩ := served_iff.mp hinvs
        obtain rfl := Option.some.inj (hinvowner.symm.trans hdowner)
        exact served_iff.mpr ⟨c, hd, hdobj, howner⟩
    · intro hone
      obtain ⟨hnd, hall⟩ := hone.served hno (fun _ => hno₂) ⟨inv, hinv, hinvs⟩
      intro name hname
      obtain ⟨hs, hs₂⟩ := hall name hname
      exact ⟨nodup_iff_count.mp hnd name hname, hs₂, fun _ => hs⟩

def fives : Callbacks Unit Nat where
  userdata _ := ()
  find _ _ := .done none
  get _ _ _ _ := .done 5

def oneChange : ObjectOp :=
  .addObjectVtable [47, 97] [97, 46, 98]
    { entries := [.property false sdBusVtablePropertyEmitsChange [80] [105] (some 0) none] }

/-- The interface `a.b` of `/a` is split over two vtables, of which the first has `P` and the second
`Q`; both are invalidated. -/
def splitInterface : List ObjectOp :=
  [.addObjectVtable [47, 97] [97, 46, 98]
      { entries := [.property false sdBusVtablePropertyEmitsInvalidation [80] [105] (some 0) none] },
    .addObjectVtable [47, 97] [97, 46, 98]
      { address := 1
        entries := [.property false sdBusVtablePropertyEmitsInvalidation [81] [105] (some 1) none] }]

/-- What the bus knows of `P` or `Q`. -/
def memberOf (flags : UInt64) (slot : Nat) (property : Str) : VtableMember where
  path := [47, 97]
  interface := [97, 46, 98]
  member := property
  parent := slot
  entry := .property false flags property [105] (some slot) none

theorem listsEachOnce_iff_own :
    (∀ name ∈ [[80]], Marked (objectRun [oneChange]) [47, 97] [97, 46, 98] name) ∧
      ListsEachOnce fives (objectRun [oneChange]) [47, 97] [97, 46, 98] false [[80]] := by
  have h : ObjectTree (objectRun [oneChange]) :=
    (objectTree_nil.exec oneChange).mpr (vtableClean_of_free (by decide +kernel))
  have hl : lookup (objectRun [oneChange]) [47, 97] [97, 46, 98] [80] =
      some (memberOf sdBusVtablePropertyEmitsChange 0 [80]) := by decide +kernel
  have hm : ∀ name ∈ [[80]], Marked (objectRun [oneChange]) [47, 97] [97, 46, 98] name := by
    intro name hname
    obtain rfl := List.mem_singleton.mp hname
    exact ⟨by decide, _, hl, Or.inl (by decide)⟩
  have hi : isInvalidated (objectRun [oneChange]) [47, 97] [97, 46, 98] [80] = false := by
    decide +kernel
  have ho : firstObstacles fives (objectRun [oneChange]) [47, 97] [97, 46, 98] false [[80]] = [] := by
    decide +kernel
  refine ⟨hm, (listsEachOnce_iff fives _ h [47, 97] [97, 46, 98] false [[80]] hm).mpr
    ⟨by rw [ho]; exact nofun, ?_, fun _ _ hs => ⟨List.nodup_singleton _, ?_⟩⟩⟩
  · rintro - ⟨name, hname, hinv, -⟩
    obtain rfl := List.mem_singleton.mp hname
    exact absurd (hi.symm.trans hinv) nofun
  · obtain ⟨name, hname, hs⟩ := hs
    obtain rfl := List.mem_singleton.mp hname
    intro name hname
    obtain rfl := List.mem_singleton.mp hname
    exact ⟨hs, fun hinv => absurd (hi.symm.trans hinv) nofun⟩

/-- The second pass comes to the vtable of `Q`, which is not that of `P`. -/
theorem not_listsEachOnce : ¬∀ (cb : Callbacks Unit Nat) (b : ObjBus), ObjectTree b →
    ∀ p interface requireFallback names, (∀ name ∈ names, Marked b p interface name) →
      ListsEachOnce cb b p interface requireFallback names := by
  intro hall
  have h₁ := (objectTree_nil.exec (splitInterface.get ⟨0, by decide⟩)).mpr
    (vtableClean_of_free (by decide +kernel))
  have h : ObjectTree (objectRun splitInterface) :=
    (h₁.exec (splitInterface.get ⟨1, by decide⟩)).mpr (vtableClean_of_free (by decide +kernel))
  have hl : lookup (objectRun splitInterface) [47, 97] [97, 46, 98] [80] =
      some (memberOf sdBusVtablePropertyEmitsInvalidation 0 [80]) := by decide +kernel
  have hlists := hall fives _ h [47, 97] [97, 46, 98] false [[80]] fun name hname => by
    obtain rfl := List.mem_singleton.mp hname
    exact ⟨by decide, _, hl, Or.inr (by decide)⟩
  exact hlists.safe (by decide +kernel)

end Basu.Changed
