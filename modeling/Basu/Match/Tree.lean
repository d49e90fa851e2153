import Basu.Names
import Mathlib.Data.List.Perm.Basic

/-! The tree of match rules. A node points to its next sibling and to its first child; compare nodes
keep their value nodes in a hash table or, for the types that cannot be hashed, in the child list.
-/

namespace Basu
open Lib
open scoped List

/-- Whether the first string is the second or a label-wise prefix of it; `separator` is whether
the last common character was `c`. -/
def simplePatternCheck (c : UInt8) : Bool → Str → Str → Bool
  | _, [], [] => true
  | separator, [], b :: _ => b = c || separator
  | _, _ :: _, [] => false
  | _, a :: as, b :: bs => if a ≠ b then false else simplePatternCheck c (a = c) as bs

/-- The symmetric test: one of the strings ends in `c` and is a prefix of the other. -/
def complexPatternCheck (c : UInt8) : Bool → Str → Str → Bool
  | _, [], [] => true
  | separator, [], _ :: _ => separator
  | separator, _ :: _, [] => separator
  | _, a :: as, b :: bs => if a ≠ b then false else complexPatternCheck c (a = c) as bs

def namespaceSimplePattern (pattern value : Str) : Bool :=
  simplePatternCheck charDot false pattern value

def pathSimplePattern (pattern value : Str) : Bool :=
  simplePatternCheck charSlash false pattern value

def pathComplexPattern (pattern value : Str) : Bool :=
  complexPatternCheck charSlash false pattern value

inductive NodeType
  | sender | messageType | destination | interface | member | path | pathNamespace
  | arg (i : Fin 64) | argPath (i : Fin 64) | argNamespace (i : Fin 64) | argHas (i : Fin 64)
  deriving DecidableEq, Repr

def busMatchCanHash : NodeType → Bool
  | .messageType | .destination | .interface | .member | .path | .arg _ | .argHas _ => true
  | .sender | .pathNamespace | .argPath _ | .argNamespace _ => false

/-- What a value node holds; `u8` is used below a message-type node, `str` below all others. -/
structure NodeValue where
  u8 : UInt8
  str : Str
  deriving DecidableEq, Repr

structure Component where
  type : NodeType
  valueU8 : UInt8
  valueStr : Str
  deriving DecidableEq, Repr

structure MatchCallback where
  slot : Nat
  callback : Bool
  deriving DecidableEq, Repr

mutual

inductive Nodes
  | nil
  | leaf (callback : MatchCallback) (next : Nodes)
  | compare (type : NodeType) (children : Values) (next : Nodes)

inductive Values
  | nil
  | value (value : NodeValue) (child : Nodes) (next : Values)

end

/-- What the tests read of a message; `wellKnownNames` is there if the credentials have it. -/
structure MatchMessage where
  type : UInt8
  sender : Option Str
  destination : Option Str
  interface : Option Str
  member : Option Str
  path : Option Str
  wellKnownNames : Option (List Str)
  arg : Nat → Option Str
  argStrv : Nat → Option (List Str)

namespace MatchMessage

def testStr (m : MatchMessage) : NodeType → Option Str
  | .messageType => none
  | .sender => m.sender
  | .destination => m.destination
  | .interface => m.interface
  | .member => m.member
  | .path | .pathNamespace => m.path
  | .arg i | .argPath i | .argNamespace i => m.arg i
  | .argHas _ => none

def testStrv (m : MatchMessage) : NodeType → Option (List Str)
  | .argHas i => m.argStrv i
  | _ => none

def testU8 (m : MatchMessage) : NodeType → UInt8
  | .messageType => m.type
  | _ => 0

end MatchMessage

/-! ## Testing a value node -/

def senderTest (node : Str) (valueStr : Option Str) (wellKnownNames : Option (List Str)) : Bool :=
  if some node = valueStr then true
  else match wellKnownNames with
    | some names => names.any (node = ·)
    | none => charAt node 0 ≠ charColon &&
        (match valueStr with
          | some s => charAt s 0 = charColon
          | none => false)

def valueNodeTest (node : NodeValue) (parentType : NodeType) (valueU8 : UInt8)
    (valueStr : Option Str) (valueStrv : Option (List Str)) (m : MatchMessage) : Bool :=
  match parentType with
  | .messageType => node.u8 = valueU8
  | .sender => senderTest node.str valueStr m.wellKnownNames
  | .destination | .interface | .member | .path | .arg _ =>
    match valueStr with
    | some s => node.str = s
    | none => false
  | .argHas _ => (valueStrv.getD []).any (node.str = ·)
  | .argNamespace _ =>
    match valueStr with
    | some s => namespaceSimplePattern node.str s
    | none => false
  | .pathNamespace =>
    match valueStr with
    | some s => pathSimplePattern node.str s
    | none => false
  | .argPath _ =>
    match valueStr with
    | some s => pathComplexPattern node.str s
    | none => false

def valueNodeSame (node : NodeValue) (parentType : NodeType) (valueU8 : UInt8) (valueStr : Str) :
    Bool :=
  match parentType with
  | .messageType => node.u8 = valueU8
  | _ => node.str = valueStr

def NodeValue.test (v : NodeValue) (t : NodeType) (m : MatchMessage) : Bool :=
  valueNodeTest v t (m.testU8 t) (m.testStr t) (m.testStrv t) m

def Component.value (c : Component) : NodeValue := ⟨c.valueU8, c.valueStr⟩

def Component.test (c : Component) (m : MatchMessage) : Bool := c.value.test c.type m

def Component.same (c : Component) (v : NodeValue) : Bool :=
  valueNodeSame v c.type c.valueU8 c.valueStr

theorem Component.test_eq_of_same {c : Component} {v : NodeValue} (h : c.same v = true)
    (m : MatchMessage) : v.test c.type m = c.test m := by
  obtain ⟨t, u8, str⟩ := c
  obtain ⟨u8', str'⟩ := v
  cases t <;>
    simp only [same, valueNodeSame, decide_eq_true_eq] at h <;>
    subst h <;> rfl

def Nodes.hasCompare (t : NodeType) : Nodes → Bool
  | .nil => false
  | .leaf _ next => next.hasCompare t
  | .compare t' _ next => if t' = t then true else next.hasCompare t

def Nodes.modifyCompare (t : NodeType) (f : Values → Values) : Nodes → Nodes
  | .nil => .nil
  | .leaf cb next => .leaf cb (next.modifyCompare t f)
  | .compare t' children next =>
    if t' = t then .compare t' (f children) next
    else .compare t' children (next.modifyCompare t f)

def Values.hasSame (c : Component) : Values → Bool
  | .nil => false
  | .value v _ next => if c.same v then true else next.hasSame c

def Values.modifySame (c : Component) (f : Nodes → Nodes) : Values → Values
  | .nil => .nil
  | .value v child next =>
    if c.same v then .value v (f child) next else .value v child (next.modifySame c f)

/-- The second half of `bus_match_add_compare_value`: find the value node or create it. -/
def Values.addValue (c : Component) (f : Nodes → Nodes) (children : Values) : Values :=
  if children.hasSame c then children.modifySame c f
  else .value c.value (f .nil) children

def busMatchAddCompareValue (c : Component) (f : Nodes → Nodes) (siblings : Nodes) : Nodes :=
  if siblings.hasCompare c.type then siblings.modifyCompare c.type (Values.addValue c f)
  else .compare c.type (Values.addValue c f .nil) siblings

def busMatchAddLeaf (cb : MatchCallback) (siblings : Nodes) : Nodes := .leaf cb siblings

def busMatchAdd (cb : MatchCallback) : List Component → Nodes → Nodes
  | [], siblings => busMatchAddLeaf cb siblings
  | c :: cs, siblings => busMatchAddCompareValue c (busMatchAdd cb cs) siblings

def Nodes.compareUnlessEmpty (t : NodeType) (children : Values) (next : Nodes) : Nodes :=
  match children with
  | .nil => next
  | children => .compare t children next

def Values.valueUnlessEmpty (v : NodeValue) (child : Nodes) (next : Values) : Values :=
  match child with
  | .nil => next
  | child => .value v child next

mutual

def Nodes.remove (slot : Nat) : Nodes → Nodes
  | .nil => .nil
  | .leaf cb next => if cb.slot = slot then next.remove slot else .leaf cb (next.remove slot)
  | .compare t children next =>
    Nodes.compareUnlessEmpty t (children.remove slot) (next.remove slot)

def Values.remove (slot : Nat) : Values → Values
  | .nil => .nil
  | .value v child next => Values.valueUnlessEmpty v (child.remove slot) (next.remove slot)

end

def busMatchRemove (root : Nodes) (slot : Nat) : Nodes := root.remove slot

mutual

/-- The leaves a walk comes to that follows the value nodes with `P` and stops in a list of
siblings at the first leaf whose slot is cut off. -/
def Nodes.walk (P : NodeType → NodeValue → Bool) (cut : Nat → Bool) : Nodes → List MatchCallback
  | .nil => []
  | .leaf cb next => if cut cb.slot then [] else cb :: next.walk P cut
  | .compare t children next => children.walk P cut t ++ next.walk P cut

def Values.walk (P : NodeType → NodeValue → Bool) (cut : Nat → Bool) (t : NodeType) :
    Values → List MatchCallback
  | .nil => []
  | .value v child next => (if P t v then child.walk P cut else []) ++ next.walk P cut t

end

def uncut : Nat → Bool := fun _ => false

def Nodes.leaves (ns : Nodes) : List MatchCallback := ns.walk (fun _ _ => true) uncut

def Values.leaves (t : NodeType) (vs : Values) : List MatchCallback :=
  vs.walk (fun _ _ => true) uncut t

def MatchMessage.passes (m : MatchMessage) : NodeType → NodeValue → Bool := fun t v => v.test t m

def Nodes.matching (m : MatchMessage) (ns : Nodes) : List MatchCallback :=
  ns.walk m.passes uncut

mutual

def Nodes.Distinct : Nodes → Prop
  | .nil => True
  | .leaf _ next => next.Distinct
  | .compare t children next => children.Distinct t ∧ next.Distinct

def Values.Distinct (t : NodeType) : Values → Prop
  | .nil => True
  | .value v child next =>
    next.hasSame ⟨t, v.u8, v.str⟩ = false ∧ child.Distinct ∧ next.Distinct t

end

section Walk

variable {P Q : NodeType → NodeValue → Bool} {cut cut' : Nat → Bool}

theorem Nodes.walk_leaf_uncut (cb : MatchCallback) (next : Nodes) :
    (Nodes.leaf cb next).walk P uncut = cb :: next.walk P uncut := by
  simp [Nodes.walk, uncut]

theorem Nodes.leaves_leaf (cb : MatchCallback) (next : Nodes) :
    (Nodes.leaf cb next).leaves = cb :: next.leaves := by
  simp [Nodes.leaves, Nodes.walk, uncut]

theorem Nodes.leaves_compare (t : NodeType) (children : Values) (next : Nodes) :
    (Nodes.compare t children next).leaves = children.leaves t ++ next.leaves := by
  simp [Nodes.leaves, Values.leaves, Nodes.walk]

theorem Values.leaves_value (t : NodeType) (v : NodeValue) (child : Nodes) (next : Values) :
    (Values.value v child next).leaves t = child.leaves ++ next.leaves t := by
  simp [Nodes.leaves, Values.leaves, Values.walk]

mutual

theorem Nodes.walk_sublist (hP : ∀ t v, P t v = true → Q t v = true) : (ns : Nodes) →
    (∀ cb ∈ ns.leaves, cut' cb.slot = true → cut cb.slot = true) →
      (ns.walk P cut).Sublist (ns.walk Q cut')
  | .nil, _ => List.Sublist.refl _
  | .leaf cb next, hcut => by
    simp only [Nodes.leaves_leaf, List.mem_cons, forall_eq_or_imp] at hcut
    simp only [Nodes.walk]
    by_cases h : cut cb.slot = true
    · rw [if_pos h]
      exact List.nil_sublist _
    · rw [if_neg h, if_neg fun h' => h (hcut.1 h')]
      exact (next.walk_sublist hP hcut.2).cons_cons cb
  | .compare t children next, hcut => by
    simp only [Nodes.leaves_compare, List.mem_append] at hcut
    simp only [Nodes.walk]
    exact (children.walk_sublist hP t fun cb h => hcut cb (Or.inl h)).append
      (next.walk_sublist hP fun cb h => hcut cb (Or.inr h))

theorem Values.walk_sublist (hP : ∀ t v, P t v = true → Q t v = true) (t : NodeType) :
    (vs : Values) → (∀ cb ∈ vs.leaves t, cut' cb.slot = true → cut cb.slot = true) →
      (vs.walk P cut t).Sublist (vs.walk Q cut' t)
  | .nil, _ => List.Sublist.refl _
  | .value v child next, hcut => by
    simp only [Values.leaves_value, List.mem_append] at hcut
    simp only [Values.walk]
    refine List.Sublist.append ?_ (next.walk_sublist hP t fun cb h => hcut cb (Or.inr h))
    by_cases h : P t v = true
    · rw [if_pos h, if_pos (hP t v h)]
      exact child.walk_sublist hP fun cb h => hcut cb (Or.inl h)
    · rw [if_neg h]
      exact List.nil_sublist _

end

theorem Nodes.walk_leaves (ns : Nodes) : (ns.walk P cut).Sublist ns.leaves :=
  ns.walk_sublist (fun _ _ _ => rfl) fun _ _ h => absurd h (by simp [uncut])

theorem Nodes.mem_leaves_of_matching {m : MatchMessage} {ns : Nodes} {cb : MatchCallback}
    (h : cb ∈ ns.matching m) : cb ∈ ns.leaves :=
  ns.walk_leaves.subset h

theorem Values.walk_leaves (vs : Values) (t : NodeType) :
    (vs.walk P cut t).Sublist (vs.leaves t) :=
  vs.walk_sublist (fun _ _ _ => rfl) t fun _ _ h => absurd h (by simp [uncut])

mutual

theorem Nodes.walk_congr : (ns : Nodes) → (∀ cb ∈ ns.leaves, cut cb.slot = cut' cb.slot) →
    ns.walk P cut = ns.walk P cut'
  | .nil, _ => rfl
  | .leaf cb next, h => by
    simp only [Nodes.leaves_leaf, List.mem_cons, forall_eq_or_imp] at h
    simp only [Nodes.walk]
    rw [h.1, next.walk_congr h.2]
  | .compare t children next, h => by
    simp only [Nodes.leaves_compare, List.mem_append] at h
    simp only [Nodes.walk]
    rw [children.walk_congr t fun cb hcb => h cb (Or.inl hcb),
      next.walk_congr fun cb hcb => h cb (Or.inr hcb)]

theorem Values.walk_congr (t : NodeType) : (vs : Values) →
    (∀ cb ∈ vs.leaves t, cut cb.slot = cut' cb.slot) → vs.walk P cut t = vs.walk P cut' t
  | .nil, _ => rfl
  | .value v child next, h => by
    simp only [Values.leaves_value, List.mem_append] at h
    simp only [Values.walk]
    rw [child.walk_congr fun cb hcb => h cb (Or.inl hcb),
      next.walk_congr t fun cb hcb => h cb (Or.inr hcb)]

end

/-! ## The leaves after adding a rule -/

def Respects (P : NodeType → NodeValue → Bool) : Prop :=
  ∀ (c : Component) (v : NodeValue), c.same v = true → P c.type v = P c.type c.value

theorem respects_true : Respects fun _ _ => true := fun _ _ _ => rfl

theorem MatchMessage.respects_passes (m : MatchMessage) : Respects m.passes :=
  fun _ _ h => Component.test_eq_of_same h m

variable {f : Nodes → Nodes} {new : List MatchCallback} {c : Component}

theorem Values.walk_modifySame (hP : Respects P)
    (hf : ∀ ns : Nodes, (f ns).walk P uncut ~ new ++ ns.walk P uncut) :
    (vs : Values) → vs.hasSame c = true →
      (vs.modifySame c f).walk P uncut c.type ~
        (if P c.type c.value then new else []) ++ vs.walk P uncut c.type
  | .nil, h => absurd h (by simp [Values.hasSame])
  | .value v child next, h => by
    simp only [Values.hasSame] at h
    simp only [Values.modifySame]
    by_cases hs : c.same v = true
    · rw [if_pos hs]
      simp only [Values.walk, hP c v hs]
      by_cases hp : P c.type c.value = true
      · simp only [hp, if_true]
        rw [← List.append_assoc]
        exact (hf child).append_right _
      · simp only [hp, Bool.false_eq_true, if_false]
        exact List.Perm.refl _
    · rw [if_neg hs] at h
      rw [if_neg hs]
      simp only [Values.walk]
      exact ((walk_modifySame hP hf next h).append_left _).trans
        (List.perm_append_comm_assoc _ _ _)

theorem Values.walk_addValue (hP : Respects P)
    (hf : ∀ ns : Nodes, (f ns).walk P uncut ~ new ++ ns.walk P uncut) (vs : Values) :
    (vs.addValue c f).walk P uncut c.type ~
      (if P c.type c.value then new else []) ++ vs.walk P uncut c.type := by
  unfold Values.addValue
  by_cases h : vs.hasSame c = true
  · rw [if_pos h]
    exact Values.walk_modifySame hP hf vs h
  · rw [if_neg h]
    simp only [Values.walk]
    refine List.Perm.append_right _ ?_
    by_cases hp : P c.type c.value = true
    · simp only [hp, if_true]
      simpa only [Nodes.walk, List.append_nil] using hf .nil
    · simp only [hp, Bool.false_eq_true, if_false]
      exact List.Perm.refl _

theorem Nodes.walk_modifyCompare {g : Values → Values} {t : NodeType}
    (hg : ∀ vs : Values, (g vs).walk P uncut t ~ new ++ vs.walk P uncut t) :
    (ns : Nodes) → ns.hasCompare t = true →
      (ns.modifyCompare t g).walk P uncut ~ new ++ ns.walk P uncut
  | .nil, h => absurd h (by simp [Nodes.hasCompare])
  | .leaf cb next, h => by
    simp only [Nodes.hasCompare] at h
    simp only [Nodes.modifyCompare, Nodes.walk_leaf_uncut]
    exact ((walk_modifyCompare hg next h).cons cb).trans List.perm_middle.symm
  | .compare t' children next, h => by
    simp only [Nodes.hasCompare] at h
    simp only [Nodes.modifyCompare]
    by_cases ht : t' = t
    · subst ht
      rw [if_pos rfl]
      simp only [Nodes.walk]
      rw [← List.append_assoc]
      exact (hg children).append_right _
    · rw [if_neg ht] at h
      rw [if_neg ht]
      simp only [Nodes.walk]
      exact ((walk_modifyCompare hg next h).append_left _).trans
        (List.perm_append_comm_assoc _ _ _)

theorem walk_busMatchAddCompareValue (hP : Respects P)
    (hf : ∀ ns : Nodes, (f ns).walk P uncut ~ new ++ ns.walk P uncut) (ns : Nodes) :
    (busMatchAddCompareValue c f ns).walk P uncut ~
      (if P c.type c.value then new else []) ++ ns.walk P uncut := by
  unfold busMatchAddCompareValue
  by_cases h : ns.hasCompare c.type = true
  · rw [if_pos h]
    exact ns.walk_modifyCompare (fun vs => vs.walk_addValue hP hf) h
  · rw [if_neg h]
    simp only [Nodes.walk]
    refine List.Perm.append_right _ ?_
    simpa only [Values.walk, List.append_nil] using
      Values.walk_addValue (c := c) hP hf .nil

theorem walk_busMatchAdd (hP : Respects P) (cb : MatchCallback) (cs : List Component)
    (ns : Nodes) :
    (busMatchAdd cb cs ns).walk P uncut ~
      (if cs.all fun c => P c.type c.value then [cb] else []) ++ ns.walk P uncut := by
  induction cs generalizing ns with
  | nil => simp [busMatchAdd, busMatchAddLeaf, Nodes.walk, uncut]
  | cons c cs ih =>
    refine (walk_busMatchAddCompareValue hP ih ns).trans ?_
    refine List.Perm.append_right _ ?_
    by_cases h : P c.type c.value = true <;> simp [h]

theorem leaves_busMatchAdd (cb : MatchCallback) (cs : List Component) (ns : Nodes) :
    (busMatchAdd cb cs ns).leaves ~ cb :: ns.leaves := by
  have h := walk_busMatchAdd respects_true cb cs ns
  simp only [List.all_eq_true, implies_true, if_true, List.singleton_append] at h
  exact h

theorem matching_busMatchAdd (m : MatchMessage) (cb : MatchCallback) (cs : List Component)
    (ns : Nodes) :
    (busMatchAdd cb cs ns).matching m ~
      (if cs.all (·.test m) then [cb] else []) ++ ns.matching m :=
  walk_busMatchAdd m.respects_passes cb cs ns

/-! ## The leaves after removing a rule -/

theorem Nodes.walk_compareUnlessEmpty (t : NodeType) (children : Values) (next : Nodes) :
    (Nodes.compareUnlessEmpty t children next).walk P cut =
      children.walk P cut t ++ next.walk P cut := by
  cases children <;> rfl

theorem Values.walk_valueUnlessEmpty (t : NodeType) (v : NodeValue) (child : Nodes)
    (next : Values) :
    (Values.valueUnlessEmpty v child next).walk P cut t =
      (if P t v then child.walk P cut else []) ++ next.walk P cut t := by
  cases child with
  | nil => simp [Values.valueUnlessEmpty, Nodes.walk]
  | leaf cb n => rfl
  | compare t' vs n => rfl

mutual

theorem Nodes.walk_remove (slot : Nat) : (ns : Nodes) →
    (ns.remove slot).walk P uncut = (ns.walk P uncut).filter (·.slot ≠ slot)
  | .nil => rfl
  | .leaf cb next => by
    simp only [Nodes.remove, Nodes.walk_leaf_uncut]
    by_cases h : cb.slot = slot
    · rw [if_pos h, List.filter_cons_of_neg (by simpa using h)]
      exact next.walk_remove slot
    · rw [if_neg h, List.filter_cons_of_pos (by simpa using h), Nodes.walk_leaf_uncut,
        next.walk_remove slot]
  | .compare t children next => by
    simp only [Nodes.remove, Nodes.walk, Nodes.walk_compareUnlessEmpty, List.filter_append,
      children.walk_remove slot t, next.walk_remove slot]

theorem Values.walk_remove (slot : Nat) (t : NodeType) : (vs : Values) →
    (vs.remove slot).walk P uncut t = (vs.walk P uncut t).filter (·.slot ≠ slot)
  | .nil => rfl
  | .value v child next => by
    simp only [Values.remove, Values.walk, Values.walk_valueUnlessEmpty, List.filter_append,
      next.walk_remove slot t]
    congr 1
    split
    · exact child.walk_remove slot
    · rfl

end

theorem leaves_remove (ns : Nodes) (slot : Nat) :
    (ns.remove slot).leaves = ns.leaves.filter (·.slot ≠ slot) :=
  ns.walk_remove slot

theorem matching_remove (m : MatchMessage) (ns : Nodes) (slot : Nat) :
    (ns.remove slot).matching m = (ns.matching m).filter (·.slot ≠ slot) :=
  ns.walk_remove slot

end Walk

/-! ## Value nodes stay distinct -/

theorem Values.hasSame_modifySame (c c' : Component) (f : Nodes → Nodes) :
    (vs : Values) → (vs.modifySame c f).hasSame c' = vs.hasSame c'
  | .nil => rfl
  | .value v child next => by
    simp only [Values.modifySame]
    by_cases h : c.same v = true
    · rw [if_pos h]
      rfl
    · rw [if_neg h]
      simp only [Values.hasSame, next.hasSame_modifySame c c' f]

theorem Values.distinct_modifySame {c : Component} {t : NodeType} {f : Nodes → Nodes}
    (hf : ∀ ns : Nodes, ns.Distinct → (f ns).Distinct) :
    (vs : Values) → vs.Distinct t → (vs.modifySame c f).Distinct t
  | .nil, _ => trivial
  | .value v child next, h => by
    obtain ⟨hv, hchild, hnext⟩ := h
    simp only [Values.modifySame]
    by_cases hs : c.same v = true
    · rw [if_pos hs]
      exact ⟨hv, hf child hchild, hnext⟩
    · rw [if_neg hs]
      refine ⟨?_, hchild, next.distinct_modifySame hf hnext⟩
      rw [Values.hasSame_modifySame]
      exact hv

theorem Values.distinct_addValue {c : Component} {f : Nodes → Nodes}
    (hf : ∀ ns : Nodes, ns.Distinct → (f ns).Distinct) {vs : Values} (h : vs.Distinct c.type) :
    (vs.addValue c f).Distinct c.type := by
  unfold Values.addValue
  by_cases hs : vs.hasSame c = true
  · rw [if_pos hs]
    exact vs.distinct_modifySame hf h
  · rw [if_neg hs]
    exact ⟨Bool.eq_false_iff.mpr hs, hf .nil trivial, h⟩

theorem Nodes.distinct_modifyCompare {t : NodeType} {g : Values → Values}
    (hg : ∀ vs : Values, vs.Distinct t → (g vs).Distinct t) :
    (ns : Nodes) → ns.Distinct → (ns.modifyCompare t g).Distinct
  | .nil, _ => trivial
  | .leaf cb next, h => next.distinct_modifyCompare hg h
  | .compare t' children next, h => by
    simp only [Nodes.modifyCompare]
    by_cases ht : t' = t
    · subst ht
      rw [if_pos rfl]
      exact ⟨hg children h.1, h.2⟩
    · rw [if_neg ht]
      exact ⟨h.1, next.distinct_modifyCompare hg h.2⟩

theorem distinct_busMatchAdd (cb : MatchCallback) (cs : List Component) {ns : Nodes}
    (h : ns.Distinct) : (busMatchAdd cb cs ns).Distinct := by
  induction cs generalizing ns with
  | nil => exact h
  | cons c cs ih =>
    have hadd : ∀ vs : Values, vs.Distinct c.type →
        (vs.addValue c (busMatchAdd cb cs)).Distinct c.type :=
      fun vs hvs => Values.distinct_addValue (fun _ hns => ih hns) hvs
    unfold busMatchAdd busMatchAddCompareValue
    by_cases hc : ns.hasCompare c.type = true
    · rw [if_pos hc]
      exact ns.distinct_modifyCompare hadd h
    · rw [if_neg hc]
      exact ⟨hadd .nil trivial, h⟩

theorem Values.hasSame_valueUnlessEmpty {c : Component} {v : NodeValue} {child : Nodes}
    {next : Values} (h : (Values.valueUnlessEmpty v child next).hasSame c = true) :
    c.same v = true ∨ next.hasSame c = true := by
  cases child with
  | nil => exact Or.inr h
  | leaf cb n =>
    by_cases hs : c.same v = true
    · exact Or.inl hs
    · simp only [Values.valueUnlessEmpty, Values.hasSame, if_neg hs] at h
      exact Or.inr h
  | compare t vs n =>
    by_cases hs : c.same v = true
    · exact Or.inl hs
    · simp only [Values.valueUnlessEmpty, Values.hasSame, if_neg hs] at h
      exact Or.inr h

theorem Values.hasSame_remove {slot : Nat} {c : Component} : (vs : Values) →
    (vs.remove slot).hasSame c = true → vs.hasSame c = true
  | .nil, h => h
  | .value v child next, h => by
    simp only [Values.hasSame]
    by_cases hs : c.same v = true
    · rw [if_pos hs]
    · rw [if_neg hs]
      exact next.hasSame_remove ((Values.hasSame_valueUnlessEmpty h).resolve_left hs)

mutual

theorem Nodes.distinct_remove (slot : Nat) : (ns : Nodes) → ns.Distinct →
    (ns.remove slot).Distinct
  | .nil, _ => trivial
  | .leaf cb next, h => by
    simp only [Nodes.remove]
    split
    · exact next.distinct_remove slot h
    · exact next.distinct_remove slot h
  | .compare t children next, h => by
    have hc := children.distinct_remove slot t h.1
    have hn := next.distinct_remove slot h.2
    simp only [Nodes.remove]
    cases hr : children.remove slot with
    | nil => exact hn
    | value v child vs =>
      rw [hr] at hc
      exact ⟨hc, hn⟩

theorem Values.distinct_remove (slot : Nat) (t : NodeType) : (vs : Values) → vs.Distinct t →
    (vs.remove slot).Distinct t
  | .nil, _ => trivial
  | .value v child next, h => by
    obtain ⟨hv, hchild, hnext⟩ := h
    have hc := child.distinct_remove slot hchild
    have hn := next.distinct_remove slot t hnext
    have hv' : (next.remove slot).hasSame ⟨t, v.u8, v.str⟩ = false := by
      rw [Bool.eq_false_iff] at hv ⊢
      exact fun h' => hv (next.hasSame_remove h')
    simp only [Values.remove]
    cases hr : child.remove slot with
    | nil => exact hn
    | leaf cb n =>
      rw [hr] at hc
      exact ⟨hv', hc, hn⟩
    | compare t' vs n =>
      rw [hr] at hc
      exact ⟨hv', hc, hn⟩

end

end Basu
