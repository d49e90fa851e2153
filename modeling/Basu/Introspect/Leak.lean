import Basu.Introspect.Parse
import Basu.Lib.Taint

/-! The fields of the context that nested nodes write as well, and when two parses that differ in their
nested nodes make the same callbacks. -/

namespace Basu.Introspect
open Lib

inductive AnnotationGroup
  | deprecated | noReply | emits
  deriving DecidableEq

def AnnotationGroup.bits : AnnotationGroup → BitVec 64
  | .deprecated => vtableDeprecated
  | .noReply => vtableMethodNoReply
  | .emits => vtablePropertyConst ||| vtablePropertyEmitsChange ||| vtablePropertyEmitsInvalidation

def annotationOf (field value : Option Str) : Option AnnotationGroup :=
  if field = some (str "org.freedesktop.DBus.Deprecated") then
    if value = some (str "true") then some .deprecated else none
  else if field = some (str "org.freedesktop.DBus.Method.NoReply") then
    if value = some (str "true") then some .noReply else none
  else if field = some (str "org.freedesktop.DBus.Property.EmitsChangedSignal") then
    if value = some (str "const") ∨ value = some (str "invalidates") ∨ value = some (str "false") then
      some .emits
    else none
  else none

inductive Field
  | flags (x : Flags) (a : AnnotationGroup)
  | signature
  | writable
  deriving DecidableEq

def Field.ofMember : Field → Bool
  | .flags .interface _ => false
  | _ => true

def Update.settles : Update → Field → Bool
  | .annotate x field value, .flags y a => x == y && annotationOf field value == some a
  | .setSignature _, .signature => true
  | .writable, .writable => true
  | .closeInterface, _ => true
  | .closeMethod, f | .closeSignal, f | .closeProperty, f => f.ofMember
  | _, _ => false

def Update.shows : Update → Field → Bool
  | .closeInterface, f => !f.ofMember
  | .closeMethod, f | .closeSignal, f => f.ofMember && f != .writable
  | .closeProperty, f => f.ofMember
  | _, _ => false

def leakPolicy : Policy Update Field where
  settles := Update.settles
  shows := Update.shows

def Context.flags (c : Context) : Flags → BitVec 64
  | .interface => c.interfaceFlags
  | .member => c.memberFlags

def Context.seen (c : Context) (u : Update) : Option Call :=
  match u with
  | .leaveNode _ => none
  | u => c.call u

theorem annotated_of_some {field value : Option Str} {a : AnnotationGroup}
    (h : annotationOf field value = some a) :
    ∃ k, (∀ flags, annotated flags field value = flags &&& ~~~a.bits ||| k) ∧ k &&& ~~~a.bits = 0 := by
  have hset : ∀ flags k : BitVec 64, flags ||| k = flags &&& ~~~k ||| k := by
    intro flags k
    ext i
    simp only [BitVec.getElem_or, BitVec.getElem_and, BitVec.getElem_not]
    cases flags[i] <;> cases k[i] <;> rfl
  have hone : ∀ flags k l m : BitVec 64,
      flags &&& ~~~(l ||| m) ||| k = flags &&& ~~~(k ||| l ||| m) ||| k := by
    intro flags k l m
    ext i
    simp only [BitVec.getElem_or, BitVec.getElem_and, BitVec.getElem_not]
    cases flags[i] <;> cases k[i] <;> cases l[i] <;> cases m[i] <;> rfl
  unfold annotationOf at h
  unfold annotated
  split at h
  · next hf =>
    split at h
    · next hv =>
      obtain rfl := Option.some.inj h
      exact ⟨vtableDeprecated, fun flags => by rw [if_pos hf, if_pos hv]; exact hset _ _, by decide⟩
    · exact absurd h nofun
  next hf₁ =>
  split at h
  · next hf =>
    split at h
    · next hv =>
      obtain rfl := Option.some.inj h
      refine ⟨vtableMethodNoReply, fun flags => ?_, by decide⟩
      rw [if_neg hf₁, if_pos hf, if_pos hv]
      exact hset _ _
    · exact absurd h nofun
  next hf₂ =>
  split at h
  · next hf =>
    split at h
    · next hv =>
      obtain rfl := Option.some.inj h
      simp only [if_neg hf₁, if_neg hf₂, if_pos hf]
      rcases hv with rfl | rfl | rfl
      · refine ⟨vtablePropertyConst, fun flags => ?_, by decide⟩
        rw [if_pos rfl, BitVec.or_comm vtablePropertyEmitsInvalidation, hone]
        rfl
      · refine ⟨vtablePropertyEmitsInvalidation, fun flags => ?_, by decide⟩
        rw [if_neg (by decide), if_pos rfl, hone]
        rfl
      · refine ⟨0#64, fun flags => ?_, by decide⟩
        rw [if_neg (by decide), if_neg (by decide), if_pos rfl, BitVec.or_zero]
        rfl
    · exact absurd h nofun
  · exact absurd h nofun

theorem annotated_of_none {field value : Option Str} (h : annotationOf field value = none)
    (flags : BitVec 64) : annotated flags field value = flags := by
  unfold annotationOf at h
  unfold annotated
  split_ifs at h ⊢ <;> simp_all

theorem annotated_getLsbD_of_mem {field value : Option Str} {a : AnnotationGroup}
    (h : annotationOf field value = some a) {i : Nat} (hi : a.bits.getLsbD i = true)
    (flags flags' : BitVec 64) :
    (annotated flags field value).getLsbD i = (annotated flags' field value).getLsbD i := by
  obtain ⟨k, hk, -⟩ := annotated_of_some h
  simp only [hk, BitVec.getLsbD_or, BitVec.getLsbD_and, BitVec.getLsbD_not, hi, Bool.not_true,
    Bool.and_false, Bool.false_or]

theorem annotated_getLsbD_of_not_mem {field value : Option Str} {a : AnnotationGroup}
    (h : annotationOf field value = some a) {i : Nat} (hi : a.bits.getLsbD i = false)
    (flags : BitVec 64) : (annotated flags field value).getLsbD i = flags.getLsbD i := by
  obtain ⟨k, hk, hzero⟩ := annotated_of_some h
  have hki := congrArg (BitVec.getLsbD · i) hzero
  by_cases hlt : i < 64
  · simp only [BitVec.getLsbD_and, BitVec.getLsbD_not, hi, hlt, decide_true, Bool.not_false,
      Bool.and_true] at hki
    simp only [hk, BitVec.getLsbD_or, BitVec.getLsbD_and, BitVec.getLsbD_not, hi, hlt, decide_true,
      Bool.not_false, Bool.and_true, hki]
    simp
  · rw [BitVec.getLsbD_of_ge _ _ (not_lt.mp hlt), BitVec.getLsbD_of_ge _ _ (not_lt.mp hlt)]

def Update.Nested : Update → Prop
  | .keep | .leaveNode _ | .emitsChange | .extendSignature _ | .writable | .annotate .. => True
  | _ => False

structure Agree (t : Field → Bool) (c c' : Context) : Prop where
  interfaceName : c.interfaceName = c'.interfaceName
  memberName : c.memberName = c'.memberName
  memberResult : c.memberResult = c'.memberResult
  flags : ∀ x i, (∀ a, t (.flags x a) = true → a.bits.getLsbD i = false) →
    (c.flags x).getLsbD i = (c'.flags x).getLsbD i
  signature : t .signature = false → c.memberSignature = c'.memberSignature
  writable : t .writable = false → c.memberWritable = c'.memberWritable

theorem Agree.refl (t : Field → Bool) (c : Context) : Agree t c c :=
  ⟨rfl, rfl, rfl, fun _ _ _ => rfl, fun _ => rfl, fun _ => rfl⟩

theorem Agree.flags_eq {t : Field → Bool} {c c' : Context} (h : Agree t c c') {x : Flags}
    (hx : ∀ a, t (.flags x a) = false) : c.flags x = c'.flags x :=
  BitVec.eq_of_getLsbD_eq fun i _ => h.flags x i fun a ha => by simp [hx a] at ha

theorem Agree.annotate {t : Field → Bool} {c c' : Context} (h : Agree t c c') {x : Flags}
    {field value : Option Str} {i : Nat}
    (hi : ∀ a, leakPolicy.after t (.own (.annotate x field value)) (.flags x a) = true →
      a.bits.getLsbD i = false) :
    (annotated (c.flags x) field value).getLsbD i =
      (annotated (c'.flags x) field value).getLsbD i := by
  cases ha : annotationOf field value with
  | none =>
    rw [annotated_of_none ha, annotated_of_none ha]
    refine h.flags x i fun a hta => hi a ?_
    simp [Policy.after, leakPolicy, Update.settles, ha, hta]
  | some b =>
    cases hb : b.bits.getLsbD i with
    | true => exact annotated_getLsbD_of_mem ha hb _ _
    | false =>
      rw [annotated_getLsbD_of_not_mem ha hb, annotated_getLsbD_of_not_mem ha hb]
      refine h.flags x i fun a hta => ?_
      by_cases hab : b = a
      · rw [← hab, hb]
      · refine hi a ?_
        simp [Policy.after, leakPolicy, Update.settles, ha, hta, hab]

theorem flags_annotate (c : Context) (x : Flags) (field value : Option Str) :
    (c.update (.annotate x field value)).flags x = annotated (c.flags x) field value := by
  cases x <;> rfl

theorem flags_annotate_of_ne (c : Context) {x y : Flags} (h : x ≠ y) (field value : Option Str) :
    (c.update (.annotate x field value)).flags y = c.flags y := by
  cases x <;> cases y <;> first | rfl | exact absurd rfl h

theorem Agree.own {t : Field → Bool} {c c' : Context} (u : Update) (h : Agree t c c') :
    Agree (leakPolicy.after t (.own u)) (c.update u) (c'.update u) := by
  have hkept : ∀ {f}, u.settles f = false → leakPolicy.after t (.own u) f = false →
      t f = false := by
    intro f hf ht
    have ht : (t f && !u.settles f) = false := ht
    simpa [hf] using ht
  have hflags : ∀ {x}, (∀ a, u.settles (.flags x a) = false) → ∀ i,
      (∀ a, leakPolicy.after t (.own u) (.flags x a) = true → a.bits.getLsbD i = false) →
      (c.flags x).getLsbD i = (c'.flags x).getLsbD i := by
    intro x hx i hi
    refine h.flags x i fun a ha => hi a ?_
    by_contra hnot
    exact absurd (hkept (hx a) (Bool.eq_false_of_not_eq_true hnot)) (by simp [ha])
  cases u with
  | keep | leaveNode =>
    exact ⟨h.interfaceName, h.memberName, h.memberResult, fun x => hflags fun _ => rfl,
      fun ht => h.signature (hkept rfl ht), fun ht => h.writable (hkept rfl ht)⟩
  | interfaceName name =>
    refine ⟨rfl, h.memberName, h.memberResult, fun x => ?_, fun ht => h.signature (hkept rfl ht),
      fun ht => h.writable (hkept rfl ht)⟩
    cases x <;> exact hflags fun _ => rfl
  | memberName name =>
    refine ⟨h.interfaceName, rfl, h.memberResult, fun x => ?_, fun ht => h.signature (hkept rfl ht),
      fun ht => h.writable (hkept rfl ht)⟩
    cases x <;> exact hflags fun _ => rfl
  | emitsChange =>
    refine ⟨h.interfaceName, h.memberName, h.memberResult, fun x => ?_,
      fun ht => h.signature (hkept rfl ht), fun ht => h.writable (hkept rfl ht)⟩
    cases x with
    | interface => exact hflags fun _ => rfl
    | member =>
      intro i hi
      have hbit := hflags (x := .member) (fun _ => rfl) i hi
      change (c.memberFlags ||| _).getLsbD i = (c'.memberFlags ||| _).getLsbD i
      rw [BitVec.getLsbD_or, BitVec.getLsbD_or]
      exact congrArg (· || _) hbit
  | extendSignature type =>
    refine ⟨h.interfaceName, h.memberName, h.memberResult, fun x => ?_,
      fun ht => congrArg (strextend · type) (h.signature (hkept rfl ht)),
      fun ht => h.writable (hkept rfl ht)⟩
    cases x <;> exact hflags fun _ => rfl
  | extendResult type =>
    refine ⟨h.interfaceName, h.memberName, congrArg (strextend · type) h.memberResult, fun x => ?_,
      fun ht => h.signature (hkept rfl ht), fun ht => h.writable (hkept rfl ht)⟩
    cases x <;> exact hflags fun _ => rfl
  | setSignature type =>
    refine ⟨h.interfaceName, h.memberName, h.memberResult, fun x => ?_, fun _ => rfl,
      fun ht => h.writable (hkept rfl ht)⟩
    cases x <;> exact hflags fun _ => rfl
  | writable =>
    refine ⟨h.interfaceName, h.memberName, h.memberResult, fun x => ?_,
      fun ht => h.signature (hkept rfl ht), fun _ => rfl⟩
    cases x <;> exact hflags fun _ => rfl
  | annotate y field value =>
    have hall : ∀ x i, (∀ a, leakPolicy.after t (.own (.annotate y field value)) (.flags x a) = true →
        a.bits.getLsbD i = false) →
        ((c.update (.annotate y field value)).flags x).getLsbD i =
          ((c'.update (.annotate y field value)).flags x).getLsbD i := by
      intro x i hi
      by_cases hyx : y = x
      · subst hyx
        rw [flags_annotate, flags_annotate]
        exact h.annotate hi
      · rw [flags_annotate_of_ne _ hyx, flags_annotate_of_ne _ hyx]
        exact hflags (fun _ => by simp [Update.settles, hyx]) i hi
    cases y with
    | interface | member =>
      exact ⟨h.interfaceName, h.memberName, h.memberResult, hall,
        fun ht => h.signature (hkept rfl ht), fun ht => h.writable (hkept rfl ht)⟩
  | closeInterface => exact Agree.refl _ _
  | closeMethod | closeSignal | closeProperty =>
    refine ⟨h.interfaceName, rfl, rfl, fun x => ?_, fun _ => rfl, fun _ => rfl⟩
    cases x with
    | interface => exact hflags fun _ => rfl
    | member => exact fun _ _ => rfl

theorem Agree.mono {t t' : Field → Bool} {c c' : Context} (h : Agree t c c')
    (ht : ∀ f, t f = true → t' f = true) : Agree t' c c' := by
  have hfalse : ∀ {f}, t' f = false → t f = false := by
    intro f hf
    by_contra hnot
    exact absurd (ht f (Bool.eq_true_of_not_eq_false hnot)) (by simp [hf])
  exact ⟨h.interfaceName, h.memberName, h.memberResult,
    fun x i hi => h.flags x i fun a ha => hi a (ht _ ha), fun hf => h.signature (hfalse hf),
    fun hf => h.writable (hfalse hf)⟩

theorem Agree.symm {t : Field → Bool} {c c' : Context} (h : Agree t c c') : Agree t c' c :=
  ⟨h.interfaceName.symm, h.memberName.symm, h.memberResult.symm,
    fun x i hi => (h.flags x i hi).symm, fun ht => (h.signature ht).symm,
    fun ht => (h.writable ht).symm⟩

theorem Agree.trans {t : Field → Bool} {c c' c'' : Context} (h : Agree t c c')
    (h' : Agree t c' c'') : Agree t c c'' :=
  ⟨h.interfaceName.trans h'.interfaceName, h.memberName.trans h'.memberName,
    h.memberResult.trans h'.memberResult, fun x i hi => (h.flags x i hi).trans (h'.flags x i hi),
    fun ht => (h.signature ht).trans (h'.signature ht),
    fun ht => (h.writable ht).trans (h'.writable ht)⟩

abbrev allFields : Field → Bool := fun _ => true

theorem Update.Nested.agree {u : Update} (h : u.Nested) (c : Context) :
    Agree allFields c (c.update u) := by
  have hflags : ∀ x i, (∀ a, allFields (.flags x a) = true → a.bits.getLsbD i = false) →
      (c.flags x).getLsbD i = ((c.update u).flags x).getLsbD i := by
    intro x i hi
    cases u with
    | emitsChange =>
      cases x with
      | interface => rfl
      | member =>
        have hbit := hi .emits rfl
        change c.memberFlags.getLsbD i = (c.memberFlags ||| vtablePropertyEmitsChange).getLsbD i
        simp only [AnnotationGroup.bits, BitVec.getLsbD_or, Bool.or_eq_false_iff] at hbit ⊢
        rw [hbit.1.2, Bool.or_false]
    | annotate y field value =>
      by_cases hyx : y = x
      · subst hyx
        rw [flags_annotate]
        cases ha : annotationOf field value with
        | none => rw [annotated_of_none ha]
        | some a => exact (annotated_getLsbD_of_not_mem ha (hi a rfl) _).symm
      · rw [flags_annotate_of_ne _ hyx]
    | keep | leaveNode | extendSignature | writable => cases x <;> rfl
    | _ => exact h.elim
  cases u with
  | keep | leaveNode | emitsChange | extendSignature | writable =>
    exact ⟨rfl, rfl, rfl, hflags, nofun, nofun⟩
  | annotate y field value => cases y <;> exact ⟨rfl, rfl, rfl, hflags, nofun, nofun⟩
  | _ => exact h.elim

theorem agree_nested {block : List Update} (h : ∀ u ∈ block, u.Nested) : ∀ c : Context,
    Agree allFields c (block.foldl Context.update c) := by
  induction block with
  | nil => exact fun c => Agree.refl _ c
  | cons u block ih =>
    obtain ⟨hu, hblock⟩ := List.forall_mem_cons.mp h
    exact fun c => (hu.agree c).trans (ih hblock _)

theorem Update.Nested.seen {u : Update} (h : u.Nested) (c : Context) : c.seen u = none := by
  cases u <;> first | rfl | exact h.elim

theorem seen_nested {block : List Update} (h : ∀ u ∈ block, u.Nested) : ∀ c : Context,
    observed Context.update Context.seen c block = [] := by
  induction block with
  | nil => exact fun _ => rfl
  | cons u block ih =>
    obtain ⟨hu, hblock⟩ := List.forall_mem_cons.mp h
    intro c
    rw [observed, hu.seen, ih hblock]
    rfl

def NestedBlock (block : List Update) : Prop := ∀ u ∈ block, u.Nested

theorem Agree.seen {t : Field → Bool} {c c' : Context} {u : Update} (h : Agree t c c')
    (hu : ∀ f, u.shows f = true → t f = false) : c.seen u = c'.seen u := by
  cases u with
  | closeInterface =>
    have hflags := h.flags_eq (x := .interface) fun a => hu _ rfl
    exact congrArg some (congrArg₂ Call.onInterface h.interfaceName hflags)
  | closeMethod =>
    have hflags : c.memberFlags = c'.memberFlags := h.flags_eq (x := .member) fun a => hu _ rfl
    simp only [Context.seen, Context.call, h.interfaceName, h.memberName, h.memberResult,
      h.signature (hu _ rfl), hflags]
  | closeSignal =>
    have hflags : c.memberFlags = c'.memberFlags := h.flags_eq (x := .member) fun a => hu _ rfl
    simp only [Context.seen, Context.call, h.interfaceName, h.memberName, h.signature (hu _ rfl),
      hflags]
  | closeProperty =>
    have hflags : c.memberFlags = c'.memberFlags := h.flags_eq (x := .member) fun a => hu _ rfl
    simp only [Context.seen, Context.call, h.interfaceName, h.memberName, h.signature (hu _ rfl),
      h.writable (hu _ rfl), hflags]
  | _ => rfl

theorem leak_hides : Hides Context.update Context.seen leakPolicy NestedBlock Agree where
  own u h := h.own u
  same _ h hu := h.seen hu
  foreign h hb hb' :=
    ((agree_nested hb _).symm.trans (h.mono fun _ _ => rfl)).trans (agree_nested hb' _)
  silent c hb := seen_nested hb c

def AnnotationGroup.bit : AnnotationGroup → Nat
  | .deprecated => 0
  | .noReply => 3
  | .emits => 4

theorem AnnotationGroup.bits_bit {a b : AnnotationGroup} (h : a ≠ b) :
    a.bits.getLsbD b.bit = false := by
  cases a <;> cases b <;> first | rfl | exact absurd rfl h

/-- The second context has more of the fields in `t` than the first, which is still empty as long as
no interface has been opened. -/
structure Apart (opened : Bool) (t : Field → Bool) (c c' : Context) : Prop extends Agree t c c' where
  bit : ∀ x a, t (.flags x a) = true →
    (c.flags x).getLsbD a.bit = false ∧ (c'.flags x).getLsbD a.bit = true
  longer : t .signature = true →
    (c.memberSignature.getD []).length < (c'.memberSignature.getD []).length
  wrote : t .writable = true → c.memberWritable = false ∧ c'.memberWritable = true
  fresh : opened = false → c = {}

def opens : Bool → Action Update → Option Bool
  | _, .own .closeInterface => some false
  | q, .own .keep | q, .own (.leaveNode _) => some q
  | _, .own _ => some true
  | false, .foreign => some false
  | true, .foreign => none

theorem after_own {t : Field → Bool} {u : Update} {f : Field}
    (h : leakPolicy.after t (.own u) f = true) : t f = true ∧ u.settles f = false := by
  have h : (t f && !u.settles f) = true := h
  simpa using h

theorem Apart.bit_own {q : Bool} {t : Field → Bool} {c c' : Context} (h : Apart q t c c') {u : Update}
    {x : Flags} {a : AnnotationGroup} (ht : leakPolicy.after t (.own u) (.flags x a) = true) :
    ((c.update u).flags x).getLsbD a.bit = false ∧
      ((c'.update u).flags x).getLsbD a.bit = true := by
  obtain ⟨htf, hset⟩ := after_own ht
  have hbit := h.bit x a htf
  cases u with
  | annotate y field value =>
    by_cases hyx : y = x
    · subst hyx
      rw [flags_annotate, flags_annotate]
      cases hb : annotationOf field value with
      | none => rwa [annotated_of_none hb, annotated_of_none hb]
      | some b =>
        have hba : b ≠ a := by
          rintro rfl
          simp [Update.settles, hb] at hset
        rwa [annotated_getLsbD_of_not_mem hb (AnnotationGroup.bits_bit hba),
          annotated_getLsbD_of_not_mem hb (AnnotationGroup.bits_bit hba)]
    · rwa [flags_annotate_of_ne _ hyx, flags_annotate_of_ne _ hyx]
  | emitsChange =>
    cases x with
    | interface => exact hbit
    | member =>
      have hchange : vtablePropertyEmitsChange.getLsbD a.bit = false := by cases a <;> rfl
      change (c.memberFlags ||| vtablePropertyEmitsChange).getLsbD a.bit = false ∧
        (c'.memberFlags ||| vtablePropertyEmitsChange).getLsbD a.bit = true
      rwa [BitVec.getLsbD_or, BitVec.getLsbD_or, hchange, Bool.or_false, Bool.or_false]
  | closeInterface => exact absurd hset nofun
  | closeMethod | closeSignal | closeProperty =>
    cases x with
    | interface => exact hbit
    | member => exact absurd hset nofun
  | _ => cases x <;> exact hbit

theorem strextend_longer {x y : Option Str} (h : (x.getD []).length < (y.getD []).length) (s : Str) :
    ((strextend x s).getD []).length < ((strextend y s).getD []).length := by
  simp only [strextend, Option.getD_some, List.length_append]
  omega

theorem Apart.own {q q' : Bool} {t : Field → Bool} {c c' : Context} {u : Update}
    (hq : opens q (.own u) = some q') (h : Apart q t c c') :
    Apart q' (leakPolicy.after t (.own u)) (c.update u) (c'.update u) where
  toAgree := h.toAgree.own u
  bit _ _ ht := h.bit_own ht
  longer ht := by
    obtain ⟨htf, hset⟩ := after_own ht
    have hlonger := h.longer htf
    cases u with
    | extendSignature type => exact strextend_longer hlonger type
    | setSignature | closeInterface | closeMethod | closeSignal | closeProperty =>
      exact absurd hset nofun
    | annotate x => cases x <;> exact hlonger
    | _ => exact hlonger
  wrote ht := by
    obtain ⟨htf, hset⟩ := after_own ht
    have hwrote := h.wrote htf
    cases u with
    | writable | closeInterface | closeMethod | closeSignal | closeProperty =>
      exact absurd hset nofun
    | annotate x => cases x <;> exact hwrote
    | _ => exact hwrote
  fresh hf := by
    subst hf
    cases u with
    | closeInterface => rfl
    | keep | leaveNode => exact h.fresh (Option.some.inj hq)
    | _ => exact absurd (Option.some.inj hq) nofun

theorem Apart.other {q : Bool} {t : Field → Bool} {c c' : Context} {u : Update} {f : Field}
    (h : Apart q t c c') (heq : c.seen u = c'.seen u) (hf : u.shows f = true) : t f = false := by
  by_contra hnot
  have ht := Bool.eq_true_of_not_eq_false hnot
  have hflags : ∀ {x a}, f = .flags x a → c.flags x ≠ c'.flags x := by
    rintro x a rfl heq
    obtain ⟨hzero, hone⟩ := h.bit x a ht
    rw [heq, hone] at hzero
    exact absurd hzero nofun
  have hsignature : f = .signature → c.memberSignature ≠ c'.memberSignature := by
    rintro rfl heq
    have hlonger := h.longer ht
    rw [heq] at hlonger
    exact absurd hlonger (lt_irrefl _)
  have hwritable : f = .writable → c.memberWritable ≠ c'.memberWritable := by
    rintro rfl heq
    obtain ⟨hzero, hone⟩ := h.wrote ht
    rw [heq, hone] at hzero
    exact absurd hzero nofun
  cases u with
  | closeInterface =>
    injection Option.some.inj heq with hname hfl
    rcases f with ⟨⟨⟩, a⟩ | _ | _ <;> first | exact hflags rfl hfl | exact absurd hf nofun
  | closeMethod =>
    injection Option.some.inj heq with hi hm hs hr hfl
    rcases f with ⟨⟨⟩, a⟩ | _ | _ <;>
      first | exact hflags rfl hfl | exact hsignature rfl hs | exact absurd hf nofun
  | closeSignal =>
    injection Option.some.inj heq with hi hm hs hfl
    rcases f with ⟨⟨⟩, a⟩ | _ | _ <;>
      first | exact hflags rfl hfl | exact hsignature rfl hs | exact absurd hf nofun
  | closeProperty =>
    injection Option.some.inj heq with hi hm hs hw hfl
    rcases f with ⟨⟨⟩, a⟩ | _ | _ <;>
      first
      | exact hflags rfl hfl
      | exact hsignature rfl hs
      | exact hwritable rfl hw
      | exact absurd hf nofun
  | _ => exact absurd hf nofun

def Update.quiet : Update → Bool
  | .keep | .leaveNode _ => true
  | _ => false

def QuietBlock (block : List Update) : Prop := ∀ u ∈ block, u.quiet = true

def loudUpdates : List Update :=
  [.annotate .interface (some (str "org.freedesktop.DBus.Deprecated")) (some (str "true")),
    .annotate .interface (some (str "org.freedesktop.DBus.Method.NoReply")) (some (str "true")),
    .annotate .interface (some (str "org.freedesktop.DBus.Property.EmitsChangedSignal"))
      (some (str "const")),
    .emitsChange, .writable,
    .annotate .member (some (str "org.freedesktop.DBus.Deprecated")) (some (str "true")),
    .annotate .member (some (str "org.freedesktop.DBus.Method.NoReply")) (some (str "true")),
    .annotate .member (some (str "org.freedesktop.DBus.Property.EmitsChangedSignal"))
      (some (str "const")),
    .extendSignature (str "s")]

def LoudBlock (block : List Update) : Prop := block.filter (fun u => !u.quiet) = loudUpdates

theorem Update.nested_of_quiet {u : Update} (h : u.quiet = true) : u.Nested := by
  cases u <;> first | trivial | exact absurd h nofun

theorem QuietBlock.nested {block : List Update} (h : QuietBlock block) : NestedBlock block :=
  fun u hu => Update.nested_of_quiet (h u hu)

theorem LoudBlock.nested {block : List Update} (h : LoudBlock block) : NestedBlock block := by
  intro u hu
  cases hquiet : u.quiet with
  | true => exact Update.nested_of_quiet hquiet
  | false =>
    have hmem : u ∈ loudUpdates := by
      rw [← h]
      exact List.mem_filter.mpr ⟨hu, by rw [hquiet]; rfl⟩
    simp only [loudUpdates, List.mem_cons, List.not_mem_nil, or_false] at hmem
    rcases hmem with rfl | rfl | rfl | rfl | rfl | rfl | rfl | rfl | rfl <;> trivial

theorem update_of_quiet {u : Update} (h : u.quiet = true) (c : Context) : c.update u = c := by
  cases u <;> first | rfl | exact absurd h nofun

theorem foldl_filter_quiet (block : List Update) : ∀ c : Context,
    block.foldl Context.update c =
      (block.filter fun u => !u.quiet).foldl Context.update c := by
  induction block with
  | nil => exact fun _ => rfl
  | cons u block ih =>
    intro c
    cases hquiet : u.quiet with
    | true =>
      rw [List.foldl_cons, update_of_quiet hquiet, ih,
        List.filter_cons_of_neg (by simp [hquiet])]
    | false =>
      rw [List.foldl_cons, ih, List.filter_cons_of_pos (by simp [hquiet]), List.foldl_cons]

theorem QuietBlock.foldl {block : List Update} (h : QuietBlock block) (c : Context) :
    block.foldl Context.update c = c := by
  have hnil : (block.filter fun u => !u.quiet) = [] :=
    List.filter_eq_nil_iff.mpr fun u hu => by simp [h u hu]
  rw [foldl_filter_quiet, hnil, List.foldl_nil]

def allAnnotated (flags : BitVec 64) : BitVec 64 :=
  annotated (annotated (annotated flags
      (some (str "org.freedesktop.DBus.Deprecated")) (some (str "true")))
      (some (str "org.freedesktop.DBus.Method.NoReply")) (some (str "true")))
    (some (str "org.freedesktop.DBus.Property.EmitsChangedSignal")) (some (str "const"))

theorem allAnnotated_bit (flags : BitVec 64) (a : AnnotationGroup) :
    (allAnnotated flags).getLsbD a.bit = true := by
  have hdeprecated : ∀ flags, annotated flags (some (str "org.freedesktop.DBus.Deprecated"))
      (some (str "true")) = flags ||| vtableDeprecated := by
    intro flags
    rw [annotated, if_pos rfl, if_pos rfl]
  have hreply : ∀ flags, annotated flags (some (str "org.freedesktop.DBus.Method.NoReply"))
      (some (str "true")) = flags ||| vtableMethodNoReply := by
    intro flags
    rw [annotated, if_neg (by decide), if_pos rfl, if_pos rfl]
  have hconst : ∀ flags, annotated flags
      (some (str "org.freedesktop.DBus.Property.EmitsChangedSignal")) (some (str "const")) =
        flags &&& ~~~(vtablePropertyEmitsInvalidation ||| vtablePropertyEmitsChange) |||
          vtablePropertyConst := by
    intro flags
    rw [annotated, if_neg (by decide), if_neg (by decide), if_pos rfl, if_pos rfl]
  rw [allAnnotated, hdeprecated, hreply, hconst]
  cases a <;> simp [AnnotationGroup.bit, vtableDeprecated, vtableMethodNoReply, vtablePropertyConst,
    vtablePropertyEmitsChange, vtablePropertyEmitsInvalidation]

theorem LoudBlock.apart {block : List Update} (h : LoudBlock block) {t : Field → Bool}
    {c' : Context} (ha : Agree t {} c') :
    Apart false allFields {} (block.foldl Context.update c') := by
  have hall : Agree allFields {} (block.foldl Context.update c') :=
    (ha.mono fun _ _ => rfl).trans (agree_nested h.nested c')
  have hloud : block.foldl Context.update c' = loudUpdates.foldl Context.update c' := by
    rw [foldl_filter_quiet, h]
  have hinterface : (block.foldl Context.update c').flags .interface =
      allAnnotated c'.interfaceFlags := by
    rw [hloud]
    rfl
  have hmember : (block.foldl Context.update c').flags .member =
      allAnnotated (c'.memberFlags ||| vtablePropertyEmitsChange) := by
    rw [hloud]
    rfl
  refine ⟨hall, fun x a _ => ?_, fun _ => ?_, fun _ => ?_, fun _ => rfl⟩
  · cases x with
    | interface =>
      rw [hinterface, allAnnotated_bit]
      exact ⟨BitVec.getLsbD_zero, rfl⟩
    | member =>
      rw [hmember, allAnnotated_bit]
      exact ⟨BitVec.getLsbD_zero, rfl⟩
  · have hsignature : (block.foldl Context.update c').memberSignature =
        strextend c'.memberSignature (str "s") := by
      rw [hloud]
      rfl
    rw [hsignature, strextend, Option.getD_some, List.length_append]
    exact Nat.lt_add_left _ (by decide)
  · have hwritable : (block.foldl Context.update c').memberWritable = true := by
      rw [hloud]
      rfl
    exact ⟨rfl, hwritable⟩

theorem leak_tells :
    Tells Context.update Context.seen leakPolicy opens QuietBlock LoudBlock Apart where
  own hq h := h.own hq
  other h heq hf := h.other heq hf
  foreign := by
    intro q q' t c c' block block' hq h hb hb'
    cases q with
    | true => exact absurd hq nofun
    | false =>
      obtain rfl := Option.some.inj hq
      obtain rfl := h.fresh rfl
      rw [hb.foldl]
      exact hb'.apart h.toAgree
  aligned c c' u := by cases u <;> rfl
  silent c hb := seen_nested hb.nested c
  silent' c hb := seen_nested hb.nested c

end Basu.Introspect
