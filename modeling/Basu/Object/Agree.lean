import Basu.Object.Steady

/-! `GetAll` and `Get` on one path. `GetAll` is decided at the first place where anything answers;
`Get` goes on from place to place until one has the property. -/

namespace Basu.Steady
open Lib

variable {U V : Type}

/-! ## What stands at a place -/

section
variable (cb : Callbacks U V) (b : ObjBus) (path : Str)

def serving (x : Str × Bool) : List Nat :=
  match b.getNode x.1 with
  | none => []
  | some n => (b.vtables n).filter fun s => !passedOver b x.2 s

def answers (s : Nat) : Bool :=
  match nodeVtableGetUserdata cb b path s with
  | .absent => false
  | _ => true

structure Declares (x : Str × Bool) (iface member : Str) (s : Nat) (e : VtableEntry) : Prop where
  serves : s ∈ serving b x
  interface : (b.slot s).interface = iface
  entry : e ∈ (b.slot s).vtable.entries
  kind : e.kind = some .property
  member : e.member = member

def Answered (x : Str × Bool) (iface member : Str) : Prop :=
  ∃ s e, Declares b x iface member s e ∧ answers cb b path s = true

def Reads (x : Str × Bool) (iface member : Str) (v : V) : Prop :=
  ∃ s e u, Declares b x iface member s e ∧ nodeVtableGetUserdata cb b path s = .object u ∧
    cb.get s path e u = some v

def ReadsFirst (l : List (Str × Bool)) (iface member : Str) (v : V) : Prop :=
  ∃ pre x post, l = pre ++ x :: post ∧ (∀ y ∈ pre, ¬Answered cb b path y iface member) ∧
    Reads cb b path x iface member v

def ListedAt (x : Str × Bool) (iface member : Str) : Prop :=
  ∃ s e, Declares b x iface member s e ∧ isListed e = true ∧
    hasFlag (b.slot s).vtable.flags sdBusVtableHidden = false

def IsListed (iface member : Str) : Prop := ∃ x ∈ consultOrder path, ListedAt b x iface member

/-! ## What GetAll tells -/

/-- `GetAll` and `Get` tell the same of the listed properties, and an interface is unknown only if
none of its properties can be read. -/
structure GetAllAgrees (iface : Str) : Prop where
  contains : ∀ member, IsListed b path iface member → ∀ v,
    (∃ l, processGetAll cb b path iface = .reply l ∧ ∃ p ∈ l, p.member = member ∧ p.value = v) ↔
      processGet cb b path iface member = .reply v
  unknown : processGetAll cb b path iface = .unknownInterface →
    ∀ member v, processGet cb b path iface member ≠ .reply v

/-- The place at which `GetAll` is decided: whether an object was known there before, the place and
its node, and the places behind. -/
def decidingPlace : List (Str × Bool) → Bool → Option (Bool × (Str × Bool) × Nat × List (Str × Bool))
  | [], _ => none
  | x :: l, found =>
    match b.getNode x.1 with
    | none => decidingPlace l found
    | some n =>
      let found := found || hasCallback b n x.2
      if found || (serving b x).any (answers cb b path) then some (found, x, n, l)
      else decidingPlace l (isPresent b n x.2)

/-- Nothing fails that `GetAll` asks at the place. -/
structure Complete (x : Str × Bool) (iface : Str) : Prop where
  found : ∀ s ∈ serving b x, nodeVtableGetUserdata cb b path s ≠ .failed
  read : ∀ s ∈ serving b x, (b.slot s).interface = iface →
    hasFlag (b.slot s).vtable.flags sdBusVtableHidden = false →
    ∀ u, nodeVtableGetUserdata cb b path s = .object u →
      ∀ e ∈ (b.slot s).vtable.entries, isListed e = true → (cb.get s path e u).isSome

def LacksInterface (x : Str × Bool) (iface : Str) : Prop :=
  isKnownInterface (some iface) = false ∧
    ∀ s ∈ serving b x, ∀ u, nodeVtableGetUserdata cb b path s = .object u →
      (b.slot s).interface ≠ iface

/-- Of the listed properties those are read at the deciding place, where nothing fails then, that
can be read there at all, and none is read at a place behind; of an interface which that place
lacks no property is. -/
structure OnePlace (found : Bool) (x : Str × Bool) (n : Nat) (l : List (Str × Bool))
    (iface : Str) : Prop where
  here : ∀ member, IsListed b path iface member → ∀ v, Reads cb b path x iface member v →
    Complete cb b path x iface ∧ ListedAt b x iface member
  behind : (found = true ∨ busNodeExists cb b path n x.2 ≠ .neg) → ∀ member,
    (IsListed b path iface member ∨
      Complete cb b path x iface ∧ LacksInterface cb b path x iface) →
    ¬Answered cb b path x iface member → ∀ v, ¬ReadsFirst cb b path l iface member v

def ServedAtOnePlace (iface : Str) : Prop :=
  ∀ found x n l, decidingPlace cb b path (consultOrder path) false = some (found, x, n, l) →
    OnePlace cb b path found x n l iface

end

section
variable {cb : Callbacks U V} {b : ObjBus} {path iface member : Str} {x : Str × Bool}
  {s n : Nat} {e : VtableEntry} {v : V}

theorem mem_serving : s ∈ serving b x ↔
    ∃ n, b.getNode x.1 = some n ∧ s ∈ b.vtables n ∧ passedOver b x.2 s = false := by
  unfold serving
  cases b.getNode x.1 with
  | none => simp
  | some n => simp

theorem Declares.lookup (h : ObjectTree b) (hd : Declares b x iface member s e) :
    ∃ c, Table.get VtableMember.key (b.members .property) (x.1, iface, member) = some c ∧
      c.parent = s ∧ c.entry = e := by
  obtain ⟨n, hn, hs, -⟩ := mem_serving.mp hd.serves
  obtain ⟨-, hpath⟩ := h.getNode.mp hn
  obtain ⟨i, hi⟩ := (h.declares .property (memberOf x.1 iface s e)).mp
    ⟨n, hs, hpath.symm, hd.interface.symm, hd.entry, hd.kind, rfl⟩
  refine ⟨_, (h.memberKeyed .property).get_eq_some.mpr ⟨hi, ?_⟩, rfl, rfl⟩
  simp only [VtableMember.key, memberOf, hd.member]

theorem declares_of_lookup (h : ObjectTree b) {c : VtableMember}
    (hc : Table.get VtableMember.key (b.members .property) (x.1, iface, member) = some c)
    (hp : passedOver b x.2 c.parent = false) : Declares b x iface member c.parent c.entry := by
  obtain ⟨hm, hk⟩ := Table.mem_of_get hc
  simp only [VtableMember.key, Prod.mk.injEq] at hk
  obtain ⟨n, hs, hpath, hi, he, hkind, hmem⟩ := (h.declares .property c).mpr ⟨c.lastIteration, hm⟩
  have hn : b.getNode x.1 = some n :=
    h.getNode.mpr ⟨h.live_of_mem hs, hpath.symm.trans hk.1⟩
  exact ⟨mem_serving.mpr ⟨n, hn, hs, hp⟩, hi.symm.trans hk.2.1, he, hkind, hmem.symm.trans hk.2.2⟩

theorem Declares.unique (h : ObjectTree b) {s' : Nat} {e' : VtableEntry}
    (hd : Declares b x iface member s e) (hd' : Declares b x iface member s' e') :
    s = s' ∧ e = e' := by
  obtain ⟨c, hc, rfl, rfl⟩ := hd.lookup h
  obtain ⟨c', hc', rfl, rfl⟩ := hd'.lookup h
  obtain rfl := Option.some.inj (hc.symm.trans hc')
  exact ⟨rfl, rfl⟩

theorem runGet_of_declares (h : ObjectTree b) (hd : Declares b x iface member s e) (n : Nat)
    (found : Bool) : runGet cb b path iface member x.1 x.2 n found =
      match nodeVtableGetUserdata cb b path s with
      | .absent => none
      | .failed => some .failed
      | .object u => match cb.get s path e u with
        | none => some .failed
        | some v => some (.reply v) := by
  obtain ⟨c, hc, rfl, rfl⟩ := hd.lookup h
  obtain ⟨m, -, -, hp⟩ := mem_serving.mp hd.serves
  unfold runGet propertyGetSetCallbacksRun
  rw [hc]
  change (if passedOver b x.2 c.parent = true then none else _) = _
  exact if_neg (by rw [hp]; exact Bool.false_ne_true)

theorem runGet_of_not_declared (h : ObjectTree b)
    (hd : ∀ s e, ¬Declares b x iface member s e) (n : Nat) (found : Bool) :
    runGet cb b path iface member x.1 x.2 n found = none := by
  unfold runGet propertyGetSetCallbacksRun
  rcases hc : Table.get VtableMember.key (b.members .property) (x.1, iface, member) with _ | c
  · rfl
  · dsimp only
    rcases hp : passedOver b x.2 c.parent with _ | _
    · exact absurd (declares_of_lookup h hc hp) (hd _ _)
    · rfl

theorem runGet_eq_none (h : ObjectTree b) (n : Nat) (found : Bool) :
    runGet cb b path iface member x.1 x.2 n found = none ↔ ¬Answered cb b path x iface member := by
  by_cases hd : ∃ s e, Declares b x iface member s e
  · obtain ⟨s, e, hd⟩ := hd
    rw [runGet_of_declares h hd]
    have ha : Answered cb b path x iface member ↔ answers cb b path s = true := by
      refine ⟨fun ⟨s', e', hd', ha⟩ => ?_, fun ha => ⟨s, e, hd, ha⟩⟩
      obtain ⟨rfl, -⟩ := hd.unique h hd'
      exact ha
    rw [ha, answers]
    rcases nodeVtableGetUserdata cb b path s with _ | u | _
    · simp
    · rcases hg : cb.get s path e u with _ | v
      · simp [hg]
      · simp [hg]
    · simp
  · rw [runGet_of_not_declared h fun s e hs => hd ⟨s, e, hs⟩]
    exact iff_of_true rfl fun ⟨s, e, hs, _⟩ => hd ⟨s, e, hs⟩

theorem runGet_eq_reply (h : ObjectTree b) (n : Nat) (found : Bool) :
    runGet cb b path iface member x.1 x.2 n found = some (.reply v) ↔
      Reads cb b path x iface member v := by
  by_cases hd : ∃ s e, Declares b x iface member s e
  · obtain ⟨s, e, hd⟩ := hd
    rw [runGet_of_declares h hd]
    have hr : Reads cb b path x iface member v ↔
        ∃ u, nodeVtableGetUserdata cb b path s = .object u ∧ cb.get s path e u = some v := by
      refine ⟨fun ⟨s', e', u, hd', hu, hg⟩ => ?_, fun ⟨u, hu, hg⟩ => ⟨s, e, u, hd, hu, hg⟩⟩
      obtain ⟨rfl, rfl⟩ := hd.unique h hd'
      exact ⟨u, hu, hg⟩
    rw [hr]
    rcases nodeVtableGetUserdata cb b path s with _ | u | _
    · simp
    · rcases hg : cb.get s path e u with _ | v'
      · simp [hg]
      · simp [hg]
    · simp
  · rw [runGet_of_not_declared h fun s e hs => hd ⟨s, e, hs⟩]
    exact iff_of_false nofun fun ⟨s, e, _, hs, _⟩ => hd ⟨s, e, hs⟩

theorem Reads.answered (hr : Reads cb b path x iface member v) :
    Answered cb b path x iface member := by
  obtain ⟨s, e, u, hd, hu, -⟩ := hr
  refine ⟨s, e, hd, ?_⟩
  simp only [answers, hu]

theorem readsFirst_cons {l : List (Str × Bool)} : ReadsFirst cb b path (x :: l) iface member v ↔
    Reads cb b path x iface member v ∨
      ¬Answered cb b path x iface member ∧ ReadsFirst cb b path l iface member v := by
  constructor
  · rintro ⟨pre, y, post, hl, hpre, hr⟩
    cases pre with
    | nil =>
      obtain ⟨rfl, rfl⟩ := List.cons.inj hl
      exact Or.inl hr
    | cons z pre =>
      obtain ⟨rfl, rfl⟩ := List.cons.inj hl
      exact Or.inr ⟨hpre x List.mem_cons_self, pre, y, post, rfl,
        fun y hy => hpre y (List.mem_cons_of_mem _ hy), hr⟩
  · rintro (hr | ⟨hno, pre, y, post, rfl, hpre, hr⟩)
    · exact ⟨[], x, l, rfl, by simp, hr⟩
    · refine ⟨x :: pre, y, post, rfl, ?_, hr⟩
      simpa [hno] using hpre

theorem placesRun_get_known (h : ObjectTree b) (l : List (Str × Bool)) :
    placesRun cb b path (runGet cb b path iface member) .unknownProperty l true = .reply v ↔
      ReadsFirst cb b path l iface member v := by
  induction l with
  | nil =>
    refine iff_of_false (fun h => by cases h) ?_
    rintro ⟨pre, x, post, hl, -⟩
    simp at hl
  | cons x l ih =>
    have hfirst : ReadsFirst cb b path (x :: l) iface member v ↔
        Reads cb b path x iface member v ∨
          ¬Answered cb b path x iface member ∧ ReadsFirst cb b path l iface member v :=
      readsFirst_cons
    obtain ⟨p, rf⟩ := x
    unfold placesRun objectFindAndRun
    cases hn : b.getNode p with
    | none =>
      have hno : ¬Answered cb b path (p, rf) iface member := by
        rintro ⟨s, e, hd, -⟩
        obtain ⟨n, hn', -⟩ := mem_serving.mp hd.serves
        cases hn.symm.trans hn'
      rw [hfirst]
      simp only [ih, hno, not_false_eq_true, true_and]
      exact ⟨Or.inr, fun hr => hr.resolve_left fun hr => hno hr.answered⟩
    | some n =>
      simp only [Bool.true_or]
      cases hr : runGet cb b path iface member p rf n true with
      | none =>
        have hno := (runGet_eq_none (x := (p, rf)) h n true).mp hr
        simp only [if_true, ih, hfirst, hno, not_false_eq_true, true_and]
        exact ⟨Or.inr, fun hr => hr.resolve_left fun hr => hno hr.answered⟩
      | some o =>
        have hyes : Answered cb b path (p, rf) iface member := by
          by_contra hno
          cases hr.symm.trans ((runGet_eq_none (x := (p, rf)) h n true).mpr hno)
        rw [hfirst, ← runGet_eq_reply (x := (p, rf)) h n true, hr]
        simp [hyes]

/-! ## GetAll at one place -/

theorem appendEntries_eq_some {u : U} {es : List VtableEntry} {l : List (Property V)}
    (h : appendEntries cb path s u es = some l) :
    (∀ e ∈ es, isListed e = true → (cb.get s path e u).isSome) ∧
      ∀ p, p ∈ l ↔ ∃ e ∈ es, isListed e = true ∧ ∃ v, cb.get s path e u = some v ∧
        p = ⟨e.member, e.signature, v⟩ := by
  induction es generalizing l with
  | nil =>
    obtain rfl := Option.some.inj h
    simp
  | cons e es ih =>
    unfold appendEntries at h
    split at h
    · next hl =>
      obtain ⟨p, hp, h⟩ := Option.bind_eq_some_iff.mp h
      obtain ⟨l', hl', rfl⟩ := Option.map_eq_some_iff.mp h
      obtain ⟨v, hv, rfl⟩ := Option.map_eq_some_iff.mp hp
      obtain ⟨hall, hmem⟩ := ih hl'
      refine ⟨?_, fun q => ?_⟩
      · simpa [hl, hv] using hall
      · simp [hl, hv, hmem]
    · next hl =>
      obtain ⟨hall, hmem⟩ := ih h
      refine ⟨?_, fun q => ?_⟩
      · simpa [hl] using hall
      · simp [hl, hmem]

theorem appendEntries_isSome {u : U} {es : List VtableEntry}
    (h : ∀ e ∈ es, isListed e = true → (cb.get s path e u).isSome) :
    (appendEntries cb path s u es).isSome := by
  induction es with
  | nil => rfl
  | cons e es ih =>
    have hes := ih fun e he => h e (List.mem_cons_of_mem _ he)
    unfold appendEntries
    split
    · next hl =>
      obtain ⟨v, hv⟩ := Option.isSome_iff_exists.mp (h e List.mem_cons_self hl)
      obtain ⟨l, hl⟩ := Option.isSome_iff_exists.mp hes
      simp [vtableAppendOneProperty, hv, hl]
    · exact hes

theorem vtableAppendAllProperties_isSome {u : U} :
    (vtableAppendAllProperties cb b path s u).isSome ↔
      (hasFlag (b.slot s).vtable.flags sdBusVtableHidden = false →
        ∀ e ∈ (b.slot s).vtable.entries, isListed e = true → (cb.get s path e u).isSome) := by
  unfold vtableAppendAllProperties
  rcases hasFlag (b.slot s).vtable.flags sdBusVtableHidden with _ | _
  · simp only [Bool.false_eq_true, if_false, forall_const]
    refine ⟨fun h => ?_, appendEntries_isSome⟩
    obtain ⟨l, hl⟩ := Option.isSome_iff_exists.mp h
    exact (appendEntries_eq_some hl).1
  · simp

theorem mem_vtableAppendAllProperties {u : U} {l : List (Property V)}
    (h : vtableAppendAllProperties cb b path s u = some l) {p : Property V} :
    p ∈ l ↔ hasFlag (b.slot s).vtable.flags sdBusVtableHidden = false ∧
      ∃ e ∈ (b.slot s).vtable.entries, isListed e = true ∧ ∃ v, cb.get s path e u = some v ∧
        p = ⟨e.member, e.signature, v⟩ := by
  unfold vtableAppendAllProperties at h
  rcases hf : hasFlag (b.slot s).vtable.flags sdBusVtableHidden with _ | _
  · simp only [hf, Bool.false_eq_true, if_false] at h
    simp [(appendEntries_eq_some h).2]
  · simp only [hf, if_true] at h
    obtain rfl := Option.some.inj h
    simp

variable (cb b path iface) in
def objectOf (s : Nat) : Option U :=
  match nodeVtableGetUserdata cb b path s with
  | .object u => if (b.slot s).interface = iface then some u else none
  | _ => none

theorem objectOf_eq_some {u : U} : objectOf cb b path iface s = some u ↔
    nodeVtableGetUserdata cb b path s = .object u ∧ (b.slot s).interface = iface := by
  unfold objectOf
  split
  · next u' hu =>
    split
    · next hi => simp [hu, hi]
    · next hi => simp [hi]
  · next hno => exact iff_of_false nofun fun ⟨hu, _⟩ => hno u hu

variable (cb b path iface) in
/-- `GetAll` for the interface goes through at the vtable. -/
def PassesAt (s : Nat) : Prop :=
  nodeVtableGetUserdata cb b path s ≠ .failed ∧
    ∀ u, objectOf cb b path iface s = some u → (vtableAppendAllProperties cb b path s u).isSome

variable (cb b path iface) in
def listedBy (s : Nat) : List (Property V) :=
  match objectOf cb b path iface s with
  | none => []
  | some u => (vtableAppendAllProperties cb b path s u).getD []

theorem getAllLoop_passes (rf : Bool) (l : List Nat) (found known : Bool) (acc : List (Property V))
    (h : ∀ s ∈ l.filter fun s => !passedOver b rf s, PassesAt cb b path iface s) :
    getAllLoop cb b path rf (some iface) l found known acc =
      if !(found || (l.filter fun s => !passedOver b rf s).any (answers cb b path)) then none
      else if !(known || (l.filter fun s => !passedOver b rf s).any fun s =>
        (objectOf cb b path iface s).isSome) then some .unknownInterface
      else some (.reply (acc ++ (l.filter fun s => !passedOver b rf s).flatMap
        (listedBy cb b path iface))) := by
  induction l generalizing found known acc with
  | nil => simp [getAllLoop]
  | cons s l ih =>
    unfold getAllLoop
    rcases hp : passedOver b rf s with _ | _
    · simp only [List.filter_cons, hp, Bool.not_false, if_true, List.forall_mem_cons] at h ⊢
      obtain ⟨⟨hf, hs⟩, hl⟩ := h
      simp only [Bool.false_eq_true, if_false, List.any_cons, List.flatMap_cons]
      have ha : answers cb b path s = match nodeVtableGetUserdata cb b path s with
        | .absent => false
        | _ => true := rfl
      rcases hu : nodeVtableGetUserdata cb b path s with _ | u | _
      · have ho : objectOf cb b path iface s = none := by
          unfold objectOf
          rw [hu]
        simp [ha, hu, ih _ _ _ hl, ho, listedBy]
      · by_cases hi : (b.slot s).interface = iface
        · have ho : objectOf cb b path iface s = some u := objectOf_eq_some.mpr ⟨hu, hi⟩
          obtain ⟨l', hl'⟩ := Option.isSome_iff_exists.mp (hs u ho)
          simp [ha, hu, hi, hl', ih _ _ _ hl, ho, listedBy]
        · have ho : objectOf cb b path iface s = none := by
            unfold objectOf
            rw [hu]
            exact if_neg hi
          have hne : ¬iface = (b.slot s).interface := fun h => hi h.symm
          simp [ha, hu, hne, ih _ _ _ hl, ho, listedBy]
      · exact absurd hu hf
    · simp only [List.filter_cons, hp, Bool.not_true, Bool.false_eq_true, if_false] at h ⊢
      simp only [if_true]
      exact ih _ _ _ h

theorem getAllLoop_fails (rf : Bool) (l : List Nat) (found known : Bool) (acc : List (Property V))
    (h : ∃ s ∈ l.filter fun s => !passedOver b rf s, ¬PassesAt cb b path iface s) :
    getAllLoop cb b path rf (some iface) l found known acc = some .failed := by
  induction l generalizing found known acc with
  | nil => simp at h
  | cons s l ih =>
    unfold getAllLoop
    rcases hp : passedOver b rf s with _ | _
    · simp only [List.filter_cons, hp, Bool.not_false, if_true, List.exists_mem_cons_iff] at h ⊢
      simp only [Bool.false_eq_true, if_false]
      rcases hu : nodeVtableGetUserdata cb b path s with _ | u | _
      · refine ih _ _ _ (h.resolve_left fun hn => hn ⟨by simp [hu], fun u ho => ?_⟩)
        exact absurd (hu.symm.trans (objectOf_eq_some.mp ho).1) nofun
      · by_cases hi : (b.slot s).interface = iface
        · rcases ha : vtableAppendAllProperties cb b path s u with _ | l'
          · simp [hi, ha]
          · simp only [hi, ha, Option.isSome_some, ne_eq, not_true_eq_false, decide_false,
              Bool.and_false, Bool.false_eq_true, if_false]
            refine ih _ _ _ (h.resolve_left fun hn => hn ⟨by simp [hu], fun u' ho => ?_⟩)
            obtain ⟨hu', -⟩ := objectOf_eq_some.mp ho
            obtain rfl := Found.object.inj (hu.symm.trans hu')
            simp [ha]
        · have hne : ¬iface = (b.slot s).interface := fun h => hi h.symm
          simp only [Option.isSome_some, ne_eq, Option.some.injEq, hne, not_false_eq_true,
            decide_true, Bool.and_self, if_true]
          refine ih _ _ _ (h.resolve_left fun hn => hn ⟨by simp [hu], fun u' ho => ?_⟩)
          exact absurd (objectOf_eq_some.mp ho).2 hi
      · rfl
    · simp only [List.filter_cons, hp, Bool.not_true, Bool.false_eq_true, if_false] at h ⊢
      simp only [if_true]
      exact ih _ _ _ h

/-! ## The walk up to the deciding place -/

theorem nodeExistsLoop_eq_zero (rf : Bool) (l : List Nat) :
    nodeExistsLoop cb b path rf l = .zero ↔
      ∀ s ∈ l.filter fun s => !passedOver b rf s, answers cb b path s = false := by
  induction l with
  | nil => simp [nodeExistsLoop]
  | cons s l ih =>
    unfold nodeExistsLoop
    rcases hp : passedOver b rf s with _ | _
    · simp only [List.filter_cons, hp, Bool.not_false, if_true, List.forall_mem_cons,
        Bool.false_eq_true, if_false, answers]
      rcases nodeVtableGetUserdata cb b path s with _ | u | _
      · simpa [answers] using ih
      · simp
      · simp
    · simpa [List.filter_cons, hp] using ih

theorem serving_of_node (hn : b.getNode x.1 = some n) :
    serving b x = (b.vtables n).filter fun s => !passedOver b x.2 s := by
  simp only [serving, hn]

theorem busNodeExists_quiet (hn : b.getNode x.1 = some n)
    (hq : (serving b x).any (answers cb b path) = false) :
    busNodeExists cb b path n x.2 = if isPresent b n x.2 then .pos else .zero := by
  unfold busNodeExists
  split
  · rfl
  · rw [serving_of_node hn, List.any_eq_false] at hq
    rw [nodeExistsLoop_eq_zero]
    intro s hs
    simpa using hq s hs

theorem not_answered_of_quiet (hq : (serving b x).any (answers cb b path) = false) :
    ¬Answered cb b path x iface member := by
  rintro ⟨s, e, hd, ha⟩
  rw [List.any_eq_false] at hq
  exact hq s hd.serves ha

/-- What `Get` comes to at the deciding place, where an object may be known, and behind it. -/
def getFrom (cb : Callbacks U V) (b : ObjBus) (path iface member : Str) (found : Bool)
    (x : Str × Bool) (n : Nat) (l : List (Str × Bool)) : Outcome V :=
  match runGet cb b path iface member x.1 x.2 n found with
  | some o => o
  | none =>
    if found = true ∨ busNodeExists cb b path n x.2 ≠ .neg then
      placesRun cb b path (runGet cb b path iface member) .unknownProperty l true
    else .failed

theorem runGetAll_eq (hi : iface ≠ []) (p : Str) (rf : Bool) (n : Nat) (found : Bool) :
    runGetAll cb b path iface p rf n found =
      getAllLoop cb b path rf (some iface) (b.vtables n) found (isKnownInterface (some iface)) [] := by
  have he : iface.isEmpty = false := by simpa using hi
  simp only [runGetAll, propertyGetAllCallbacksRun, he, Bool.false_eq_true, if_false]

theorem runGetAll_quiet (hi : iface ≠ []) (hn : b.getNode x.1 = some n)
    (hq : (serving b x).any (answers cb b path) = false) :
    runGetAll cb b path iface x.1 x.2 n false = none := by
  rw [runGetAll_eq hi]
  rw [serving_of_node hn] at hq
  have hpass : ∀ s ∈ (b.vtables n).filter fun s => !passedOver b x.2 s,
      PassesAt cb b path iface s := by
    intro s hs
    have ha := List.any_eq_false.mp hq s hs
    unfold answers at ha
    refine ⟨fun hf => by simp [hf] at ha, fun u ho => ?_⟩
    simp [(objectOf_eq_some.mp ho).1] at ha
  rw [getAllLoop_passes _ _ _ _ _ hpass, hq]
  rfl

variable (member) in
theorem walk_undecided (h : ObjectTree b) (hi : iface ≠ []) (l : List (Str × Bool)) :
    ∀ {found : Bool}, decidingPlace cb b path l found = none →
      (placesRun cb b path (runGetAll cb b path iface) .unknownMethod l found = .unknownMethod ∨
        placesRun cb b path (runGetAll cb b path iface) .unknownMethod l found = .unhandled) ∧
      ∀ v, placesRun cb b path (runGet cb b path iface member) .unknownProperty l found ≠ .reply v := by
  induction l with
  | nil => intro found _; cases found <;> simp [placesRun]
  | cons x l ih =>
    obtain ⟨p, rf⟩ := x
    intro found hd
    unfold decidingPlace at hd
    unfold placesRun objectFindAndRun
    cases hn : b.getNode p with
    | none => simp only [hn] at hd; exact ih hd
    | some n =>
      simp only [hn] at hd ⊢
      split at hd
      · exact absurd hd nofun
      next hq =>
        simp only [Bool.or_eq_true, not_or, Bool.not_eq_true] at hq
        obtain ⟨⟨hf, hc⟩, hq⟩ := hq
        have hg : runGet cb b path iface member p rf n false = none :=
          (runGet_eq_none (x := (p, rf)) h n false).mpr (not_answered_of_quiet hq)
        have ha : runGetAll cb b path iface p rf n false = none :=
          runGetAll_quiet (x := (p, rf)) hi hn hq
        have he : busNodeExists cb b path n rf = if isPresent b n rf then .pos else .zero :=
          busNodeExists_quiet (x := (p, rf)) hn hq
        simp only [hf, hc, Bool.or_false, hg, ha, he, Bool.false_eq_true, if_false]
        rcases hp : isPresent b n rf with _ | _
        · rw [hp] at hd
          exact ih hd
        · rw [hp] at hd
          exact ih hd

variable (member) in
theorem walk_decided (h : ObjectTree b) (hi : iface ≠ []) (l : List (Str × Bool)) :
    ∀ {found f : Bool} {l' : List (Str × Bool)},
      decidingPlace cb b path l found = some (f, x, n, l') →
      b.getNode x.1 = some n ∧ (f || (serving b x).any (answers cb b path)) = true ∧
        some (placesRun cb b path (runGetAll cb b path iface) .unknownMethod l found) =
          getAllLoop cb b path x.2 (some iface) (b.vtables n) f (isKnownInterface (some iface)) [] ∧
        placesRun cb b path (runGet cb b path iface member) .unknownProperty l found =
          getFrom cb b path iface member f x n l' := by
  induction l with
  | nil => intro found f l' hd; exact absurd hd nofun
  | cons y l ih =>
    obtain ⟨p, rf⟩ := y
    intro found f l' hd
    unfold decidingPlace at hd
    unfold placesRun objectFindAndRun
    cases hn : b.getNode p with
    | none => simp only [hn] at hd; exact ih hd
    | some m =>
      simp only [hn] at hd ⊢
      split at hd
      · next hst =>
        simp only [Option.some.injEq, Prod.mk.injEq] at hd
        obtain ⟨rfl, rfl, rfl, rfl⟩ := hd
        refine ⟨hn, hst, ?_, ?_⟩
        · rw [runGetAll_eq hi]
          rw [serving_of_node (x := (p, rf)) hn] at hst
          rcases hl : getAllLoop cb b path rf (some iface) (b.vtables m)
              (found || hasCallback b m rf) (isKnownInterface (some iface)) [] with _ | o
          · exfalso
            by_cases hall : ∀ s ∈ (b.vtables m).filter fun s => !passedOver b rf s,
                PassesAt cb b path iface s
            · rw [getAllLoop_passes _ _ _ _ _ hall, hst] at hl
              simp only [Bool.not_true, Bool.false_eq_true, if_false] at hl
              split at hl
              · exact absurd hl nofun
              · exact absurd hl nofun
            · push Not at hall
              rw [getAllLoop_fails _ _ _ _ _ hall] at hl
              exact absurd hl nofun
          · rfl
        · unfold getFrom
          rcases hg : runGet cb b path iface member p rf m (found || hasCallback b m rf) with _ | o
          · dsimp only
            rcases hf : found || hasCallback b m rf with _ | _
            · have hne : busNodeExists cb b path m rf ≠ .zero := by
                intro hz
                rw [hf, Bool.false_or, serving_of_node (x := (p, rf)) hn] at hst
                unfold busNodeExists at hz
                split at hz
                · exact absurd hz nofun
                · obtain ⟨s, hs, ha⟩ := List.any_eq_true.mp hst
                  rw [(nodeExistsLoop_eq_zero rf _).mp hz s hs] at ha
                  exact absurd ha nofun
              rcases he : busNodeExists cb b path m rf with _ | _ | _
              · simp
              · exact absurd he hne
              · simp
            · simp
          · rfl
      next hq =>
        simp only [Bool.or_eq_true, not_or, Bool.not_eq_true] at hq
        obtain ⟨⟨hf, hc⟩, hq⟩ := hq
        have hg : runGet cb b path iface member p rf m false = none :=
          (runGet_eq_none (x := (p, rf)) h m false).mpr (not_answered_of_quiet hq)
        have ha : runGetAll cb b path iface p rf m false = none :=
          runGetAll_quiet (x := (p, rf)) hi hn hq
        have he : busNodeExists cb b path m rf = if isPresent b m rf then .pos else .zero :=
          busNodeExists_quiet (x := (p, rf)) hn hq
        simp only [hf, hc, Bool.or_false, hg, ha, he, Bool.false_eq_true, if_false]
        rcases hp : isPresent b m rf with _ | _
        · rw [hp] at hd
          exact ih hd
        · rw [hp] at hd
          exact ih hd

/-! ## The two calls compared -/

theorem complete_iff : Complete cb b path x iface ↔
    ∀ s ∈ serving b x, PassesAt cb b path iface s := by
  constructor
  · intro hc s hs
    refine ⟨hc.found s hs, fun u ho => ?_⟩
    obtain ⟨hu, hi⟩ := objectOf_eq_some.mp ho
    exact vtableAppendAllProperties_isSome.mpr fun hh => hc.read s hs hi hh u hu
  · intro hp
    refine ⟨fun s hs => (hp s hs).1, fun s hs hi hh u hu => ?_⟩
    exact vtableAppendAllProperties_isSome.mp ((hp s hs).2 u (objectOf_eq_some.mpr ⟨hu, hi⟩)) hh

theorem lacksInterface_iff : LacksInterface cb b path x iface ↔
    (isKnownInterface (some iface) || (serving b x).any fun s =>
      (objectOf cb b path iface s).isSome) = false := by
  rw [Bool.or_eq_false_iff, List.any_eq_false, LacksInterface]
  refine and_congr_right fun _ => forall₂_congr fun s _ => ?_
  constructor
  · intro hno hs
    obtain ⟨u, hu⟩ := Option.isSome_iff_exists.mp hs
    obtain ⟨hu, hi⟩ := objectOf_eq_some.mp hu
    exact hno u hu hi
  · intro hno u hu hi
    exact hno (Option.isSome_iff_exists.mpr ⟨u, objectOf_eq_some.mpr ⟨hu, hi⟩⟩)

theorem mem_listed (hc : Complete cb b path x iface) :
    (∃ p ∈ (serving b x).flatMap (listedBy cb b path iface), p.member = member ∧ p.value = v) ↔
      ∃ s e u, Declares b x iface member s e ∧ isListed e = true ∧
        hasFlag (b.slot s).vtable.flags sdBusVtableHidden = false ∧
        nodeVtableGetUserdata cb b path s = .object u ∧ cb.get s path e u = some v := by
  constructor
  · rintro ⟨p, hp, rfl, rfl⟩
    obtain ⟨s, hs, hp⟩ := List.mem_flatMap.mp hp
    unfold listedBy at hp
    rcases ho : objectOf cb b path iface s with _ | u
    · simp [ho] at hp
    · obtain ⟨l, hl⟩ := Option.isSome_iff_exists.mp ((complete_iff.mp hc s hs).2 u ho)
      simp only [ho, hl, Option.getD_some] at hp
      obtain ⟨hh, e, he, hlist, v, hv, rfl⟩ := (mem_vtableAppendAllProperties hl).mp hp
      obtain ⟨hu, hi⟩ := objectOf_eq_some.mp ho
      have hk : e.kind = some .property := by
        simp only [isListed, Bool.and_eq_true, decide_eq_true_eq] at hlist
        exact hlist.1.1
      exact ⟨s, e, u, ⟨hs, hi, he, hk, rfl⟩, hlist, hh, hu, hv⟩
  · rintro ⟨s, e, u, hd, hlist, hh, hu, hv⟩
    have ho : objectOf cb b path iface s = some u := objectOf_eq_some.mpr ⟨hu, hd.interface⟩
    obtain ⟨l, hl⟩ := Option.isSome_iff_exists.mp ((complete_iff.mp hc s hd.serves).2 u ho)
    refine ⟨⟨e.member, e.signature, v⟩, List.mem_flatMap.mpr ⟨s, hd.serves, ?_⟩, hd.member, rfl⟩
    simp only [listedBy, ho, hl, Option.getD_some]
    exact (mem_vtableAppendAllProperties hl).mpr ⟨hh, e, hd.entry, hlist, v, hv, rfl⟩

theorem getFrom_eq_reply (h : ObjectTree b) {found : Bool} {l : List (Str × Bool)} :
    getFrom cb b path iface member found x n l = .reply v ↔
      Reads cb b path x iface member v ∨ ¬Answered cb b path x iface member ∧
        (found = true ∨ busNodeExists cb b path n x.2 ≠ .neg) ∧
        ReadsFirst cb b path l iface member v := by
  unfold getFrom
  rcases hg : runGet cb b path iface member x.1 x.2 n found with _ | o
  · have hno := (runGet_eq_none h n found).mp hg
    have hr : ¬Reads cb b path x iface member v := fun hr => hno hr.answered
    simp only [hr, hno, not_false_eq_true, true_and, false_or]
    split
    · next hgo => rw [placesRun_get_known h, and_iff_right hgo]
    · next hgo => exact iff_of_false nofun fun hr => hgo hr.1
  · have hyes : Answered cb b path x iface member := by
      by_contra hno
      exact absurd (hg.symm.trans ((runGet_eq_none h n found).mpr hno)) nofun
    rw [← runGet_eq_reply h n found, hg]
    simp [hyes]

variable (iface) in
theorem getAll_decided {found : Bool} (hn : b.getNode x.1 = some n)
    (hst : (found || (serving b x).any (answers cb b path)) = true) :
    getAllLoop cb b path x.2 (some iface) (b.vtables n) found (isKnownInterface (some iface)) [] =
      some .failed ∧ ¬Complete cb b path x iface ∨
    getAllLoop cb b path x.2 (some iface) (b.vtables n) found (isKnownInterface (some iface)) [] =
      some .unknownInterface ∧ Complete cb b path x iface ∧ LacksInterface cb b path x iface ∨
    getAllLoop cb b path x.2 (some iface) (b.vtables n) found (isKnownInterface (some iface)) [] =
      some (.reply ((serving b x).flatMap (listedBy cb b path iface))) ∧
      Complete cb b path x iface ∧ ¬LacksInterface cb b path x iface := by
  rw [lacksInterface_iff]
  rw [serving_of_node hn] at hst
  by_cases hc : Complete cb b path x iface
  · have hpass := complete_iff.mp hc
    rw [serving_of_node hn] at hpass ⊢
    rw [getAllLoop_passes _ _ _ _ _ hpass, hst]
    simp only [Bool.not_true, Bool.false_eq_true, if_false, List.nil_append]
    right
    split
    · next hlack => exact Or.inl ⟨rfl, hc, by simpa using hlack⟩
    · next hlack => exact Or.inr ⟨rfl, hc, by simpa using hlack⟩
  · left
    refine ⟨getAllLoop_fails _ _ _ _ _ ?_, hc⟩
    rw [complete_iff, serving_of_node hn] at hc
    push Not at hc
    exact hc

end

/-- `GetAll` and `Get` agree on a path and an interface exactly if every listed property is served
at the place where `GetAll` is decided, or not at all. -/
theorem getAll_agrees_iff (cb : Callbacks U V) (b : ObjBus) (h : ObjectTree b) (path iface : Str)
    (hi : interfaceNameIsValid iface = true) :
    GetAllAgrees cb b path iface ↔ ServedAtOnePlace cb b path iface := by
  have hi : iface ≠ [] := by
    rintro rfl
    exact absurd hi (by decide)
  unfold ServedAtOnePlace
  rcases hd : decidingPlace cb b path (consultOrder path) false with _ | ⟨found, x, n, l⟩
  · refine iff_of_true ⟨fun member _ v => iff_of_false ?_ ?_, fun hu member v => ?_⟩ nofun
    · rintro ⟨l, hl, -⟩
      obtain hu | hu := (walk_undecided member h hi _ hd).1
      · exact absurd (hl.symm.trans hu) nofun
      · exact absurd (hl.symm.trans hu) nofun
    · exact (walk_undecided _ h hi _ hd).2 v
    · exact (walk_undecided _ h hi _ hd).2 v
  · have hget : ∀ member v, processGet cb b path iface member = .reply v ↔
        Reads cb b path x iface member v ∨ ¬Answered cb b path x iface member ∧
          (found = true ∨ busNodeExists cb b path n x.2 ≠ .neg) ∧
          ReadsFirst cb b path l iface member v := by
      intro member v
      obtain ⟨-, -, -, hg⟩ := walk_decided member h hi _ hd
      rw [processGet, hg, getFrom_eq_reply h]
    obtain ⟨hn, hst, ha, -⟩ := walk_decided [] h hi _ hd
    have hall := getAll_decided iface hn hst
    rw [← ha, ← processGetAll] at hall
    have hcontains : ∀ member v, (∃ l, processGetAll cb b path iface = .reply l ∧
        ∃ p ∈ l, p.member = member ∧ p.value = v) ↔ Complete cb b path x iface ∧
          ∃ s e u, Declares b x iface member s e ∧ isListed e = true ∧
            hasFlag (b.slot s).vtable.flags sdBusVtableHidden = false ∧
            nodeVtableGetUserdata cb b path s = .object u ∧ cb.get s path e u = some v := by
      intro member v
      obtain ⟨hf, hnc⟩ | ⟨hu, -, hlack⟩ | ⟨hr, hc, -⟩ := hall
      · rw [Option.some.inj hf]
        exact iff_of_false nofun fun hr => hnc hr.1
      · rw [Option.some.inj hu]
        refine iff_of_false nofun ?_
        rintro ⟨-, s, e, u, hs, -, -, hu, -⟩
        exact hlack.2 s hs.serves u hu hs.interface
      · rw [Option.some.inj hr, ← mem_listed hc, and_iff_right hc]
        simp
    constructor
    · intro hag found' x' n' l' hd'
      obtain ⟨rfl, rfl, rfl, rfl⟩ : found = found' ∧ x = x' ∧ n = n' ∧ l = l' := by
        simpa using hd'
      refine ⟨fun member hm v hr => ?_, fun hgo member hm hno v hf => ?_⟩
      · obtain ⟨hc, s, e, u, hs, hl, hh, -⟩ := (hcontains member v).mp
          ((hag.contains member hm v).mpr ((hget member v).mpr (Or.inl hr)))
        exact ⟨hc, s, e, hs, hl, hh⟩
      · have hv := (hget member v).mpr (Or.inr ⟨hno, hgo, hf⟩)
        rcases hm with hm | ⟨hc, hlack⟩
        · obtain ⟨-, s, e, u, hs, -, -, hu, -⟩ :=
            (hcontains member v).mp ((hag.contains member hm v).mpr hv)
          refine hno ⟨s, e, hs, ?_⟩
          simp only [answers, hu]
        · obtain ⟨-, hnc⟩ | ⟨hu, -⟩ | ⟨-, -, hnl⟩ := hall
          · exact hnc hc
          · exact hag.unknown (Option.some.inj hu) member v hv
          · exact hnl hlack
    · intro hone
      obtain ⟨hhere, hbehind⟩ := hone found x n l rfl
      refine ⟨fun member hm v => ?_, fun hu member v hv => ?_⟩
      · rw [hcontains, hget]
        constructor
        · rintro ⟨-, s, e, u, hs, -, -, hu, hv⟩
          exact Or.inl ⟨s, e, u, hs, hu, hv⟩
        · rintro (hr | ⟨hno, hgo, hf⟩)
          · obtain ⟨hc, s, e, hs, hl, hh⟩ := hhere member hm v hr
            obtain ⟨s', e', u, hs', hu, hv⟩ := hr
            obtain ⟨rfl, rfl⟩ := hs.unique h hs'
            exact ⟨hc, s, e, u, hs, hl, hh, hu, hv⟩
          · exact absurd hf (hbehind hgo member (Or.inl hm) hno v)
      · have hcl : Complete cb b path x iface ∧ LacksInterface cb b path x iface := by
          obtain ⟨hf, -⟩ | ⟨-, hcl⟩ | ⟨hr, -⟩ := hall
          · exact absurd (hu.symm.trans (Option.some.inj hf)) nofun
          · exact hcl
          · exact absurd (hu.symm.trans (Option.some.inj hr)) nofun
        obtain ⟨s, e, u, hs, hu', -⟩ | ⟨hno, hgo, hf⟩ := (hget member v).mp hv
        · exact hcl.2.2 s hs.serves u hu' hs.interface
        · exact hbehind hgo member (Or.inr hcl) hno v hf

/-- `/a` has the interface `a.b` with the property `P`, and the root the interface `c.d` with the
property `Q` for all below it. -/
def splitObject : List ObjectOp :=
  [.addObjectVtable [47, 97] [97, 46, 98] { entries := [.property false 0 [80] [105] (some 0) none] },
    .addFallbackVtable [47] [99, 46, 100]
      { address := 1, entries := [.property false 0 [81] [105] (some 1) none] } none]

def fives : Callbacks Unit Nat :=
  { userdata := fun _ => (), find := fun _ _ => .absent, get := fun _ _ _ _ => some 5
    enumerate := fun _ _ => some [] }

theorem objectTree_splitObject : ObjectTree (objectRun splitObject) := by
  have h₁ := (objectTree_nil.exec (splitObject.get ⟨0, by decide⟩)).mpr
    (vtableClean_of_free (by decide +kernel))
  exact (h₁.exec (splitObject.get ⟨1, by decide⟩)).mpr (vtableClean_of_free (by decide +kernel))

theorem getAll_agrees_iff_own : interfaceNameIsValid [97, 46, 98] = true ∧
    GetAllAgrees fives (objectRun splitObject) [47, 97] [97, 46, 98] := by
  refine ⟨by decide, (getAll_agrees_iff fives _ objectTree_splitObject [47, 97] [97, 46, 98]
    (by decide)).mpr ?_⟩
  have hs : serving (objectRun splitObject) ([47, 97], false) = [0] := by decide +kernel
  have hroot : serving (objectRun splitObject) ([47], true) = [1] := by decide +kernel
  have he : ((objectRun splitObject).slot 0).vtable.entries =
      [.property false 0 [80] [105] (some 0) none] := by decide +kernel
  have hfound : nodeVtableGetUserdata fives (objectRun splitObject) [47, 97] 0 = .object () := by
    decide +kernel
  have hd : decidingPlace fives (objectRun splitObject) [47, 97] (consultOrder [47, 97]) false =
      some (false, ([47, 97], false), 1, [([47], true)]) := by decide +kernel
  rintro found x n l hd'
  obtain ⟨rfl, rfl, rfl, rfl⟩ : false = found ∧ ([47, 97], false) = x ∧ 1 = n ∧ [([47], true)] = l := by
    simpa using hd.symm.trans hd'
  refine ⟨?_, ?_⟩
  · rintro member - v ⟨s, e, u, hdec, -, -⟩
    obtain rfl : s = 0 := by simpa [hs] using hdec.serves
    obtain rfl : e = .property false 0 [80] [105] (some 0) none := by simpa [he] using hdec.entry
    refine ⟨⟨fun s hm => ?_, fun s hm _ _ u _ e _ _ => rfl⟩, 0, _, hdec, by decide, by decide +kernel⟩
    obtain rfl : s = 0 := by simpa [hs] using hm
    rw [hfound]
    exact nofun
  · rintro - member - - v ⟨pre, x, post, hl, -, s, e, u, hdec, -⟩
    have hx : x ∈ [(([47] : Str), true)] := by simp [hl]
    obtain rfl := List.mem_singleton.mp hx
    obtain rfl : s = 1 := by simpa [hroot] using hdec.serves
    exact absurd hdec.interface (by decide +kernel)

/-- `GetAll` stops at the path, which lacks the interface of the root; `Get` reads its property. -/
theorem not_getAll_agrees : ¬∀ (cb : Callbacks Unit Nat) (b : ObjBus), ObjectTree b →
    ∀ path iface, interfaceNameIsValid iface = true → GetAllAgrees cb b path iface := by
  intro h
  have hag := h fives _ objectTree_splitObject [47, 97] [99, 46, 100] (by decide)
  have hu : processGetAll fives (objectRun splitObject) [47, 97] [99, 46, 100] =
      .unknownInterface := by decide +kernel
  have hv : processGet fives (objectRun splitObject) [47, 97] [99, 46, 100] [81] = .reply 5 := by
    decide +kernel
  exact hag.unknown hu [81] 5 hv

end Basu.Steady
