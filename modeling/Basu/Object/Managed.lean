import Basu.Object.Signals
import Mathlib.Data.List.Nodup

/-! `GetManagedObjects`: for each path below an object manager one entry is written for every place
that serves the path, so the reply is a map exactly if no path is served at two places. -/

namespace Basu.Steady
open Lib

variable {U V : Type}

section
variable (cb : Callbacks U V) (b : ObjBus)

def addEnumeratedToSet (served : Str) : List Nat → List Str → Option (List Str)
  | [], set => some set
  | s :: l, set => (cb.enumerate s served).bind fun children =>
    if !children.all objectPathIsValid then none
    else addEnumeratedToSet served l
      ((children.filter fun k => objectPathStartswith k served).foldl (fun set k => set.insert k) set)

def addChildrenToSet (served : Str) (recursive : Bool)
    (subtree : Nat → List Str → Option (List Str)) : List Nat → List Str → Option (List Str)
  | [], set => some set
  | i :: l, set =>
    if !objectPathStartswith (b.node i).path served then
      addChildrenToSet served recursive subtree l set
    else if recursive && ((b.node i).attached .objectManager).isEmpty then
      (subtree i (set.insert (b.node i).path)).bind (addChildrenToSet served recursive subtree l)
    else addChildrenToSet served recursive subtree l (set.insert (b.node i).path)

def addSubtreeToSet (served : Str) (recursive : Bool) : Nat → Nat → List Str → Option (List Str)
  | 0, _, _ => none
  | fuel + 1, n, set =>
    (addEnumeratedToSet cb served ((b.node n).attached .enumerator) set).bind
      (addChildrenToSet b served recursive (addSubtreeToSet served recursive fuel) (b.node n).child)

def getChildNodes (served : Str) (n : Nat) (recursive : Bool) : Option (List Str) :=
  addSubtreeToSet cb b served recursive (b.nNodes + 1) n []

def insideObject (d : OpenMessage V) (path : Str) : OpenMessage V :=
  ((d.openContainer typeEntry (str "oa{sa{sv}}")).append (.string path)).openContainer typeArray
    (str "{sa{sv}}")

def openObject (d : OpenMessage V) (path : Str) : OpenMessage V :=
  builtinInterfaces.foldl writeBare (insideObject d path)

def serializeLoop (path : Str) (requireFallback : Bool) :
    List Nat → Bool → Option Str → OpenMessage V → Option (OpenMessage V)
  | [], found, previous, d => (closeInterface d previous).bind fun d =>
    if found then d.closeContainer.bind OpenMessage.closeContainer else some d
  | i :: l, found, previous, d =>
    if passedOver b requireFallback i then serializeLoop path requireFallback l found previous d
    else match nodeVtableGetUserdata cb b path i with
      | .failed => none
      | .absent => serializeLoop path requireFallback l found previous d
      | .object u =>
        let d := if found then d else openObject d path
        (if some (b.slot i).interface = previous then some d
          else (closeInterface d previous).map fun d => openInterface d (b.slot i).interface).bind
            fun d => (appendAllTo cb b path i u d).bind
              (serializeLoop path requireFallback l true (some (b.slot i).interface))

def objectManagerSerializePath (path p : Str) (requireFallback : Bool) (d : OpenMessage V) :
    Option (OpenMessage V) :=
  match b.getNode p with
  | none => some d
  | some n => serializeLoop cb b path requireFallback (b.vtables n) false none d

def serializePlaces (path : Str) : List (Str × Bool) → OpenMessage V → Option (OpenMessage V)
  | [], d => some d
  | x :: l, d => (objectManagerSerializePath cb b path x.1 x.2 d).bind (serializePlaces path l)

def serializePathAndFallbacks (path : Str) (d : OpenMessage V) : Option (OpenMessage V) :=
  serializePlaces cb b path (consultOrder path) d

def managedLoop : List Str → OpenMessage V → Option (OpenMessage V)
  | [], d => some d
  | p :: l, d => (serializePathAndFallbacks cb b p d).bind (managedLoop l)

def processGetManagedObjects (setOrder : List Str → List Str) (path : Str) (requireFallback : Bool)
    (n : Nat) : Option (Outcome (List (Content V))) :=
  if requireFallback || ((b.node n).attached .objectManager).isEmpty then none
  else match getChildNodes cb b path n true with
    | none => some .failed
    | some set =>
      match (managedLoop cb b (setOrder set)
          (({} : OpenMessage V).openContainer typeArray (str "{oa{sa{sv}}}"))).bind fun d =>
        d.closeContainer.bind OpenMessage.sealMessage with
      | none => some .failed
      | some body => some (.reply body)

def processGetManaged (setOrder : List Str → List Str) (path : Str) : Outcome (List (Content V)) :=
  placesRun cb b path
    (fun _ requireFallback n _ => processGetManagedObjects cb b setOrder path requireFallback n)
    .unknownMethod (consultOrder path) false

end

def objectEntry (path : Str) (interfaces : List (Content V)) : Content V :=
  .container typeEntry (str "oa{sa{sv}}")
    [.string path, .container typeArray (str "{sa{sv}}") interfaces]

def builtinEntries : List (Str × List (Property V)) := builtinInterfaces.map fun i => (i, [])

section
variable (cb : Callbacks U V) (b : ObjBus) (path : Str)

def hasObject (s : Nat) : Bool :=
  match nodeVtableGetUserdata cb b path s with
  | .object _ => true
  | _ => false

def servesPath (x : Str × Bool) : Bool := (serving b x).any (hasObject cb b path)

def servingPlaces : List (Str × Bool) := (consultOrder path).filter (servesPath cb b path)

end

section
variable {cb : Callbacks U V} {b : ObjBus} {path : Str} {s n : Nat} {x : Str × Bool} {rf : Bool}

theorem openObject_under (d : OpenMessage V) :
    openObject d path = under (insideObject d path) builtinEntries none := by
  have h := writeBares_under (insideObject d path) builtinInterfaces []
  rwa [under_nil] at h

theorem closeObject_under (d : OpenMessage V) (done : List (Str × List (Property V))) :
    (under (insideObject d path) done none).closeContainer.bind OpenMessage.closeContainer =
      some (d.append (objectEntry path (done.map interfaceEntry))) := by
  simp [under, insideObject, OpenMessage.closeContainer, OpenMessage.openContainer,
    OpenMessage.append, objectEntry]

theorem serializeLoop_silent (l : List Nat) {d d' : OpenMessage V}
    (hno : ∀ s ∈ l.filter fun s => !passedOver b rf s, hasObject cb b path s = false)
    (h : serializeLoop cb b path rf l false none d = some d') :
    d' = d ∧ ∀ s ∈ l.filter fun s => !passedOver b rf s,
      nodeVtableGetUserdata cb b path s = .absent := by
  induction l with
  | nil =>
    obtain rfl : d = d' := by simpa [serializeLoop, closeInterface] using h
    simp
  | cons s l ih =>
    unfold serializeLoop at h
    rcases hp : passedOver b rf s with _ | _
    · simp only [List.filter_cons, hp, Bool.not_false, if_true, List.forall_mem_cons] at hno ⊢
      obtain ⟨hs, hno⟩ := hno
      simp only [hp, Bool.false_eq_true, if_false] at h
      split at h
      · cases h
      · next hu =>
        obtain ⟨rfl, hl⟩ := ih hno h
        exact ⟨rfl, hu, hl⟩
      · next u hu => simp [hasObject, hu] at hs
    · simp only [List.filter_cons, hp, Bool.not_true, Bool.false_eq_true, if_false] at hno ⊢
      simp only [hp, if_true] at h
      exact ih hno h

theorem serializeLoop_found (l : List Nat) (d : OpenMessage V)
    (hyes : ∃ s ∈ l.filter fun s => !passedOver b rf s, hasObject cb b path s = true) :
    serializeLoop cb b path rf l false none d =
      serializeLoop cb b path rf l true none (openObject d path) := by
  induction l with
  | nil => simp at hyes
  | cons s l ih =>
    unfold serializeLoop
    rcases hp : passedOver b rf s with _ | _
    · simp only [List.filter_cons, hp, Bool.not_false, if_true, List.exists_mem_cons_iff] at hyes
      simp only [Bool.false_eq_true, if_false]
      rcases hu : nodeVtableGetUserdata cb b path s with _ | u | _
      · exact ih (hyes.resolve_left (by simp [hasObject, hu]))
      · rfl
      · rfl
    · simp only [List.filter_cons, hp, Bool.not_true, Bool.false_eq_true, if_false] at hyes
      simp only [if_true]
      exact ih hyes

variable (b) in
/-- The interfaces of the list come grouped behind the one whose entry is open, and none of them was
handled before but that one. -/
structure Upcoming (l : List Nat) (last : Option Str) (set : List Str) : Prop where
  grouped : Grouped (last.toList ++ l.map fun s => (b.slot s).interface)
  fresh : ∀ i ∈ set, last = some i ∨ ∀ s ∈ l, (b.slot s).interface ≠ i

theorem Upcoming.tail {l : List Nat} {last : Option Str} {set : List Str}
    (h : Upcoming b (s :: l) last set) : Upcoming b l last set where
  grouped := h.grouped.sublist ((List.Sublist.refl _).append (List.sublist_cons_self _ _))
  fresh i hi := (h.fresh i hi).imp_right fun hno t ht => hno t (List.mem_cons_of_mem _ ht)

theorem Upcoming.next {l : List Nat} {last : Option Str} {set : List Str}
    (h : Upcoming b (s :: l) last set) (hne : some (b.slot s).interface ≠ last) :
    (b.slot s).interface ∉ set ∧
      Upcoming b l (some (b.slot s).interface) ((b.slot s).interface :: set) := by
  refine ⟨fun hm => ?_, h.grouped.sublist ?_, fun i hi => ?_⟩
  · rcases h.fresh _ hm with hl | hno
    · exact hne hl.symm
    · exact hno s List.mem_cons_self rfl
  · simp
  · rcases List.mem_cons.mp hi with rfl | hi
    · exact Or.inl rfl
    right
    rintro t ht rfl
    rcases h.fresh _ hi with hl | hno
    · -- The interface that was open does not come again behind another one.
      refine hne ?_
      have hsub : [(b.slot t).interface, (b.slot s).interface, (b.slot t).interface].Sublist
          (last.toList ++ (s :: l).map fun s => (b.slot s).interface) := by
        rw [hl]
        refine List.Sublist.cons_cons _ (List.Sublist.cons_cons _ ?_)
        exact List.singleton_sublist.mpr (List.mem_map_of_mem ht)
      rw [hl, h.grouped _ _ hsub]
    · exact hno t (List.mem_cons_of_mem _ ht) rfl

theorem serializeLoop_spec {e d' : OpenMessage V} (l : List Nat) :
    ∀ (last : Option (Str × List (Property V))) {set : List Str}
      {done : List (Str × List (Property V))},
    Upcoming b l (last.map Prod.fst) set →
    serializeLoop cb b path rf l true (last.map Prod.fst)
      (under (insideObject e path) done last) = some d' →
    ∃ entries, d' = e.append (objectEntry path ((done ++ entries).map interfaceEntry)) ∧
      ∀ (d : OpenMessage V) (done' : List (Str × List (Property V))), ∃ set',
        objectAddedLoop cb b path rf l (last.map Prod.fst) set (under d done' last) =
          some (set', under d (done' ++ entries) none) := by
  induction l with
  | nil =>
    intro last set done _ h
    unfold serializeLoop at h
    rw [closeInterface_under, Option.bind_some, if_pos rfl, closeObject_under] at h
    refine ⟨last.toList, (Option.some.inj h).symm, fun d done' => ⟨set, ?_⟩⟩
    unfold objectAddedLoop
    rw [closeInterface_under]
    rfl
  | cons s l ih =>
    intro last set done hup h
    unfold serializeLoop at h
    unfold objectAddedLoop
    cases hp : passedOver b rf s with
    | true =>
      simp only [hp, if_true] at h ⊢
      exact ih _ hup.tail h
    | false =>
    simp only [hp, Bool.false_eq_true, if_false] at h ⊢
    cases hu : nodeVtableGetUserdata cb b path s with
    | failed => simp only [hu, reduceCtorEq] at h
    | absent =>
      simp only [hu] at h ⊢
      exact ih _ hup.tail h
    | object u =>
    simp only [hu, if_true] at h ⊢
    split at h
    · next hi =>
      simp only [hi, if_true]
      rcases last with _ | x
      · exact absurd hi nofun
      rw [Option.bind_some] at h
      obtain ⟨d₁, hd₁, h⟩ := Option.bind_eq_some_iff.mp h
      obtain ⟨ps, hps, rfl⟩ := appendAllTo_under hd₁
      rw [hi] at h
      obtain ⟨entries, hd, hadd⟩ := ih (some (x.1, x.2 ++ ps)) hup.tail h
      refine ⟨entries, hd, fun d done' => ?_⟩
      rw [appendAllTo, hps, Option.bind_some, writeProperties_under, Option.bind_some]
      exact hadd d done'
    · next hi =>
      obtain ⟨hset, hup⟩ := hup.next hi
      simp only [hi, hset, if_false]
      rw [closeInterface_under, Option.map_some, Option.bind_some, openInterface_under] at h
      obtain ⟨d₁, hd₁, h⟩ := Option.bind_eq_some_iff.mp h
      obtain ⟨ps, hps, rfl⟩ := appendAllTo_under hd₁
      obtain ⟨entries, hd, hadd⟩ := ih (some ((b.slot s).interface, [] ++ ps)) hup h
      refine ⟨last.toList ++ entries, by rw [hd, List.append_assoc], fun d done' => ?_⟩
      rw [closeInterface_under, Option.bind_some, openInterface_under, appendAllTo, hps,
        Option.bind_some, writeProperties_under, Option.bind_some, ← List.append_assoc]
      exact hadd d (done' ++ last.toList)

theorem objectAddedLoop_silent (l : List Nat) (set : List Str) (d : OpenMessage V)
    (h : ∀ s ∈ l.filter fun s => !passedOver b rf s,
      nodeVtableGetUserdata cb b path s = .absent) :
    objectAddedLoop cb b path rf l none set d = some (set, d) := by
  induction l with
  | nil => rfl
  | cons s l ih =>
    unfold objectAddedLoop
    rcases hp : passedOver b rf s with _ | _
    · simp only [List.filter_cons, hp, Bool.not_false, if_true, List.forall_mem_cons] at h
      simp only [Bool.false_eq_true, if_false, h.1]
      exact ih h.2
    · simp only [List.filter_cons, hp, Bool.not_true, Bool.false_eq_true, if_false] at h
      simp only [if_true]
      exact ih h

variable (cb b path) in
/-- What is written of a path for the places: an entry for each that serves it, and if that is one
only, the interfaces that the signal announces. -/
structure Written (places : List (Str × Bool)) (objs : List (List (Str × List (Property V)))) :
    Prop where
  count : objs.length = (places.filter (servesPath cb b path)).length
  none : objs = [] → ∀ set (d : OpenMessage V), objectAddedPlaces cb b path places set d = some d
  one : ∀ e, objs = [e] → ∀ (d : OpenMessage V) done,
    objectAddedPlaces cb b path places [] (under d done Option.none) =
      some (under d (done ++ e) Option.none)

def writtenEntry (path : Str) (e : List (Str × List (Property V))) : Content V :=
  objectEntry path ((builtinEntries ++ e).map interfaceEntry)

theorem Written.silent {places : List (Str × Bool)} {objs : List (List (Str × List (Property V)))}
    (h : Written cb b path places objs) (hx : servesPath cb b path x = false)
    (hadd : ∀ set (d : OpenMessage V),
      objectAddedAppendAllPrefix cb b path x.1 x.2 set d = some (set, d)) :
    Written cb b path (x :: places) objs where
  count := by rw [List.filter_cons_of_neg (by simp [hx]), h.count]
  none ho set d := by
    rw [objectAddedPlaces, hadd, Option.bind_some]
    exact h.none ho set d
  one e ho d done := by
    rw [objectAddedPlaces, hadd, Option.bind_some]
    exact h.one e ho d done

theorem serializePlaces_spec (hb : OrderedSlots b) (places : List (Str × Bool)) :
    ∀ {d d' : OpenMessage V}, serializePlaces cb b path places d = some d' →
    ∃ objs, d' = { d with current := d.current ++ objs.map (writtenEntry path) } ∧
      Written cb b path places objs := by
  induction places with
  | nil =>
    intro d d' h
    obtain rfl := Option.some.inj h
    refine ⟨[], by simp, ⟨rfl, fun _ _ _ => rfl, fun e he => by cases he⟩⟩
  | cons x places ih =>
    intro d d' h
    obtain ⟨d₁, hd₁, h⟩ := Option.bind_eq_some_iff.mp h
    obtain ⟨objs, hd, hw⟩ := ih h
    unfold objectManagerSerializePath at hd₁
    cases hn : b.getNode x.1 with
    | none =>
      simp only [hn] at hd₁
      obtain rfl := Option.some.inj hd₁
      refine ⟨objs, hd, hw.silent (by simp [servesPath, serving, hn]) fun set d => ?_⟩
      simp [objectAddedAppendAllPrefix, hn]
    | some n =>
      simp only [hn] at hd₁
      rcases hx : servesPath cb b path x with _ | _
      · have hno := hx
        rw [servesPath, serving_of_node hn, List.any_eq_false] at hno
        obtain ⟨rfl, habsent⟩ := serializeLoop_silent (b.vtables n)
          (fun s hs => by simpa using hno s hs) hd₁
        refine ⟨objs, hd, hw.silent hx fun set d => ?_⟩
        simp only [objectAddedAppendAllPrefix, hn]
        exact objectAddedLoop_silent _ _ _ habsent
      · have hyes := hx
        rw [servesPath, serving_of_node hn, List.any_eq_true] at hyes
        rw [serializeLoop_found _ _ hyes, openObject_under] at hd₁
        have hup : Upcoming b (b.vtables n) ((Option.none : Option (Str × List (Property V))).map
            Prod.fst) [] := ⟨hb.grouped n, by simp⟩
        obtain ⟨e, hd₁, hadd⟩ := serializeLoop_spec _ none hup hd₁
        refine ⟨e :: objs, ?_, ?_, (fun he => by cases he), fun e' he d done => ?_⟩
        · rw [hd, hd₁]
          simp [OpenMessage.append, writtenEntry]
        · rw [List.filter_cons_of_pos hx, List.length_cons, List.length_cons, hw.count]
        · obtain ⟨rfl, rfl⟩ := List.cons.inj he
          obtain ⟨set', hset'⟩ := hadd d done
          rw [objectAddedPlaces, objectAddedAppendAllPrefix]
          simp only [hn]
          rw [Option.map_none] at hset'
          rw [hset', Option.bind_some]
          exact hw.none rfl _ _

def Content.objectPath : Content V → Option Str
  | .container _ _ [.string p, .container _ _ _] => some p
  | _ => none

def Listed (items : List (Content V)) (p : Str) (interfaces : List (Content V)) : Prop :=
  ∃ type contents type' contents',
    Content.container type contents [.string p, .container type' contents' interfaces] ∈ items

theorem managedLoop_spec (hb : OrderedSlots b) (paths : List Str) :
    ∀ {d d' : OpenMessage V}, managedLoop cb b paths d = some d' →
    ∃ items, d' = { d with current := d.current ++ items } ∧
      items.filterMap Content.objectPath =
        paths.flatMap (fun p => List.replicate (servingPlaces cb b p).length p) ∧
      ∀ p interfaces, Listed items p interfaces → p ∈ paths ∧
        ((servingPlaces cb b p).length ≤ 1 → ∃ e,
          interfaces = (builtinEntries ++ e).map interfaceEntry ∧
          ∀ (d : OpenMessage V), objectAddedAppendAll cb b p d =
            some (under d (builtinEntries ++ e) none)) := by
  induction paths with
  | nil =>
    intro d d' h
    obtain rfl := Option.some.inj h
    exact ⟨[], by simp, rfl, by simp [Listed]⟩
  | cons p paths ih =>
    intro d d' h
    obtain ⟨d₁, hd₁, h⟩ := Option.bind_eq_some_iff.mp h
    obtain ⟨objs, hobjs, hw⟩ := serializePlaces_spec hb _ hd₁
    obtain ⟨items, hd, hpaths, hlist⟩ := ih h
    refine ⟨objs.map (writtenEntry p) ++ items, by rw [hd, hobjs]; simp, ?_, ?_⟩
    · rw [List.filterMap_append, hpaths, List.flatMap_cons, List.filterMap_map,
        servingPlaces, ← hw.count]
      refine congrArg (· ++ _) ?_
      have hc : Content.objectPath ∘ writtenEntry (V := V) p = fun _ => some p := rfl
      rw [hc]
      clear hw hobjs
      induction objs with
      | nil => rfl
      | cons e objs ih => simp [List.replicate_succ, ih]
    · rintro q interfaces ⟨t, c, t', c', hm⟩
      rcases List.mem_append.mp hm with hm | hm
      · obtain ⟨e, he, heq⟩ := List.mem_map.mp hm
        unfold writtenEntry objectEntry at heq
        injection heq with _ _ heq
        obtain ⟨hp, hi⟩ := List.cons.inj heq
        injection hp with hp
        obtain ⟨hi, -⟩ := List.cons.inj hi
        injection hi with _ _ hi
        obtain rfl := hp
        refine ⟨List.mem_cons_self, fun hle => ⟨e, hi.symm, fun d => ?_⟩⟩
        have hone : objs = [e] := by
          rw [servingPlaces, ← hw.count] at hle
          obtain ⟨o, rfl⟩ := List.length_eq_one_iff.mp
            (Nat.le_antisymm hle (List.length_pos_of_mem he))
          rw [List.mem_singleton.mp he]
        have hbare := writeBares_under d builtinInterfaces []
        rw [under_nil, List.nil_append] at hbare
        rw [objectAddedAppendAll, hbare]
        exact hw.one e hone d _
      · obtain ⟨hq, hg⟩ := hlist q interfaces ⟨t, c, t', c', hm⟩
        exact ⟨List.mem_cons_of_mem _ hq, hg⟩

end

def Outcome.isReply {α : Type} : Outcome α → Bool
  | .reply _ => true
  | _ => false

theorem Outcome.exists_reply {α : Type} {o : Outcome α} (h : o.isReply = true) :
    ∃ a, o = .reply a := by
  cases o with
  | reply a => exact ⟨a, rfl⟩
  | _ => exact absurd h nofun

def managedItems (body : List (Content V)) : List (Content V) :=
  match body with
  | [.container _ _ items] => items
  | _ => []

def FromClosest (cb : Callbacks U V) (b : ObjBus) (path i : Str) (props : List (Content V)) : Prop :=
  ∃ pre x post, consultOrder path = pre ++ x :: post ∧ ServesInterface cb b path x i ∧
    (∀ y ∈ pre, ¬ServesInterface cb b path y i) ∧
    ∀ c ∈ props, ∃ s ∈ serving b x, ∃ p ∈ listedBy cb b path i s, c = p.content

/-- The reply lists a path once and an interface of it once, an interface with the properties of the
closest place, and of each path what the signal of added interfaces announces. -/
structure IsManagedMap (cb : Callbacks U V) (b : ObjBus) (items : List (Content V)) : Prop where
  once : (items.filterMap Content.objectPath).Nodup
  interfaces : ∀ p interfaces, Listed items p interfaces →
    (interfaces.filterMap Content.entryName).Nodup
  closest : ∀ p interfaces, Listed items p interfaces → ∀ type contents i type' contents' props,
    Content.container type contents [.string i, .container type' contents' props] ∈ interfaces →
      i ∉ builtinInterfaces → FromClosest cb b p i props
  announced : ∀ p interfaces, Listed items p interfaces →
    (∀ d, ∃ d', objectAddedAppendAll cb b p d = some d' ∧ d'.current = d.current ++ interfaces) ∧
      ∀ m, sdBusEmitObjectAdded cb b p = some m → m.items = interfaces

def managedPaths (cb : Callbacks U V) (b : ObjBus) (path : Str) : List Str :=
  ((b.getNode path).bind fun n => getChildNodes cb b path n true).getD []

section
variable {cb : Callbacks U V} {b : ObjBus} {path : Str}

theorem nodup_flatMap_replicate {l : List Str} (hl : l.Nodup) (f : Str → Nat) :
    (l.flatMap fun p => List.replicate (f p) p).Nodup ↔ ∀ p ∈ l, f p ≤ 1 := by
  induction l with
  | nil => simp
  | cons p l ih =>
    obtain ⟨hp, hl⟩ := List.nodup_cons.mp hl
    rw [List.flatMap_cons, List.nodup_append, ih hl, List.nodup_replicate, List.forall_mem_cons]
    refine and_congr_right fun _ => and_iff_left_of_imp fun _ a ha c hc => ?_
    rintro rfl
    obtain rfl := List.eq_of_mem_replicate ha
    obtain ⟨q, hq, hc⟩ := List.mem_flatMap.mp hc
    exact hp (List.eq_of_mem_replicate hc ▸ hq)

theorem interfaceEntry_injective : Function.Injective (interfaceEntry (V := V)) := by
  have hcontent : Function.Injective (Property.content (V := V)) := by
    rintro ⟨m, sig, v⟩ ⟨m', sig', v'⟩ h
    simpa [Property.content] using h
  rintro ⟨i, ps⟩ ⟨j, qs⟩ h
  obtain ⟨rfl, hps⟩ : i = j ∧ ps.map Property.content = qs.map Property.content := by
    simpa [interfaceEntry] using h
  rw [List.map_injective_iff.mpr hcontent hps]

theorem ServesInterface.servesPath {x : Str × Bool} {i : Str}
    (h : ServesInterface cb b path x i) : servesPath cb b path x = true := by
  obtain ⟨s, hs, ho⟩ := h
  obtain ⟨u, ho⟩ := Option.isSome_iff_exists.mp ho
  refine List.any_eq_true.mpr ⟨s, hs, ?_⟩
  simp only [hasObject, (objectOf_eq_some.mp ho).1]

theorem announced_entry (hb : OrderedSlots b) {e : List (Str × List (Property V))}
    (hone : (servingPlaces cb b path).length ≤ 1)
    (h : ∀ d : OpenMessage V, objectAddedAppendAll cb b path d =
      some (under d (builtinEntries ++ e) none)) :
    (((builtinEntries ++ e).map interfaceEntry).filterMap Content.entryName).Nodup ∧
      ∀ x ∈ e, FromClosest cb b path x.1 (x.2.map Property.content) := by
  obtain ⟨entries, hh, hd, hc⟩ := objectAddedAppendAll_spec (h {})
  obtain rfl : e = entries := by
    have hcur := congrArg OpenMessage.current hd
    have hinj := List.map_injective_iff.mpr (interfaceEntry_injective (V := V))
    exact List.append_cancel_left (hinj (List.append_cancel_left hcur))
  refine ⟨?_, fun x hx => ?_⟩
  · have hnames : ((builtinEntries ++ e).map interfaceEntry).filterMap Content.entryName =
        builtinInterfaces ++ e.map Prod.fst := by
      simp [List.filterMap_map, Content.entryName, interfaceEntry, builtinEntries,
        Function.comp_def]
    rw [hnames]
    exact (hh.announced hb).1
  · have hserve : ∃ y ∈ consultOrder path, ServesInterface cb b path y x.1 := by
      simpa [List.mem_map_of_mem hx] using hh.all x.1
    obtain ⟨y, hy, hyi⟩ := hserve
    obtain ⟨pre, post, hsplit⟩ := List.append_of_mem hy
    rw [servingPlaces, hsplit, List.filter_append, List.filter_cons_of_pos hyi.servesPath,
      List.length_append, List.length_cons] at hone
    have hpre : pre.filter (servesPath cb b path) = [] := List.eq_nil_of_length_eq_zero (by omega)
    have hpost : post.filter (servesPath cb b path) = [] :=
      List.eq_nil_of_length_eq_zero (by omega)
    rw [List.filter_eq_nil_iff] at hpre hpost
    refine ⟨pre, y, post, hsplit, hyi, fun z hz hzi => hpre z hz hzi.servesPath, fun c hcm => ?_⟩
    obtain ⟨p, hp, rfl⟩ := List.mem_map.mp hcm
    obtain ⟨z, hz, s, hs, hps⟩ := hc x hx p hp
    have hzi : ServesInterface cb b path z x.1 := by
      refine ⟨s, hs, ?_⟩
      rcases ho : objectOf cb b path x.1 s with _ | u
      · simp [listedBy, ho] at hps
      · rfl
    rw [hsplit] at hz
    rcases List.mem_append.mp hz with hz | hz
    · exact absurd hzi.servesPath (hpre z hz)
    rcases List.mem_cons.mp hz with rfl | hz
    · exact ⟨s, hs, p, hps, rfl⟩
    · exact absurd hzi.servesPath (hpost z hz)

theorem nodup_insertAll (l : List Str) : ∀ {set : List Str}, set.Nodup →
    (l.foldl (fun set k => set.insert k) set).Nodup := by
  induction l with
  | nil => exact fun h => h
  | cons k l ih => exact fun h => ih (List.Nodup.insert h)

theorem addEnumeratedToSet_nodup (served : Str) (l : List Nat) : ∀ {set set' : List Str},
    set.Nodup → addEnumeratedToSet cb served l set = some set' → set'.Nodup := by
  induction l with
  | nil => exact fun h he => Option.some.inj he ▸ h
  | cons s l ih =>
    intro set set' h he
    obtain ⟨children, -, he⟩ := Option.bind_eq_some_iff.mp he
    split at he
    · exact absurd he nofun
    · exact ih (nodup_insertAll _ h) he

theorem addChildrenToSet_nodup (served : Str) (recursive : Bool)
    {subtree : Nat → List Str → Option (List Str)}
    (hsub : ∀ i set set', set.Nodup → subtree i set = some set' → set'.Nodup) (l : List Nat) :
    ∀ {set set' : List Str}, set.Nodup →
      addChildrenToSet b served recursive subtree l set = some set' → set'.Nodup := by
  induction l with
  | nil => exact fun h he => Option.some.inj he ▸ h
  | cons i l ih =>
    intro set set' h he
    unfold addChildrenToSet at he
    split at he
    · exact ih h he
    split at he
    · obtain ⟨set₁, hset₁, he⟩ := Option.bind_eq_some_iff.mp he
      exact ih (hsub i _ _ (List.Nodup.insert h) hset₁) he
    · exact ih (List.Nodup.insert h) he

theorem addSubtreeToSet_nodup (served : Str) (recursive : Bool) (fuel : Nat) :
    ∀ (n : Nat) (set set' : List Str), set.Nodup →
      addSubtreeToSet cb b served recursive fuel n set = some set' → set'.Nodup := by
  induction fuel with
  | zero => exact fun _ _ _ _ he => absurd he nofun
  | succ fuel ih =>
    intro n set set' h he
    obtain ⟨set₁, hset₁, he⟩ := Option.bind_eq_some_iff.mp he
    exact addChildrenToSet_nodup served recursive ih _ (addEnumeratedToSet_nodup served _ h hset₁) he

theorem managedPaths_nodup : (managedPaths cb b path).Nodup := by
  unfold managedPaths
  rcases b.getNode path with _ | n
  · exact List.nodup_nil
  · rcases hc : getChildNodes cb b path n true with _ | set
    · simp only [Option.bind_some, hc]
      exact List.nodup_nil
    · simp only [Option.bind_some, hc]
      exact addSubtreeToSet_nodup path true _ n [] set List.nodup_nil hc

theorem placesRun_managed_fallbacks (setOrder : List Str → List Str) (body : List (Content V))
    (l : List Str) : ∀ found, placesRun cb b path
      (fun _ rf n _ => processGetManagedObjects cb b setOrder path rf n) .unknownMethod
      (l.map fun p => (p, true)) found ≠ .reply body := by
  induction l with
  | nil => intro found; cases found <;> exact nofun
  | cons p l ih =>
    intro found
    rw [List.map_cons]
    unfold placesRun objectFindAndRun
    rcases b.getNode p with _ | n
    · exact ih found
    simp only [processGetManagedObjects, Bool.true_or, if_true]
    split
    · next o ho =>
      split at ho
      · exact absurd ho nofun
      · split at ho
        · exact Step.ended.inj ho ▸ nofun
        · exact absurd ho nofun
        · exact absurd ho nofun
    · exact ih _

theorem processGetManaged_reply {setOrder : List Str → List Str} {body : List (Content V)}
    (h : processGetManaged cb b setOrder path = .reply body) : ∃ d,
      managedLoop cb b (setOrder (managedPaths cb b path))
        (({} : OpenMessage V).openContainer typeArray (str "{oa{sa{sv}}}")) = some d ∧
      d.closeContainer.bind OpenMessage.sealMessage = some body := by
  unfold processGetManaged consultOrder placesRun objectFindAndRun at h
  rcases hn : b.getNode path with _ | n
  · simp only [hn] at h
    exact absurd h (placesRun_managed_fallbacks setOrder body _ _)
  simp only [hn] at h
  rcases hm : ((b.node n).attached .objectManager).isEmpty with _ | _
  · simp only [processGetManagedObjects, hm, Bool.or_false, Bool.false_eq_true, if_false] at h
    rcases hc : getChildNodes cb b path n true with _ | set
    · simp only [hc] at h
      exact absurd h nofun
    have hpaths : managedPaths cb b path = set := by
      simp only [managedPaths, hn, Option.bind_some, hc, Option.getD_some]
    rw [hpaths]
    simp only [hc] at h
    rcases hl : (managedLoop cb b (setOrder set) (({} : OpenMessage V).openContainer typeArray
        (str "{oa{sa{sv}}}"))).bind fun d => d.closeContainer.bind OpenMessage.sealMessage with
      _ | body'
    · simp only [hl] at h
      exact absurd h nofun
    · simp only [hl, Outcome.reply.injEq] at h
      subst h
      exact Option.bind_eq_some_iff.mp hl
  · simp only [processGetManagedObjects, hm, Bool.or_true, if_true] at h
    exfalso
    revert h
    split
    · next o ho =>
      split at ho
      · exact absurd ho nofun
      · split at ho
        · exact Step.ended.inj ho ▸ nofun
        · exact absurd ho nofun
        · exact absurd ho nofun
    · exact fun h => placesRun_managed_fallbacks setOrder body _ _ h

end

/-- On every object tree that calls have made, in whatever order sets are gone through, a reply to
`GetManagedObjects` is a map that agrees with the signals exactly if no path below the manager is
served at more than one place. -/
theorem managed_isMap_iff (ops : List ObjectOp) (cb : Callbacks U V)
    (setOrder : List Str → List Str) (horder : ∀ l, (setOrder l).Perm l) (path : Str)
    (body : List (Content V)) (h : processGetManaged cb (objectRun ops) setOrder path = .reply body) :
    IsManagedMap cb (objectRun ops) (managedItems body) ↔
      ∀ p ∈ managedPaths cb (objectRun ops) path,
        (servingPlaces cb (objectRun ops) p).length ≤ 1 := by
  obtain ⟨hb, -⟩ := orderedSlots_objectRun ops
  generalize objectRun ops = b at hb h
  obtain ⟨d, hd, hbody⟩ := processGetManaged_reply h
  obtain ⟨items, rfl, hpaths, hlist⟩ := managedLoop_spec hb _ hd
  obtain rfl : [.container typeArray (str "{oa{sa{sv}}}") items] = body := by
    simpa [OpenMessage.openContainer, OpenMessage.closeContainer, OpenMessage.sealMessage] using hbody
  have hnodup : (setOrder (managedPaths cb b path)).Nodup :=
    (horder _).nodup_iff.mpr managedPaths_nodup
  have honce : (items.filterMap Content.objectPath).Nodup ↔
      ∀ p ∈ managedPaths cb b path, (servingPlaces cb b p).length ≤ 1 := by
    rw [hpaths, nodup_flatMap_replicate hnodup]
    simp only [(horder _).mem_iff]
  refine ⟨fun hmap => honce.mp hmap.once, fun hone => ?_⟩
  have hentry : ∀ p interfaces, Listed items p interfaces → ∃ e,
      interfaces = (builtinEntries ++ e).map interfaceEntry ∧
      (∀ d : OpenMessage V, objectAddedAppendAll cb b p d =
        some (under d (builtinEntries ++ e) none)) ∧
      (interfaces.filterMap Content.entryName).Nodup ∧
      ∀ x ∈ e, FromClosest cb b p x.1 (x.2.map Property.content) := by
    intro p interfaces hl
    obtain ⟨hp, he⟩ := hlist p interfaces hl
    have hle := hone p ((horder _).mem_iff.mp hp)
    obtain ⟨e, rfl, hadd⟩ := he hle
    exact ⟨e, rfl, hadd, announced_entry hb hle hadd⟩
  refine ⟨honce.mpr hone, fun p interfaces hl => ?_, fun p interfaces hl => ?_,
    fun p interfaces hl => ⟨fun d => ?_, fun m hm => ?_⟩⟩
  · obtain ⟨e, -, -, hn, -⟩ := hentry p interfaces hl
    exact hn
  · obtain ⟨e, rfl, -, -, hc⟩ := hentry p interfaces hl
    intro t c i t' c' props hm hi
    obtain ⟨x, hx, heq⟩ := List.mem_map.mp hm
    unfold interfaceEntry at heq
    injection heq with _ _ heq
    obtain ⟨hxi, hrest⟩ := List.cons.inj heq
    injection hxi with hxi
    obtain ⟨hprops, -⟩ := List.cons.inj hrest
    injection hprops with _ _ hprops
    rw [← hxi, ← hprops]
    rcases List.mem_append.mp hx with hx | hx
    · obtain ⟨j, hj, rfl⟩ := List.mem_map.mp hx
      exact absurd (hxi ▸ hj) hi
    · exact hc x hx
  · obtain ⟨e, rfl, hadd, -⟩ := hentry p interfaces hl
    exact ⟨_, hadd d, rfl⟩
  · obtain ⟨e, rfl, hadd, -⟩ := hentry p interfaces hl
    obtain ⟨d, hd, hitems⟩ := emitWith_items hm
    rw [hadd] at hd
    exact hitems _ ((Option.some.inj hd).symm.trans rfl)

def managedObject : List ObjectOp :=
  [.addObjectManager [47],
    .addObjectVtable [47, 97] [97, 46, 98] { entries := [.property false 0 [80] [105] (some 0) none] }]

theorem managed_isMap_iff_own : ∃ body,
    processGetManaged fives (objectRun managedObject) id [47] = .reply body ∧
      IsManagedMap fives (objectRun managedObject) (managedItems body) := by
  obtain ⟨body, hbody⟩ : ∃ body,
      processGetManaged fives (objectRun managedObject) id [47] = .reply body :=
    Outcome.exists_reply (by decide +kernel)
  exact ⟨body, hbody, (managed_isMap_iff managedObject fives id (fun l => .refl l) [47] body
    hbody).mpr (by decide +kernel)⟩

/-- The root manages `/a`, which it serves as well as the node of `/a`. -/
def managedSplit : List ObjectOp := splitObject ++ [.addObjectManager [47]]

/-- The reply lists `/a` twice. -/
theorem not_managed_isMap : ¬∀ (ops : List ObjectOp) (cb : Callbacks Unit Nat)
    (setOrder : List Str → List Str), (∀ l, (setOrder l).Perm l) → ∀ path body,
      processGetManaged cb (objectRun ops) setOrder path = .reply body →
        IsManagedMap cb (objectRun ops) (managedItems body) := by
  intro h
  obtain ⟨body, hbody⟩ : ∃ body,
      processGetManaged fives (objectRun managedSplit) id [47] = .reply body :=
    Outcome.exists_reply (by decide +kernel)
  have honce := (h managedSplit fives id (fun l => .refl l) [47] body hbody).once
  have hpaths : (match processGetManaged fives (objectRun managedSplit) id [47] with
      | .reply body => (managedItems body).filterMap Content.objectPath
      | _ => []) = [[47, 97], [47, 97]] := by decide +kernel
  rw [hbody] at hpaths
  dsimp only at hpaths
  rw [hpaths] at honce
  exact absurd honce (by decide)

end Basu.Steady
