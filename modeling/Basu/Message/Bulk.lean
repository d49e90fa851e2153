import Basu.Message.Body

/-! Arrays of numbers that are appended at once (`sd_bus_message_append_array` and
`sd_bus_message_append_array_iovec`) and element by element. Where the array fits both leave the
same message, down to the parts of its body. -/

namespace Basu
open Lib

def sdBusMessageAppendArraySpace (m : Message) (type : UInt8) (fill : Bytes) :
    Except Errno Unit × Message :=
  if m.sealed then (.error .eperm, m)
  else if busTypeIsTrivial type = false ∨ type = sdBusTypeBoolean then (.error .einval, m)
  else if m.poisoned then (.error .estale, m)
  else match busTypeGetAlignment type, busTypeGetSize type with
    | some align, some sz =>
      if fill.length % sz ≠ 0 then (.error .einval, m)
      else match sdBusMessageOpenContainer m sdBusTypeArray [type] with
        | (.error r, m) => (.error r, m)
        | (.ok (), m) =>
          match messageExtendBody m align fill false with
          | (none, m) => (.error .enomem, m)
          | (some _, m) => sdBusMessageCloseContainer m
    -- every trivial type has an alignment and a size
    | _, _ => (.error .einval, m)

def sdBusMessageAppendArray (m : Message) (type : UInt8) (fill : Bytes) :
    Except Errno Unit × Message :=
  if m.sealed then (.error .eperm, m)
  else if busTypeIsTrivial type = false then (.error .einval, m)
  else if m.poisoned then (.error .estale, m)
  else sdBusMessageAppendArraySpace m type fill

inductive IoVec
  | base (bs : Bytes)
  | null (len : Nat)

def IoVec.bytes : IoVec → Bytes
  | .base bs => bs
  | .null len => zeros len

def iovecBytes (iov : List IoVec) : Bytes := (iov.map IoVec.bytes).flatten

def sdBusMessageAppendArrayIovec (m : Message) (type : UInt8) (iov : List IoVec) :
    Except Errno Unit × Message :=
  if m.sealed then (.error .eperm, m)
  else if busTypeIsTrivial type = false then (.error .einval, m)
  else if m.poisoned then (.error .estale, m)
  else sdBusMessageAppendArraySpace m type (iovecBytes iov)

/-- `sd_bus_message_append_array_memfd`, with the contents of the file; the part is sealed, and the
size of the body is not checked. -/
def sdBusMessageAppendArrayMemfd (m : Message) (type : UInt8) (contents : Bytes) :
    Except Errno Unit × Message :=
  if busTypeIsTrivial type = false then (.error .einval, m)
  else if contents.length = 0 then (.error .einval, m)
  else if m.sealed then (.error .eperm, m)
  else if m.poisoned then (.error .estale, m)
  else match busTypeGetAlignment type, busTypeGetSize type with
    | some align, some sz =>
      if contents.length % sz ≠ 0 then (.error .einval, m)
      else if uint32Max < contents.length then (.error .einval, m)
      else match sdBusMessageOpenContainer m sdBusTypeArray [type] with
        | (.error r, m) => (.error r, m)
        | (.ok (), m) =>
          match messageExtendBody m align [] false with
          | (none, m) => (.error .enomem, m)
          | (some _, m) =>
            sdBusMessageCloseContainer <| messageExtendContainers
              { m with
                parts := m.parts ++ [{ data := contents, sealed := true }]
                bodySize := m.bodySize + contents.length } contents.length
    | _, _ => (.error .einval, m)

def appendStringWith (m : Message) (write : Message → Except Errno Unit × Message) :
    Except Errno Unit × Message :=
  let c := messageGetLastContainer m
  if c.cur ≠ 0 then if c.cur ≠ sdBusTypeString then (.error .enxio, m) else write m
  else if c.enclosing ≠ 0 then (.error .enxio, m)
  else write (m.strextendSignature [sdBusTypeString])

def Message.countString (m : Message) : Message :=
  let c := messageGetLastContainer m
  if c.enclosing = sdBusTypeArray then m else m.setIndex (c.index + 1)

/-- `sd_bus_message_append_string_space`, with what the caller copies into the space. -/
def sdBusMessageAppendStringSpace (m : Message) (s : Bytes) : Except Errno Unit × Message :=
  if m.sealed then (.error .eperm, m)
  else if m.poisoned then (.error .estale, m)
  else appendStringWith m fun m =>
    match messageExtendBody m 4 (strBytes m.endian s) false with
    | (none, m) => (.error .enomem, m)
    | (some _, m) => (.ok (), m.countString)

/-- `sd_bus_message_append_string_memfd`, with the contents of the file, the NUL included. -/
def sdBusMessageAppendStringMemfd (m : Message) (contents : Bytes) :
    Except Errno Unit × Message :=
  if contents.length = 0 then (.error .einval, m)
  else if m.sealed then (.error .eperm, m)
  else if m.poisoned then (.error .estale, m)
  else if uint32Max < contents.length then (.error .einval, m)
  else appendStringWith m fun m =>
    match messageExtendBody m 4 (putWord m.endian 4 (contents.length - 1)) false with
    | (none, m) => (.error .enomem, m)
    | (some _, m) =>
      let m := messageExtendContainers
        { m with
          parts := m.parts ++ [{ data := contents, sealed := true }]
          bodySize := m.bodySize + contents.length } contents.length
      (.ok (), m.countString)

/-! ## The element writer -/

def execAll (m : Message) : List Op → Except Errno Unit × Message
  | [] => (.ok (), m)
  | op :: ops =>
    match op.exec m with
    | (.error r, m) => (.error r, m)
    | (.ok (), m) => execAll m ops

def Num.sig (t : Num) : CStr := ⟨[t.code], by cases t <;> decide⟩

def numBytes (e : Endian) (t : Num) (xs : List (BitVec (8 * t.size))) : Bytes :=
  xs.flatMap fun x => putWord e t.size x.toNat

def elementOps (t : Num) (xs : List (BitVec (8 * t.size))) : List Op :=
  .openContainer sdBusTypeArray t.sig ::
    (xs.map (fun x => .appendBasic (.num t x)) ++ [.closeContainer])

def appendElements (m : Message) (t : Num) (xs : List (BitVec (8 * t.size))) :
    Except Errno Unit × Message := execAll m (elementOps t xs)

/-! ## Messages under construction -/

inductive DraftOp
  | call (op : Op)
  | appendArray (type : UInt8) (fill : Bytes)
  | appendArrayIovec (type : UInt8) (iov : List IoVec)
  | appendArrayMemfd (type : UInt8) (contents : Bytes)
  | appendStringSpace (s : Bytes)
  | appendStringMemfd (contents : Bytes)

def DraftOp.exec (m : Message) : DraftOp → Message
  | .call op => (op.exec m).2
  | .appendArray type fill => (sdBusMessageAppendArray m type fill).2
  | .appendArrayIovec type iov => (sdBusMessageAppendArrayIovec m type iov).2
  | .appendArrayMemfd type contents => (sdBusMessageAppendArrayMemfd m type contents).2
  | .appendStringSpace s => (sdBusMessageAppendStringSpace m s).2
  | .appendStringMemfd contents => (sdBusMessageAppendStringMemfd m contents).2

def draftRun (e : Endian) (header : Header) (ops : List DraftOp) : Message :=
  ops.foldl DraftOp.exec { endian := e, header := header }

/-! ## The parts of the body -/

def Container.Points (parts : List Part) (c : Container) : Prop :=
  ∀ loc, c.arraySize = some loc → ∃ pos, LocAt parts loc pos

def Container.Apart (c d : Container) : Prop :=
  ∀ loc loc', c.arraySize = some loc → d.arraySize = some loc' →
    loc.1 ≠ loc'.1 ∨ loc'.2 + 4 ≤ loc.2

structure PointersOk (parts : List Part) (cs : List Container) : Prop where
  points : ∀ c ∈ cs, c.Points parts
  apart : cs.Pairwise Container.Apart

theorem Container.Points.mono {parts parts' : List Part} {c : Container} (h : c.Points parts)
    (hloc : ∀ loc pos, LocAt parts loc pos → LocAt parts' loc pos) : c.Points parts' := by
  intro loc hc
  obtain ⟨pos, hl⟩ := h loc hc
  exact ⟨pos, hloc loc pos hl⟩

theorem Container.Points.addArraySize {parts : List Part} {c d : Container}
    (hd : d.Points parts) (e : Endian) (n : Nat) (hc : c.Points parts) :
    c.Points (addArraySize e n d parts) := by
  unfold Basu.addArraySize
  cases hloc : d.arraySize with
  | none => exact hc
  | some loc =>
    obtain ⟨pos, hl⟩ := hd loc hloc
    exact hc.mono fun _ _ h => h.modify hl e n

theorem Container.Points.foldr {parts : List Part} {c : Container} {cs : List Container}
    (hcs : ∀ d ∈ cs, d.Points parts) (e : Endian) (n : Nat) (hc : c.Points parts) :
    c.Points (cs.foldr (Basu.addArraySize e n) parts) := by
  induction cs generalizing c with
  | nil => exact hc
  | cons d cs ih =>
    have hrest : ∀ d ∈ cs, d.Points parts := fun d hd => hcs d (List.mem_cons_of_mem _ hd)
    exact (ih hrest (hcs d (List.mem_cons_self))).addArraySize e n (ih hrest hc)

theorem addArraySize_twice (e : Endian) (j k : Nat) {parts : List Part} {c : Container}
    (hc : c.Points parts) :
    addArraySize e k c (addArraySize e j c parts) = addArraySize e (j + k) c parts := by
  unfold addArraySize
  cases hloc : c.arraySize with
  | none => rfl
  | some loc =>
    obtain ⟨pos, ps, q, qs, rfl, hlen, hoff, -⟩ := hc loc hloc
    simp only [← hlen, modify_append_cons, addWord_addWord e j k hoff]

theorem addArraySize_comm (e : Endian) (j k : Nat) {parts : List Part} {c d : Container}
    (hc : c.Points parts) (hd : d.Points parts) (h : c.Apart d) :
    addArraySize e k c (addArraySize e j d parts) =
      addArraySize e j d (addArraySize e k c parts) := by
  unfold addArraySize
  cases hlc : c.arraySize with
  | none => rfl
  | some loc =>
    cases hld : d.arraySize with
    | none => rfl
    | some loc' =>
      simp only
      by_cases hne : loc.1 = loc'.1
      · -- in one part the word of `c` is the one further back
        have hback := (h loc loc' hlc hld).resolve_left (not_not.mpr hne)
        obtain ⟨pos, ps, q, qs, rfl, hlen, hoff, -⟩ := hc loc hlc
        rw [← hne, ← hlen]
        simp only [modify_append_cons, addWord_comm e j k hback hoff]
      · rw [List.modify_modify_ne _ _ _ hne]

theorem addArraySize_foldr (e : Endian) (j k : Nat) {parts : List Part} {c : Container}
    {cs : List Container} (hc : c.Points parts) (hcs : ∀ d ∈ cs, d.Points parts)
    (h : ∀ d ∈ cs, c.Apart d) :
    cs.foldr (addArraySize e k) (addArraySize e j c parts) =
      addArraySize e j c (cs.foldr (addArraySize e k) parts) := by
  induction cs with
  | nil => rfl
  | cons d cs ih =>
    have hrest : ∀ d ∈ cs, d.Points parts := fun d hd => hcs d (List.mem_cons_of_mem _ hd)
    rw [List.foldr_cons, List.foldr_cons,
      ih hrest (fun d hd => h d (List.mem_cons_of_mem _ hd))]
    exact (addArraySize_comm e k j (hc.foldr hrest e k)
      ((hcs d List.mem_cons_self).foldr hrest e k) (h d List.mem_cons_self)).symm

theorem PointersOk.foldr_twice {parts : List Part} {cs : List Container}
    (h : PointersOk parts cs) (e : Endian) (j k : Nat) :
    cs.foldr (addArraySize e k) (cs.foldr (addArraySize e j) parts) =
      cs.foldr (addArraySize e (j + k)) parts := by
  induction cs with
  | nil => rfl
  | cons c cs ih =>
    have hrest : ∀ d ∈ cs, d.Points parts := fun d hd => h.points d (List.mem_cons_of_mem _ hd)
    have hc := h.points c List.mem_cons_self
    obtain ⟨hapart, hpair⟩ := List.pairwise_cons.mp h.apart
    have hj : ∀ d ∈ cs, d.Points (cs.foldr (addArraySize e j) parts) :=
      fun d hd => (hrest d hd).foldr hrest e j
    rw [List.foldr_cons, List.foldr_cons, List.foldr_cons,
      addArraySize_foldr e j k (hc.foldr hrest e j) hj hapart, ih ⟨hrest, hpair⟩,
      addArraySize_twice e j k (hc.foldr hrest e (j + k))]

def newParts (padding : Nat) (fill : Bytes) : List Part :=
  (if 0 < padding then [partZero padding] else []) ++ [{ data := fill }]

theorem addNew_fst (parts : List Part) (padding : Nat) (fill : Bytes) :
    (growParts.addNew parts padding fill).1 = parts ++ newParts padding fill := by
  simp only [growParts.addNew, newParts]
  split_ifs <;> simp

theorem growParts_nil (align padding : Nat) (fill : Bytes) (fi : Bool) :
    (growParts [] align padding fill fi).1 = newParts padding fill := addNew_fst [] padding fill

theorem growParts_concat (ps : List Part) (last : Part) (align padding : Nat) (fill : Bytes)
    (fi : Bool) :
    (growParts (ps ++ [last]) align padding fill fi).1 =
      if last.sealed || decide (padding ≠ padTo last.data.length align) ||
          (fi && decide (memfdMinSize < last.data.length)) then
        ps ++ [last] ++ newParts padding fill
      else ps ++ [{ last with data := last.data ++ (zeros padding ++ fill) }] := by
  unfold growParts
  rw [List.getLast?_concat]
  simp only
  split_ifs
  · exact addNew_fst _ _ _
  · rw [List.dropLast_concat]

theorem growParts_addArraySize (e : Endian) (n : Nat) {parts : List Part} {c : Container}
    (hc : c.Points parts) (align padding : Nat) (fill : Bytes) (fi : Bool) :
    (growParts (addArraySize e n c parts) align padding fill fi).1 =
      addArraySize e n c (growParts parts align padding fill fi).1 := by
  unfold addArraySize
  cases hloc : c.arraySize with
  | none => rfl
  | some loc =>
    obtain ⟨pos, ps, q, qs, rfl, hlen, hoff, -⟩ := hc loc hloc
    simp only [← hlen, modify_append_cons]
    rcases List.eq_nil_or_concat qs with rfl | ⟨qs, last, rfl⟩
    · -- the word is in the last part
      rw [growParts_concat, growParts_concat]
      simp only [length_addWord e hoff]
      split_ifs
      · simp only [List.append_assoc, List.cons_append, modify_append_cons]
      · rw [modify_append_cons, addWord_append_left e hoff]
    · simp only [List.concat_eq_append, ← List.cons_append]
      rw [← List.append_assoc, ← List.append_assoc, growParts_concat, growParts_concat]
      split_ifs <;> simp only [List.append_assoc, List.cons_append, modify_append_cons]

theorem growParts_foldr (e : Endian) (n : Nat) {parts : List Part} {cs : List Container}
    (hcs : ∀ c ∈ cs, c.Points parts) (align padding : Nat) (fill : Bytes) (fi : Bool) :
    (growParts (cs.foldr (addArraySize e n) parts) align padding fill fi).1 =
      cs.foldr (addArraySize e n) (growParts parts align padding fill fi).1 := by
  induction cs with
  | nil => rfl
  | cons c cs ih =>
    have hrest : ∀ d ∈ cs, d.Points parts := fun d hd => hcs d (List.mem_cons_of_mem _ hd)
    rw [List.foldr_cons, List.foldr_cons,
      growParts_addArraySize e n ((hcs c List.mem_cons_self).foldr hrest e n), ih hrest]

theorem growParts_twice (parts : List Part) {align : Nat} (ha : 0 < align) {fill : Bytes}
    (hfill : align ∣ fill.length) (more : Bytes) :
    (growParts (growParts parts align 0 fill false).1 align 0 more false).1 =
      (growParts parts align 0 (fill ++ more) false).1 := by
  have hpad : ∀ n, align ∣ n → padTo n align = 0 := fun n hn => by
    rw [padTo, alignUp_of_dvd ha hn, Nat.sub_self]
  have hnew : newParts 0 fill = [{ data := fill }] := rfl
  rcases List.eq_nil_or_concat parts with rfl | ⟨ps, last, rfl⟩
  · rw [growParts_nil, growParts_nil, hnew, ← List.nil_append [_], growParts_concat]
    simp [hpad _ hfill, newParts]
  · rw [List.concat_eq_append, growParts_concat, growParts_concat]
    split_ifs with h
    · rw [hnew, growParts_concat]
      simp [hpad _ hfill, newParts]
    · simp only [Bool.or_eq_true, not_or, decide_eq_true_eq, not_not] at h
      obtain ⟨⟨hs, hl⟩, -⟩ := h
      have hlast : align ∣ last.data.length := by
        have := add_padTo last.data.length ha
        rw [← hl, Nat.add_zero] at this
        exact this ▸ dvd_alignUp _ _
      rw [growParts_concat]
      simp [hs, hpad _ (Nat.dvd_add hlast hfill)]

/-! ## Extending the body with open arrays -/

theorem LocAt.behind {parts : List Part} {loc loc' : Nat × Nat} {pos pos' : Nat}
    (h : LocAt parts loc pos) (h' : LocAt parts loc' pos') (hp : pos' + 4 ≤ pos) :
    loc.1 ≠ loc'.1 ∨ loc'.2 + 4 ≤ loc.2 := by
  obtain ⟨ps, q, qs, he, hlen, -, rfl⟩ := h
  obtain ⟨ps', q', qs', rfl, hlen', -, rfl⟩ := h'
  by_cases hne : loc.1 = loc'.1
  · right
    obtain ⟨rfl, -⟩ := List.append_inj he (by omega)
    omega
  · exact .inl hne

theorem LocAt.le_length {parts : List Part} {loc : Nat × Nat} {pos : Nat}
    (h : LocAt parts loc pos) : pos + 4 ≤ (flat parts).length := by
  obtain ⟨ps, q, qs, rfl, -, hoff, rfl⟩ := h
  simp only [flat_append, flat_cons, List.length_append]
  omega

theorem PointersOk.mono {parts parts' : List Part} {cs : List Container}
    (h : PointersOk parts cs) (hp : ∀ c : Container, c.Points parts → c.Points parts') :
    PointersOk parts' cs := ⟨fun c hc => hp c (h.points c hc), h.apart⟩

structure Extends (m m' : Message) (loc : Option (Nat × Nat)) (fill : Bytes) : Prop where
  same : m' = { m with parts := m'.parts, bodySize := m'.bodySize, poisoned := m'.poisoned }
  kept : PointersOk m'.parts m.containers
  points : ∀ c : Container, c.Points m.parts → c.Points m'.parts
  new : ∀ c : Container, c.arraySize = loc → fill.length = 4 →
    c.Points m'.parts ∧ ∀ d ∈ m.containers, c.Apart d

theorem messageExtendBody_extends {m m' : Message} {align : Nat} {fill : Bytes} {fi : Bool}
    {loc : Option (Nat × Nat)} (hok : PointersOk m.parts m.containers)
    (h : messageExtendBody m align fill fi = (loc, m')) : Extends m m' loc fill := by
  have hnone : ∀ c : Container, ∀ parts, c.arraySize = none → fill.length = 4 →
      c.Points parts ∧ ∀ d ∈ m.containers, c.Apart d := fun c parts hc _ =>
    ⟨fun loc hl => absurd (hc.symm.trans hl) (by simp),
      fun d _ loc _ hl _ => absurd (hc.symm.trans hl) (by simp)⟩
  unfold messageExtendBody at h
  simp only at h
  split_ifs at h with hp hmax hadd
  · obtain ⟨rfl, rfl⟩ := Prod.mk.inj h
    exact ⟨rfl, hok, fun _ hc => hc, fun c => hnone c _⟩
  · obtain ⟨rfl, rfl⟩ := Prod.mk.inj h
    exact ⟨rfl, hok, fun _ hc => hc, fun c => hnone c _⟩
  · -- the parts grow, then the enclosing arrays are told
    generalize hpad : alignUp m.bodySize align - m.bodySize = padding at h hadd
    generalize hg : growParts m.parts align padding fill fi = g at h
    obtain ⟨parts, l⟩ := g
    obtain ⟨rfl, rfl⟩ := Prod.mk.inj h
    have hparts : parts = (growParts m.parts align padding fill fi).1 := by rw [hg]
    have hgrow : ∀ c : Container, c.Points m.parts → c.Points parts := fun c hc =>
      hc.mono fun l p hl => hparts ▸ hl.grow align padding fill fi
    have hpoints : ∀ c ∈ m.containers, c.Points parts := fun c hc => hgrow c (hok.points c hc)
    have hfold : ∀ c : Container, c.Points parts →
        c.Points (m.containers.foldr (addArraySize m.endian (padding + fill.length)) parts) :=
      fun c hc => hc.foldr hpoints m.endian _
    simp only [messageExtendContainers, if_neg (Nat.ne_of_gt hadd)]
    refine ⟨rfl, (hok.mono hgrow).mono hfold, fun c hc => hfold c (hgrow c hc), ?_⟩
    intro c hc h4
    have hl := growParts_loc m.parts align padding h4 fi
    rw [hg] at hl
    refine ⟨hfold c fun l' hl' => ?_, fun d hd l' l'' hl' hl'' => ?_⟩
    · obtain rfl := Option.some.inj (hc.symm.trans hl')
      exact ⟨_, hl⟩
    · obtain rfl := Option.some.inj (hc.symm.trans hl')
      obtain ⟨pos, hpos⟩ := hok.points d hd l'' hl''
      have hgrown := hpos.grow align padding fill fi
      rw [hg] at hgrown
      exact hl.behind hgrown (by have := hpos.le_length; omega)
  · obtain ⟨rfl, rfl⟩ := Prod.mk.inj h
    refine ⟨rfl, hok, fun _ hc => hc, fun c _ h4 => ?_⟩
    omega

def Message.extended (m : Message) (align : Nat) (fill : Bytes) : Message :=
  if fill = [] then m
  else { m with
    parts := m.containers.foldr (addArraySize m.endian fill.length)
      (growParts m.parts align 0 fill false).1
    bodySize := m.bodySize + fill.length }

theorem messageExtendBody_of_dvd {m : Message} {align : Nat} (fill : Bytes) (ha : 0 < align)
    (hd : align ∣ m.bodySize) (hp : m.poisoned = false) :
    ∃ loc, messageExtendBody m align fill false =
      if uint32Max < m.bodySize + fill.length then (none, { m with poisoned := true })
      else (some loc, m.extended align fill) := by
  unfold messageExtendBody Message.extended
  rw [if_neg (by simp [hp])]
  simp only [alignUp_of_dvd ha hd, Nat.sub_self, Nat.zero_add]
  by_cases hf : fill = []
  · subst hf
    exact ⟨(0, 0), by simp⟩
  · have hlen : 0 < fill.length := List.length_pos_iff.mpr hf
    generalize hg : growParts m.parts align 0 fill false = g
    obtain ⟨parts, loc⟩ := g
    refine ⟨loc, ?_⟩
    simp only [if_pos hlen, if_neg hf, messageExtendContainers, if_neg (Nat.ne_of_gt hlen)]

theorem Message.extended_extended {m : Message} (hok : PointersOk m.parts m.containers)
    {align : Nat} (ha : 0 < align) {fill : Bytes} (hfill : align ∣ fill.length)
    (more : Bytes) : (m.extended align fill).extended align more =
      m.extended align (fill ++ more) := by
  by_cases hf : fill = []
  · subst hf
    simp [extended]
  by_cases hm : more = []
  · subst hm
    simp [extended]
  have hgrow : PointersOk (growParts m.parts align 0 fill false).1 m.containers :=
    hok.mono fun c hc => hc.mono fun l p hl => hl.grow align 0 fill false
  have hgrow' := hgrow.mono fun c hc => hc.mono fun l p hl => hl.grow align 0 more false
  have hne : ¬ fill ++ more = [] := fun h => hf (List.append_eq_nil_iff.mp h).1
  simp only [extended, if_neg hf, if_neg hm, if_neg hne, List.length_append, Nat.add_assoc]
  rw [growParts_foldr m.endian fill.length hgrow.points, hgrow'.foldr_twice,
    growParts_twice m.parts ha hfill more]

/-! ## Every call keeps the pointers -/

theorem PointersOk.congr {parts : List Part} {cs cs' : List Container} (h : PointersOk parts cs)
    (he : cs'.map (·.arraySize) = cs.map (·.arraySize)) : PointersOk parts cs' := by
  refine ⟨fun c hc loc hl => ?_, ?_⟩
  · have hmem : c.arraySize ∈ cs.map (·.arraySize) := he ▸ List.mem_map_of_mem hc
    obtain ⟨d, hd, hdc⟩ := List.mem_map.mp hmem
    exact h.points d hd loc (hdc.trans hl)
  · have hpair := List.pairwise_map (f := Container.arraySize) (l := cs)
      (R := fun p p' => ∀ loc loc' : Nat × Nat, p = some loc → p' = some loc' →
        loc.1 ≠ loc'.1 ∨ loc'.2 + 4 ≤ loc.2) |>.mpr h.apart
    rw [← he] at hpair
    exact List.pairwise_map (f := Container.arraySize) (l := cs') |>.mp hpair

theorem PointersOk.setLast {m : Message} (h : PointersOk m.parts m.containers) {c : Container}
    (hc : c.arraySize = (messageGetLastContainer m).arraySize) :
    PointersOk (m.setLastContainer c).parts (m.setLastContainer c).containers := by
  unfold messageGetLastContainer at hc
  unfold Message.setLastContainer
  split
  · exact h
  · rename_i d ds hds
    rw [hds] at hc
    refine h.congr ?_
    rw [hds, List.map_cons, List.map_cons, hc, List.headD_cons]

theorem PointersOk.strextend {m : Message} (h : PointersOk m.parts m.containers) (s : Str) :
    PointersOk (m.strextendSignature s).parts (m.strextendSignature s).containers :=
  h.setLast rfl

theorem PointersOk.setIndex {m : Message} (h : PointersOk m.parts m.containers) (i : Nat) :
    PointersOk (m.setIndex i).parts (m.setIndex i).containers :=
  h.setLast rfl

def SavesPointer : Except Errno (Option (Nat × Nat)) × Message → Prop
  | (.ok a, m) => PointersOk m.parts ({ arraySize := a } :: m.containers)
  | (.error _, m) => PointersOk m.parts m.containers

theorem PointersOk.tail {parts : List Part} {c : Container} {cs : List Container}
    (h : PointersOk parts (c :: cs)) : PointersOk parts cs :=
  ⟨fun d hd => h.points d (List.mem_cons_of_mem _ hd), (List.pairwise_cons.mp h.apart).2⟩

theorem PointersOk.cons_none {parts : List Part} {c : Container} {cs : List Container}
    (h : PointersOk parts cs) (hc : c.arraySize = none) : PointersOk parts (c :: cs) := by
  have hno : ∀ loc, c.arraySize ≠ some loc := fun loc hl => absurd (hc.symm.trans hl) (by simp)
  refine ⟨fun d hd => ?_, List.pairwise_cons.mpr ⟨fun d _ l _ hl _ => absurd hl (hno l), h.apart⟩⟩
  rcases List.mem_cons.mp hd with rfl | hd
  · exact fun l hl => absurd hl (hno l)
  · exact h.points d hd

theorem SavesPointer.finish {g : Except Errno (Option (Nat × Nat)) × Message} (h : SavesPointer g)
    (c : Container) (nindex : Nat) : SavesPointer (finishOpen c nindex g) := by
  obtain ⟨r | a, m⟩ := g
  · exact h
  · unfold finishOpen Message.advance
    simp only [SavesPointer] at h ⊢
    split_ifs
    · exact h
    · unfold Message.setIndex Message.setLastContainer
      split
      · exact h
      · rename_i d ds hds
        refine h.congr ?_
        simp only [List.map_cons, hds, messageGetLastContainer, List.headD_cons]

theorem openBody_saves {m : Message} (h : PointersOk m.parts m.containers) (align : Nat)
    (fill : Bytes) : SavesPointer (openBody m align fill) := by
  unfold openBody
  generalize hg : messageExtendBody m align fill false = g
  obtain ⟨loc, m'⟩ := g
  have hext := messageExtendBody_extends h hg
  have hkept : PointersOk m'.parts m'.containers := by
    rw [show m'.containers = m.containers by rw [hext.same]]
    exact hext.kept
  cases loc with
  | none => exact hkept
  | some loc => exact hkept.cons_none rfl

theorem Extends.containers {m m' : Message} {loc : Option (Nat × Nat)} {fill : Bytes}
    (h : Extends m m' loc fill) : m'.containers = m.containers := by rw [h.same]

theorem Extends.pointers {m m' : Message} {loc : Option (Nat × Nat)} {fill : Bytes}
    (h : Extends m m' loc fill) : PointersOk m'.parts m'.containers :=
  h.containers ▸ h.kept

theorem openArrayBody_saves {m : Message} (h : PointersOk m.parts m.containers) (s : Str) :
    SavesPointer (openArrayBody m s) := by
  unfold openArrayBody
  split
  · exact h
  · rename_i alignment _
    generalize hg : messageExtendBody m 4 (putWord m.endian 4 0) false = g
    obtain ⟨loc, m₁⟩ := g
    have hext := messageExtendBody_extends h hg
    cases loc with
    | none => exact hext.pointers
    | some loc =>
      simp only
      generalize hg' : messageExtendBody m₁ alignment [] false = g
      obtain ⟨loc', m₂⟩ := g
      have hext' := messageExtendBody_extends hext.pointers hg'
      cases loc' with
      | none => exact hext'.pointers
      | some loc' =>
        -- the length word is behind those of the containers around it
        obtain ⟨hpoints, hapart⟩ :=
          hext.new { arraySize := some loc } rfl (length_putWord _ _ _)
        refine ⟨fun d hd => ?_, List.pairwise_cons.mpr ⟨fun d hd => ?_, hext'.pointers.apart⟩⟩
        · rcases List.mem_cons.mp hd with rfl | hd
          · exact hext'.points _ hpoints
          · exact hext'.pointers.points d hd
        · rw [hext'.containers, hext.containers] at hd
          exact hapart d hd

theorem openByType_saves {m : Message} (h : PointersOk m.parts m.containers) (type : UInt8)
    (contents : Str) : SavesPointer (openByType m type contents) := by
  simp only [openByType]
  split_ifs
  · simp only [busMessageOpenArray]
    split_ifs
    · exact h
    · exact h
    · exact h
    · exact (openArrayBody_saves h _).finish _ _
    · exact h
    · exact (openArrayBody_saves (h.strextend _) _).finish _ _
  · simp only [busMessageOpenVariant]
    split_ifs
    · exact h
    · exact h
    · exact h
    · exact (openBody_saves h _ _).finish _ _
    · exact h
    · exact (openBody_saves (h.strextend _) _ _).finish _ _
  · simp only [busMessageOpenStruct]
    split_ifs
    · exact h
    · exact h
    · exact (openBody_saves h _ _).finish _ _
    · exact h
    · exact (openBody_saves (h.strextend _) _ _).finish _ _
  · simp only [busMessageOpenDictEntry]
    split_ifs
    · exact h
    · exact h
    · exact h
    · exact openBody_saves h _ _
    · exact h
  · exact h

theorem sdBusMessageOpenContainer_pointers {m : Message} (h : PointersOk m.parts m.containers)
    (type : UInt8) (contents : Str) :
    PointersOk (sdBusMessageOpenContainer m type contents).2.parts
      (sdBusMessageOpenContainer m type contents).2.containers := by
  have hopens := openByType_saves h type contents
  unfold sdBusMessageOpenContainer
  split_ifs
  · exact h
  · exact h
  · generalize openByType m type contents = g at hopens
    obtain ⟨r | a, m'⟩ := g
    · exact hopens
    · exact hopens.congr rfl

theorem sdBusMessageCloseContainer_pointers {m : Message}
    (h : PointersOk m.parts m.containers) :
    PointersOk (sdBusMessageCloseContainer m).2.parts
      (sdBusMessageCloseContainer m).2.containers := by
  cases hcs : m.containers with
  | nil =>
    simp only [sdBusMessageCloseContainer, hcs]
    split_ifs <;> exact h
  | cons c cs =>
    simp only [sdBusMessageCloseContainer, hcs]
    split_ifs
    · exact h
    · exact h
    · exact h
    · rw [hcs] at h
      exact h.tail

theorem messageAppendBasic_pointers {m : Message} (h : PointersOk m.parts m.containers)
    (p : BasicArg) :
    PointersOk (messageAppendBasic m p).2.parts (messageAppendBasic m p).2.containers := by
  have hvalue : ∀ {m : Message}, PointersOk m.parts m.containers →
      PointersOk (appendBasicValue m p).2.parts (appendBasicValue m p).2.containers := by
    intro m h
    unfold appendBasicValue
    split
    · exact h
    · rename_i align bytes fds _
      generalize hg : messageExtendBody m align bytes false = g
      obtain ⟨loc, m'⟩ := g
      have hext := messageExtendBody_extends h hg
      cases loc with
      | none => exact hext.pointers
      | some loc =>
        simp only
        split_ifs
        · exact hext.pointers
        · exact PointersOk.setLast (m := { m' with fds := m'.fds ++ fds }) hext.pointers rfl
  simp only [messageAppendBasic]
  split_ifs
  · exact h
  · exact h
  · exact h
  · exact h
  · exact hvalue h
  · exact h
  · exact hvalue (h.strextend _)

theorem Op.exec_pointers {m : Message} (h : PointersOk m.parts m.containers) (op : Op) :
    PointersOk (op.exec m).2.parts (op.exec m).2.containers := by
  cases op with
  | appendBasic p => exact messageAppendBasic_pointers h p
  | openContainer type contents => exact sdBusMessageOpenContainer_pointers h type contents.1
  | closeContainer => exact sdBusMessageCloseContainer_pointers h

theorem messageExtendBody_pointers {m : Message} (h : PointersOk m.parts m.containers)
    (align : Nat) (fill : Bytes) (fi : Bool) :
    PointersOk (messageExtendBody m align fill fi).2.parts
      (messageExtendBody m align fill fi).2.containers :=
  (messageExtendBody_extends h Prod.mk.eta.symm).pointers

theorem sdBusMessageAppendArraySpace_pointers {m : Message}
    (h : PointersOk m.parts m.containers) (type : UInt8) (fill : Bytes) :
    PointersOk (sdBusMessageAppendArraySpace m type fill).2.parts
      (sdBusMessageAppendArraySpace m type fill).2.containers := by
  unfold sdBusMessageAppendArraySpace
  split_ifs
  · exact h
  · exact h
  · exact h
  split
  · rename_i align sz _ _
    split_ifs
    · exact h
    · have hopen := sdBusMessageOpenContainer_pointers h sdBusTypeArray [type]
      split
      · rename_i he
        exact he ▸ hopen
      · rename_i m' he
        rw [he] at hopen
        have hext := messageExtendBody_pointers hopen align fill false
        split
        · rename_i he
          rw [he] at hext
          exact hext
        · rename_i he
          rw [he] at hext
          exact sdBusMessageCloseContainer_pointers hext
  · exact h

theorem sdBusMessageAppendArray_pointers {m : Message} (h : PointersOk m.parts m.containers)
    (type : UInt8) (fill : Bytes) :
    PointersOk (sdBusMessageAppendArray m type fill).2.parts
      (sdBusMessageAppendArray m type fill).2.containers := by
  unfold sdBusMessageAppendArray
  split_ifs
  · exact h
  · exact h
  · exact h
  · exact sdBusMessageAppendArraySpace_pointers h type fill

theorem sdBusMessageAppendArrayIovec_eq (m : Message) (type : UInt8) (iov : List IoVec) :
    sdBusMessageAppendArrayIovec m type iov = sdBusMessageAppendArray m type (iovecBytes iov) :=
  rfl

theorem messageExtendContainers_pointers {m : Message} (h : PointersOk m.parts m.containers)
    (expand : Nat) :
    PointersOk (messageExtendContainers m expand).parts
      (messageExtendContainers m expand).containers := by
  unfold messageExtendContainers
  split_ifs
  · exact h
  · exact h.mono fun c hc => hc.foldr h.points m.endian expand

theorem sdBusMessageAppendArrayMemfd_pointers {m : Message}
    (h : PointersOk m.parts m.containers) (type : UInt8) (contents : Bytes) :
    PointersOk (sdBusMessageAppendArrayMemfd m type contents).2.parts
      (sdBusMessageAppendArrayMemfd m type contents).2.containers := by
  unfold sdBusMessageAppendArrayMemfd
  split
  · exact h
  split
  · exact h
  split
  · exact h
  split
  · exact h
  split
  · rename_i align sz _ _
    split_ifs
    · exact h
    · exact h
    · have hopen := sdBusMessageOpenContainer_pointers h sdBusTypeArray [type]
      split
      · rename_i he
        exact he ▸ hopen
      · rename_i m' he
        rw [he] at hopen
        have hext := messageExtendBody_pointers hopen align [] false
        split
        · rename_i he
          rw [he] at hext
          exact hext
        · rename_i m₂ he
          rw [he] at hext
          have hpart := hext.mono fun c hc => hc.mono fun l p hl =>
            hl.append [{ data := contents, sealed := true }]
          exact sdBusMessageCloseContainer_pointers (messageExtendContainers_pointers hpart _)
  · exact h

theorem appendStringWith_pointers {m : Message} (h : PointersOk m.parts m.containers)
    {write : Message → Except Errno Unit × Message}
    (hw : ∀ m : Message, PointersOk m.parts m.containers →
      PointersOk (write m).2.parts (write m).2.containers) :
    PointersOk (appendStringWith m write).2.parts (appendStringWith m write).2.containers := by
  simp only [appendStringWith]
  split_ifs
  · exact h
  · exact hw m h
  · exact h
  · exact hw _ (h.strextend _)

theorem PointersOk.countString {m : Message} (h : PointersOk m.parts m.containers) :
    PointersOk m.countString.parts m.countString.containers := by
  simp only [Message.countString]
  split_ifs
  · exact h
  · exact h.setIndex _

theorem sdBusMessageAppendStringSpace_pointers {m : Message}
    (h : PointersOk m.parts m.containers) (s : Bytes) :
    PointersOk (sdBusMessageAppendStringSpace m s).2.parts
      (sdBusMessageAppendStringSpace m s).2.containers := by
  unfold sdBusMessageAppendStringSpace
  split_ifs
  · exact h
  · exact h
  · refine appendStringWith_pointers h fun m h => ?_
    have hext := messageExtendBody_pointers h 4 (strBytes m.endian s) false
    split
    · rename_i he
      rw [he] at hext
      exact hext
    · rename_i he
      rw [he] at hext
      exact hext.countString

theorem sdBusMessageAppendStringMemfd_pointers {m : Message}
    (h : PointersOk m.parts m.containers) (contents : Bytes) :
    PointersOk (sdBusMessageAppendStringMemfd m contents).2.parts
      (sdBusMessageAppendStringMemfd m contents).2.containers := by
  unfold sdBusMessageAppendStringMemfd
  split_ifs
  · exact h
  · exact h
  · exact h
  · exact h
  · refine appendStringWith_pointers h fun m h => ?_
    have hext := messageExtendBody_pointers h 4 (putWord m.endian 4 (contents.length - 1)) false
    split
    · rename_i he
      rw [he] at hext
      exact hext
    · rename_i m₁ he
      rw [he] at hext
      have hpart := hext.mono fun c hc => hc.mono fun l p hl =>
        hl.append [{ data := contents, sealed := true }]
      have htold := messageExtendContainers_pointers
        (m := { m₁ with
          parts := m₁.parts ++ [{ data := contents, sealed := true }]
          bodySize := m₁.bodySize + contents.length }) hpart contents.length
      exact htold.countString

theorem DraftOp.exec_pointers {m : Message} (h : PointersOk m.parts m.containers)
    (op : DraftOp) : PointersOk (op.exec m).parts (op.exec m).containers := by
  cases op with
  | call op => exact op.exec_pointers h
  | appendArray type fill => exact sdBusMessageAppendArray_pointers h type fill
  | appendArrayIovec type iov => exact sdBusMessageAppendArray_pointers h type _
  | appendArrayMemfd type contents => exact sdBusMessageAppendArrayMemfd_pointers h type contents
  | appendStringSpace s => exact sdBusMessageAppendStringSpace_pointers h s
  | appendStringMemfd contents => exact sdBusMessageAppendStringMemfd_pointers h contents

theorem draftRun_pointers (e : Endian) (header : Header) (ops : List DraftOp) :
    PointersOk (draftRun e header ops).parts (draftRun e header ops).containers := by
  unfold draftRun
  have hblank : PointersOk [] [] := ⟨fun c hc => absurd hc List.not_mem_nil, .nil⟩
  have hrun : ∀ m : Message, PointersOk m.parts m.containers →
      PointersOk (ops.foldl DraftOp.exec m).parts (ops.foldl DraftOp.exec m).containers := by
    induction ops with
    | nil => exact fun m h => h
    | cons op ops ih => exact fun m h => ih _ (op.exec_pointers h)
  exact hrun _ hblank

structure Message.InArray (m : Message) (t : Num) : Prop where
  sealed : m.sealed = false
  poisoned : m.poisoned = false
  aligned : t.size ∣ m.bodySize
  fits : m.bodySize ≤ uint32Max
  pointers : PointersOk m.parts m.containers
  container : ∃ c cs, m.containers = c :: cs ∧ c.enclosing = sdBusTypeArray ∧ c.cur = t.code

theorem Message.extended_containers (m : Message) (align : Nat) (fill : Bytes) :
    (m.extended align fill).containers = m.containers := by
  unfold extended
  split_ifs <;> rfl

theorem Message.extended_endian (m : Message) (align : Nat) (fill : Bytes) :
    (m.extended align fill).endian = m.endian := by
  unfold extended
  split_ifs <;> rfl

theorem Message.extended_bodySize (m : Message) (align : Nat) (fill : Bytes) :
    (m.extended align fill).bodySize = m.bodySize + fill.length := by
  unfold extended
  split_ifs with h
  · simp [h]
  · rfl

theorem Message.InArray.extended {m : Message} {t : Num} (h : m.InArray t) {fill : Bytes}
    (hd : t.size ∣ fill.length) (hfit : m.bodySize + fill.length ≤ uint32Max) :
    (m.extended t.size fill).InArray t := by
  obtain ⟨loc, hext⟩ := messageExtendBody_of_dvd fill t.size_pos h.aligned h.poisoned
  rw [if_neg (Nat.not_lt.mpr hfit)] at hext
  have hkept := (messageExtendBody_extends h.pointers hext).kept
  rw [← m.extended_containers t.size fill] at hkept
  have hsize := m.extended_bodySize t.size fill
  refine ⟨?_, ?_, hsize ▸ Nat.dvd_add h.aligned hd, hsize ▸ hfit, hkept,
    m.extended_containers t.size fill ▸ h.container⟩
  · unfold Message.extended
    split_ifs <;> exact h.sealed
  · unfold Message.extended
    split_ifs <;> exact h.poisoned

theorem Message.InArray.appendBasic {m : Message} {t : Num} (h : m.InArray t)
    (x : BitVec (8 * t.size)) :
    messageAppendBasic m (.num t x) =
      if uint32Max < m.bodySize + t.size then (.error .enomem, { m with poisoned := true })
      else (.ok (), m.extended t.size (putWord m.endian t.size x.toNat)) := by
  obtain ⟨c, cs, hcs, hc, hcur⟩ := h.container
  obtain ⟨loc, hext⟩ := messageExtendBody_of_dvd (putWord m.endian t.size x.toNat) t.size_pos
    h.aligned h.poisoned
  rw [length_putWord] at hext
  have hbasic : busTypeIsBasic t.code = true := by cases t <;> decide
  have hne : t.code ≠ 0 := by cases t <;> decide
  unfold messageAppendBasic
  simp only [messageGetLastContainer, hcs, List.headD_cons, BasicArg.type, h.sealed, h.poisoned,
    hbasic, hcur, Bool.false_eq_true, Bool.true_eq_false, if_false, ne_eq, hne, not_false_eq_true,
    not_true_eq_false, if_true, appendBasicValue, argBytes, hext]
  split_ifs with hlt
  · rfl
  · have hlast (r : Container) : ((m.extended t.size
        (putWord m.endian t.size x.toNat)).containers.headD r).enclosing = sdBusTypeArray := by
      rw [Message.extended_containers, hcs]
      exact hc
    simp only [hlast, if_true, List.append_nil]

theorem numBytes_cons (e : Endian) (t : Num) (x : BitVec (8 * t.size))
    (xs : List (BitVec (8 * t.size))) :
    numBytes e t (x :: xs) = putWord e t.size x.toNat ++ numBytes e t xs := rfl

theorem length_numBytes (e : Endian) (t : Num) (xs : List (BitVec (8 * t.size))) :
    (numBytes e t xs).length = xs.length * t.size := by
  induction xs with
  | nil => simp [numBytes]
  | cons x xs ih =>
    rw [numBytes_cons, List.length_append, length_putWord, ih, List.length_cons]
    ring

theorem Message.InArray.execAll {t : Num} (xs : List (BitVec (8 * t.size))) (ops : List Op)
    {m : Message} (h : m.InArray t) (hfit : m.bodySize + xs.length * t.size ≤ uint32Max) :
    execAll m (xs.map (fun x => .appendBasic (.num t x)) ++ ops) =
      Basu.execAll (m.extended t.size (numBytes m.endian t xs)) ops := by
  induction xs generalizing m with
  | nil => rfl
  | cons x xs ih =>
    rw [List.length_cons, Nat.succ_mul] at hfit
    have hword : (putWord m.endian t.size x.toNat).length = t.size := length_putWord _ _ _
    have hnext : (m.extended t.size (putWord m.endian t.size x.toNat)).InArray t :=
      h.extended (by rw [hword]) (by rw [hword]; omega)
    rw [List.map_cons, List.cons_append, Basu.execAll, Op.exec, h.appendBasic,
      if_neg (by omega)]
    simp only
    rw [ih hnext (by rw [Message.extended_bodySize, hword]; omega), Message.extended_endian,
      numBytes_cons, Message.extended_extended h.pointers t.size_pos (by rw [hword])]

theorem Message.InArray.execAll_enomem {t : Num} (xs : List (BitVec (8 * t.size)))
    (ops : List Op) {m : Message} (h : m.InArray t)
    (hover : uint32Max < m.bodySize + xs.length * t.size) :
    ∃ parts size, Basu.execAll m (xs.map (fun x => .appendBasic (.num t x)) ++ ops) =
      (.error .enomem, { m with parts := parts, bodySize := size, poisoned := true }) := by
  induction xs generalizing m with
  | nil => exact absurd h.fits (by simpa using hover)
  | cons x xs ih =>
    rw [List.length_cons, Nat.succ_mul] at hover
    rw [List.map_cons, List.cons_append, Basu.execAll, Op.exec, h.appendBasic]
    have hword : (putWord m.endian t.size x.toNat).length = t.size := length_putWord _ _ _
    split_ifs with hlt
    · exact ⟨m.parts, m.bodySize, rfl⟩
    · have hnext : (m.extended t.size (putWord m.endian t.size x.toNat)).InArray t :=
        h.extended (by rw [hword]) (by rw [hword]; omega)
      obtain ⟨parts, size, he⟩ := ih hnext (by rw [Message.extended_bodySize, hword]; omega)
      refine ⟨parts, size, he.trans ?_⟩
      unfold Message.extended
      split_ifs <;> rfl

theorem messageExtendBody_none {m m' : Message} {align : Nat} {fill : Bytes} {fi : Bool}
    (h : messageExtendBody m align fill fi = (none, m')) : m'.poisoned = true := by
  unfold messageExtendBody at h
  simp only at h
  split_ifs at h with hp
  · rw [← (Prod.mk.inj h).2, hp]
  · rw [← (Prod.mk.inj h).2]
  · exact absurd (Prod.mk.inj h).1 (by simp)
  · exact absurd (Prod.mk.inj h).1 (by simp)

theorem busTypeGetAlignment_num (t : Num) : busTypeGetAlignment t.code = some t.size := by
  cases t <;> decide

theorem openArrayBody_num {m m' : Message} {t : Num} {r : Except Errno (Option (Nat × Nat))}
    (h : openArrayBody m [t.code] = (r, m')) :
    (r = .error .enomem ∧ m'.poisoned = true) ∨
    (∃ a, r = .ok a) ∧ m' = { m with parts := m'.parts, bodySize := m'.bodySize } ∧
      t.size ∣ m'.bodySize ∧ m'.bodySize ≤ uint32Max := by
  unfold openArrayBody at h
  simp only [charAt_cons_zero, busTypeGetAlignment_num] at h
  split at h
  · rename_i hext
    obtain ⟨rfl, rfl⟩ := Prod.mk.inj h
    exact .inl ⟨rfl, messageExtendBody_none hext⟩
  · rename_i loc m₁ hword
    obtain ⟨-, h₁, -⟩ := messageExtendBody_ok (by decide) hword
    split at h
    · rename_i hext
      obtain ⟨rfl, rfl⟩ := Prod.mk.inj h
      exact .inl ⟨rfl, messageExtendBody_none hext⟩
    · rename_i loc' m₂ hpad
      obtain ⟨hmax, h₂, -⟩ := messageExtendBody_ok t.size_pos hpad
      obtain ⟨rfl, rfl⟩ := Prod.mk.inj h
      rw [List.length_nil, Nat.add_zero] at hmax h₂
      have hsize : m₂.bodySize = alignUp m₁.bodySize t.size := by rw [h₂]
      refine .inr ⟨⟨_, rfl⟩, ?_, hsize ▸ dvd_alignUp _ _, hsize ▸ hmax⟩
      rw [h₂, h₁]

theorem sdBusMessageOpenContainer_num {m m' : Message} {t : Num} {r : Except Errno Unit}
    (hok : PointersOk m.parts m.containers)
    (h : sdBusMessageOpenContainer m sdBusTypeArray [t.code] = (r, m')) :
    (r = .error .enomem → m'.poisoned = true) ∧ (r = .ok () → m'.InArray t ∧ m'.endian = m.endian) := by
  have hpointers := sdBusMessageOpenContainer_pointers hok sdBusTypeArray [t.code]
  rw [h] at hpointers
  unfold sdBusMessageOpenContainer at h
  split_ifs at h with hsealed hpoisoned
  · obtain ⟨rfl, rfl⟩ := Prod.mk.inj h
    exact ⟨fun hr => absurd hr (by simp), fun hr => absurd hr (by simp)⟩
  · obtain ⟨rfl, rfl⟩ := Prod.mk.inj h
    exact ⟨fun hr => absurd hr (by simp), fun hr => absurd hr (by simp)⟩
  -- the bytes of the array, in a message that differs in its signature at most
  have hopened : ∀ (m₀ : Message) (c : Container) (n : Nat) {g : Except Errno _} {m₁ : Message},
      m₀.sealed = m.sealed → m₀.poisoned = m.poisoned → m₀.endian = m.endian →
      finishOpen c n (openArrayBody m₀ [t.code]) = (g, m₁) →
      (g = .error .enomem ∧ m₁.poisoned = true) ∨ (∃ a, g = .ok a) ∧ m₁.sealed = false ∧
        m₁.poisoned = false ∧ t.size ∣ m₁.bodySize ∧ m₁.bodySize ≤ uint32Max ∧
        m₁.endian = m.endian := by
    intro m₀ c n g m₁ hs hp he hfin
    generalize hb : openArrayBody m₀ [t.code] = body at hfin
    obtain ⟨r₂, m₂⟩ := body
    rcases openArrayBody_num hb with ⟨rfl, hpois⟩ | ⟨⟨a, rfl⟩, heq, hd, hmax⟩
    · obtain ⟨rfl, rfl⟩ := Prod.mk.inj hfin
      exact .inl ⟨rfl, hpois⟩
    · obtain ⟨rfl, rfl⟩ := Prod.mk.inj hfin
      have hsealed₂ : m₂.sealed = false := by rw [heq, hs]; simpa using hsealed
      have hpois₂ : m₂.poisoned = false := by rw [heq, hp]; simpa using hpoisoned
      have hend₂ : m₂.endian = m.endian := by rw [heq, he]
      refine .inr ⟨⟨a, rfl⟩, ?_⟩
      unfold Message.advance Message.setIndex Message.setLastContainer
      split_ifs
      · exact ⟨hsealed₂, hpois₂, hd, hmax, hend₂⟩
      · split <;> exact ⟨hsealed₂, hpois₂, hd, hmax, hend₂⟩
  generalize hg : openByType m sdBusTypeArray [t.code] = g at h
  obtain ⟨r₁, m₁⟩ := g
  have hcases : (∃ x, r₁ = .error x ∧ (x = .enomem → m₁.poisoned = true)) ∨
      (∃ a, r₁ = .ok a) ∧ m₁.sealed = false ∧ m₁.poisoned = false ∧ t.size ∣ m₁.bodySize ∧
        m₁.bodySize ≤ uint32Max ∧ m₁.endian = m.endian := by
    simp only [openByType, if_true, busMessageOpenArray] at hg
    split_ifs at hg
    · exact .inl ⟨_, (Prod.mk.inj hg).1.symm, by simp⟩
    · exact .inl ⟨_, (Prod.mk.inj hg).1.symm, by simp⟩
    · exact .inl ⟨_, (Prod.mk.inj hg).1.symm, by simp⟩
    · exact (hopened m _ _ rfl rfl rfl hg).imp_left fun ⟨hr, hp⟩ => ⟨_, hr, fun _ => hp⟩
    · exact .inl ⟨_, (Prod.mk.inj hg).1.symm, by simp⟩
    · refine (hopened _ _ _ ?_ ?_ ?_ hg).imp_left fun ⟨hr, hp⟩ => ⟨_, hr, fun _ => hp⟩
      · unfold Message.strextendSignature Message.setLastContainer
        split <;> rfl
      · unfold Message.strextendSignature Message.setLastContainer
        split <;> rfl
      · unfold Message.strextendSignature Message.setLastContainer
        split <;> rfl
  rcases hcases with ⟨x, rfl, hx⟩ | ⟨⟨a, rfl⟩, hs, hp, hd, hmax, he⟩
  · obtain ⟨rfl, rfl⟩ := Prod.mk.inj h
    exact ⟨fun hr => hx (by simpa using hr), fun hr => absurd hr (by simp)⟩
  · obtain ⟨rfl, rfl⟩ := Prod.mk.inj h
    exact ⟨fun hr => absurd hr (by simp),
      fun _ => ⟨⟨hs, hp, hd, hmax, hpointers, _, _, rfl, rfl, rfl⟩, he⟩⟩

theorem Message.InArray.close {m : Message} {t : Num} (h : m.InArray t) (align : Nat)
    (fill : Bytes) :
    ∃ m', sdBusMessageCloseContainer (m.extended align fill) = (.ok (), m') := by
  obtain ⟨c, cs, hcs, hc, -⟩ := h.container
  have hsealed : (m.extended align fill).sealed = false := by
    unfold Message.extended
    split_ifs <;> exact h.sealed
  have hpois : (m.extended align fill).poisoned = false := by
    unfold Message.extended
    split_ifs <;> exact h.poisoned
  refine ⟨{ m.extended align fill with containers := cs }, ?_⟩
  simp only [sdBusMessageCloseContainer, Message.extended_containers, hcs, hsealed, hpois, hc,
    Bool.false_eq_true, if_false, ne_eq, not_true_eq_false, false_and]

/-- Two ways to write the same array: the same message, or one poisoned for want of space. -/
def Agree (all each : Except Errno Unit × Message) : Prop :=
  (all = each ∧ (all.1 = .error .enomem → all.2.poisoned = true)) ∨
  (all.1 = .error .enomem ∧ each.1 = .error .enomem ∧ all.2.poisoned = true ∧
    all.2 = { each.2 with parts := all.2.parts, bodySize := all.2.bodySize })

theorem Message.InArray.agree {m : Message} {t : Num} (h : m.InArray t)
    (xs : List (BitVec (8 * t.size))) :
    Agree
      (match messageExtendBody m t.size (numBytes m.endian t xs) false with
        | (none, m) => (.error .enomem, m)
        | (some _, m) => sdBusMessageCloseContainer m)
      (Basu.execAll m (xs.map (fun x => .appendBasic (.num t x)) ++ [.closeContainer])) := by
  obtain ⟨loc, hext⟩ := messageExtendBody_of_dvd (numBytes m.endian t xs) t.size_pos h.aligned
    h.poisoned
  rw [length_numBytes] at hext
  rw [hext]
  split_ifs with hover
  · right
    obtain ⟨parts, size, he⟩ := h.execAll_enomem xs [.closeContainer] hover
    simp only [he, and_self]
  · left
    obtain ⟨m', hclose⟩ := h.close t.size (numBytes m.endian t xs)
    rw [h.execAll xs [.closeContainer] (Nat.not_lt.mp hover)]
    simp only [Basu.execAll, Op.exec, hclose, true_and]
    exact fun hr => absurd hr (by simp)

theorem sdBusMessageAppendArray_num (m : Message) (t : Num) (fill : Bytes) :
    sdBusMessageAppendArray m t.code fill =
      if m.sealed then (.error .eperm, m) else if m.poisoned then (.error .estale, m)
      else if fill.length % t.size ≠ 0 then (.error .einval, m)
      else match sdBusMessageOpenContainer m sdBusTypeArray [t.code] with
        | (.error r, m) => (.error r, m)
        | (.ok (), m) =>
          match messageExtendBody m t.size fill false with
          | (none, m) => (.error .enomem, m)
          | (some _, m) => sdBusMessageCloseContainer m := by
  have htriv : busTypeIsTrivial t.code = true := by cases t <;> decide
  have hbool : t.code ≠ sdBusTypeBoolean := by cases t <;> decide
  simp only [sdBusMessageAppendArray, sdBusMessageAppendArraySpace, htriv, hbool,
    busTypeGetAlignment_num, busTypeGetSize_num, Bool.true_eq_false, or_self, if_false]
  split_ifs <;> rfl

theorem sdBusMessageAppendArray_agree {m : Message} (hok : PointersOk m.parts m.containers)
    (t : Num) (xs : List (BitVec (8 * t.size))) :
    Agree (sdBusMessageAppendArray m t.code (numBytes m.endian t xs)) (appendElements m t xs) := by
  have hwhole : ¬ (numBytes m.endian t xs).length % t.size ≠ 0 := by
    rw [length_numBytes, Nat.mul_mod_left]
    exact fun h => h rfl
  rw [sdBusMessageAppendArray_num, if_neg hwhole, appendElements, elementOps, execAll, Op.exec]
  split_ifs with hs hp
  · -- neither starts on a sealed message
    simp only [sdBusMessageOpenContainer, if_pos hs]
    exact .inl ⟨rfl, fun hr => absurd hr (by simp)⟩
  · simp only [sdBusMessageOpenContainer, if_neg hs, if_pos hp]
    exact .inl ⟨rfl, fun hr => absurd hr (by simp)⟩
  · generalize hopen : sdBusMessageOpenContainer m sdBusTypeArray t.sig.1 = g
    rw [show sdBusMessageOpenContainer m sdBusTypeArray [t.code] = g from hopen]
    obtain ⟨r, m₁⟩ := g
    obtain ⟨hpois, hin⟩ := sdBusMessageOpenContainer_num hok hopen
    rcases r with r | ⟨⟩
    · exact .inl ⟨rfl, fun hr => hpois hr⟩
    · obtain ⟨hin, hendian⟩ := hin rfl
      rw [← hendian]
      exact hin.agree xs

/-- Both writers of an array answer the same. Unless the body gets too large they leave the same
message; if it does, the message is poisoned and only its body may differ. The bytes may be cut
in any way, and a piece of a value changes nothing. -/
theorem sdBusMessageAppendArray_agrees (e : Endian) (header : Header) (ops : List DraftOp)
    (t : Num) (xs : List (BitVec (8 * t.size))) :
    let m := draftRun e header ops
    let all := sdBusMessageAppendArray m t.code (numBytes m.endian t xs)
    let each := appendElements m t xs
    all.1 = each.1 ∧ (all.1 ≠ .error .enomem → all.2 = each.2) ∧
    (all.1 = .error .enomem → all.2.poisoned = true ∧
      all.2 = { each.2 with parts := all.2.parts, bodySize := all.2.bodySize }) ∧
    (∀ iov, iovecBytes iov = numBytes m.endian t xs →
      sdBusMessageAppendArrayIovec m t.code iov = all) ∧
    ∀ iov, (iovecBytes iov).length % t.size ≠ 0 → ∃ r,
      sdBusMessageAppendArray m t.code (iovecBytes iov) = (.error r, m) ∧
      sdBusMessageAppendArrayIovec m t.code iov = (.error r, m) := by
  intro m all each
  have hiov : ∀ iov, sdBusMessageAppendArrayIovec m t.code iov =
      sdBusMessageAppendArray m t.code (iovecBytes iov) :=
    sdBusMessageAppendArrayIovec_eq m t.code
  have hagree : Agree all each := sdBusMessageAppendArray_agree (draftRun_pointers e header ops) t xs
  refine ⟨?_, ?_, ?_, fun iov h => ?_, fun iov h => ?_⟩
  · rcases hagree with ⟨he, -⟩ | ⟨ha, he, -⟩
    · rw [he]
    · rw [ha, he]
  · intro hne
    rcases hagree with ⟨he, -⟩ | ⟨ha, -⟩
    · rw [he]
    · exact absurd ha hne
  · intro hr
    rcases hagree with ⟨he, hp⟩ | ⟨-, -, hp, hsame⟩
    · exact ⟨hp hr, by rw [← he]⟩
    · exact ⟨hp, hsame⟩
  · rw [hiov, h]
  · rw [hiov, sdBusMessageAppendArray_num, if_pos h]
    split_ifs <;> exact ⟨_, rfl, rfl⟩

theorem length_flat_addArraySize (e : Endian) (n : Nat) {parts : List Part} {c : Container}
    (hc : c.Points parts) : (flat (addArraySize e n c parts)).length = (flat parts).length := by
  unfold addArraySize
  cases hloc : c.arraySize with
  | none => rfl
  | some loc =>
    obtain ⟨pos, hl⟩ := hc loc hloc
    rw [flat_modify hl, length_addWord e hl.le_length]

theorem length_flat_foldr (e : Endian) (n : Nat) {parts : List Part} {cs : List Container}
    (hcs : ∀ c ∈ cs, c.Points parts) :
    (flat (cs.foldr (addArraySize e n) parts)).length = (flat parts).length := by
  induction cs with
  | nil => rfl
  | cons c cs ih =>
    have hrest : ∀ d ∈ cs, d.Points parts := fun d hd => hcs d (List.mem_cons_of_mem _ hd)
    rw [List.foldr_cons, length_flat_addArraySize e n ((hcs c List.mem_cons_self).foldr hrest e n),
      ih hrest]

theorem Message.length_body_extended {m : Message} (hok : PointersOk m.parts m.containers)
    (align : Nat) (fill : Bytes) :
    (m.extended align fill).body.length = m.body.length + fill.length := by
  rw [Message.body_eq, Message.body_eq]
  unfold extended
  split_ifs with hf
  · simp [hf]
  · have hgrow := hok.mono fun c hc => hc.mono fun l p hl => hl.grow align 0 fill false
    rw [length_flat_foldr m.endian _ hgrow.points, flat_growParts]
    simp

theorem appendElements_keeps {m m₁ : Message} {t : Num} (hok : PointersOk m.parts m.containers)
    (hopen : sdBusMessageOpenContainer m sdBusTypeArray [t.code] = (.ok (), m₁))
    (xs : List (BitVec (8 * t.size))) (x : BitVec (8 * t.size))
    (hfit : m₁.bodySize + xs.length * t.size ≤ uint32Max)
    (hover : uint32Max < m₁.bodySize + xs.length * t.size + t.size) :
    (sdBusMessageAppendArray m t.code (numBytes m.endian t (xs ++ [x]))).2.body = m₁.body ∧
    (appendElements m t (xs ++ [x])).2.body.length = m₁.body.length + xs.length * t.size := by
  obtain ⟨hin, hendian⟩ := (sdBusMessageOpenContainer_num hok hopen).2 rfl
  have hlen : (xs ++ [x]).length * t.size = xs.length * t.size + t.size := by
    rw [List.length_append, List.length_singleton]
    ring
  have hsp : ¬ m.sealed = true ∧ ¬ m.poisoned = true := by
    refine ⟨fun hs => ?_, fun hp => ?_⟩
    · simp [sdBusMessageOpenContainer, hs] at hopen
    · unfold sdBusMessageOpenContainer at hopen
      split_ifs at hopen <;> simp at hopen
  constructor
  · obtain ⟨loc, hext⟩ := messageExtendBody_of_dvd (numBytes m.endian t (xs ++ [x])) t.size_pos
      hin.aligned hin.poisoned
    rw [length_numBytes, hlen, ← Nat.add_assoc, if_pos hover] at hext
    have hwhole : ¬ (numBytes m.endian t (xs ++ [x])).length % t.size ≠ 0 := by
      rw [length_numBytes, Nat.mul_mod_left]
      exact fun h => h rfl
    rw [sdBusMessageAppendArray_num, if_neg hsp.1, if_neg hsp.2, if_neg hwhole, hopen]
    simp only [hext]
    rfl
  · have hbytes := length_numBytes m₁.endian t xs
    have hnext : (m₁.extended t.size (numBytes m₁.endian t xs)).InArray t :=
      hin.extended (hbytes ▸ Nat.dvd_mul_left _ _) (hbytes.symm ▸ hfit)
    have hrun : appendElements m t (xs ++ [x]) = (.error .enomem,
        { m₁.extended t.size (numBytes m₁.endian t xs) with poisoned := true }) := by
      rw [appendElements, elementOps, execAll, Op.exec,
        show sdBusMessageOpenContainer m sdBusTypeArray t.sig.1 = _ from hopen]
      simp only [List.map_append, List.append_assoc]
      rw [hin.execAll xs _ hfit, List.map_singleton, List.singleton_append, execAll, Op.exec,
        hnext.appendBasic, if_pos (by rw [Message.extended_bodySize, hbytes]; exact hover)]
    rw [hrun]
    exact (Message.length_body_extended hin.pointers _ _).trans (by rw [hbytes])

/-- As many zero bytes as the largest body has room for, and one more. -/
theorem not_sdBusMessageAppendArray_agrees :
    ¬ ∀ (e : Endian) (header : Header) (ops : List DraftOp) (t : Num)
      (xs : List (BitVec (8 * t.size))), let m := draftRun e header ops
      (sdBusMessageAppendArray m t.code (numBytes m.endian t xs)).2.body =
        (appendElements m t xs).2.body := by
  intro h
  have hopen : sdBusMessageOpenContainer (draftRun .little { type := 1 } []) sdBusTypeArray
      [Num.byte.code] = (.ok (), {
        endian := .little, header := { type := 1 }, parts := [{ data := [0, 0, 0, 0] }]
        bodySize := 4, root := { signature := some [97, 121], index := 2 }
        containers := [{ enclosing := 97, signature := some [121], arraySize := some (0, 0) }] }) := by
    decide +kernel
  have hsplit : 4 + (uint32Max - 4) * 1 = uint32Max := by decide
  generalize uint32Max - 4 = n at hsplit
  have hkeeps := appendElements_keeps (t := .byte) (draftRun_pointers .little { type := 1 } [])
    hopen (List.replicate n 0) 0
  rw [List.length_replicate] at hkeeps
  obtain ⟨hall, heach⟩ := hkeeps (Nat.le_of_eq hsplit) (by rw [← hsplit]; exact Nat.lt_succ_self _)
  have hbody := h .little { type := 1 } [] .byte (List.replicate n 0 ++ [0])
  simp only at hbody
  rw [hall] at hbody
  have hlen := congrArg List.length hbody
  rw [heach] at hlen
  -- the one has the length word only, the other `n` more bytes
  have hn : n * 1 = 0 := Nat.left_eq_add.mp hlen
  rw [hn] at hsplit
  exact absurd hsplit (by decide)

end Basu
