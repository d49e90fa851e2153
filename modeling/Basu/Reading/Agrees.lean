import Basu.Reading.Container
import Mathlib.Data.List.Forall2

/-! Calls on a sealed message, and messages on which every run of calls gives the same answers:
those that differ in the saved index of the last container, and in version 1 also in the sizes of
items, which only version 2 has. -/

namespace Basu.Reading
open Lib

inductive Call
  | readBasic (type : UInt8)
  | enterContainer (type : UInt8) (contents : Option CStr)
  | exitContainer
  | readArray (type : UInt8)
  | peekType

inductive Answer
  | value (v : Option BasicVal)
  | entered (b : Bool)
  | exited
  | bytes (q : Option Bytes)
  | type (t : Option (UInt8 × Option Str))
  deriving DecidableEq

def Answer.isZero : Answer → Bool
  | .value v => v.isNone
  | .entered b => !b
  | .exited => false
  | .bytes q => q.isNone
  | .type t => t.isNone

def peekType (m : SdBusMessage) : Except Stop (Option (UInt8 × Option Str)) :=
  match sdBusMessagePeekType m with
  | .error r => .error (.errno r)
  | .ok t => .ok t

def Call.exec (m : SdBusMessage) : Call → Except Stop Answer × SdBusMessage
  | .readBasic type =>
    let (r, m) := sdBusMessageReadBasic m type
    (r.map .value, m)
  | .enterContainer type contents =>
    let (r, m) := sdBusMessageEnterContainer m type (contents.map (·.1))
    (r.map .entered, m)
  | .exitContainer =>
    let (r, m) := sdBusMessageExitContainer m
    (r.map fun _ => .exited, m)
  | .readArray type =>
    let (r, m) := sdBusMessageReadArray m type
    (r.map .bytes, m)
  | .peekType => ((Reading.peekType m).map .type, m)

def run (m : SdBusMessage) : List Call → List (Except Stop Answer) × SdBusMessage
  | [] => ([], m)
  | x :: xs =>
    let (r, m) := x.exec m
    let (rs, m) := run m xs
    (r :: rs, m)

section Content
variable {m : SdBusMessage}

theorem sdBusMessageReadBasic_content (m : SdBusMessage) (type : UInt8) :
    (sdBusMessageReadBasic m type).2.toContent = m.toContent := by
  obtain ⟨r, h⟩ | ⟨h, -⟩ | ⟨v, m', h, hm'⟩ := sdBusMessageReadBasic_cases m type
  · rw [h]
  · rw [h]
  · obtain ⟨b, ri, c, ri', -, -, -, rfl⟩ := hm'.value
    rw [h]

theorem enterContainer_content (m : SdBusMessage) (type : UInt8) (contents : Option Str) :
    (enterContainer m type contents).2.toContent = m.toContent := by
  cases contents with
  | none =>
    unfold enterContainer
    split_ifs <;> rfl
  | some s =>
    obtain ⟨r, h⟩ | ⟨h, -⟩ | ⟨r, ri, h, -⟩ | ⟨m', h, hm'⟩ := enterContainer_cases m type s
    · rw [h]
    · rw [h]
    · rw [h]
    · obtain ⟨x, ri, -, rfl⟩ := hm'.entered
      rw [h]
      rfl

theorem sdBusMessageEnterContainer_content (m : SdBusMessage) (type : UInt8)
    (contents : Option Str) :
    (sdBusMessageEnterContainer m type contents).2.toContent = m.toContent := by
  unfold sdBusMessageEnterContainer
  split
  · split_ifs
    · rfl
    · exact enterContainer_content m _ _
  split
  · rfl
  · split_ifs
    · rfl
    · exact enterContainer_content m _ _
  · split_ifs
    · rfl
    · exact enterContainer_content m _ _

theorem resume_content (m : SdBusMessage) : (resume m).2.toContent = m.toContent := by
  unfold resume
  split <;> rfl

theorem sdBusMessageExitContainer_content (m : SdBusMessage) :
    (sdBusMessageExitContainer m).2.toContent = m.toContent := by
  obtain ⟨r, h⟩ | ⟨c, cs, -, -, h⟩ := sdBusMessageExitContainer_cases m
  · rw [h]
  · rw [h, resume_content]

theorem messageQuitContainer_content {α : Type} (r : Stop) (m : SdBusMessage) :
    (messageQuitContainer (α := α) r m).2.toContent = m.toContent := by
  unfold messageQuitContainer
  split
  · rfl
  · split_ifs <;> rfl

theorem arrayBytes_content (m : SdBusMessage) (align sz : Nat) :
    (arrayBytes m align sz).2.toContent = m.toContent := by
  unfold arrayBytes
  split_ifs
  · rfl
  · split <;> rfl

theorem sdBusMessageReadArray_content (m : SdBusMessage) (type : UInt8) :
    (sdBusMessageReadArray m type).2.toContent = m.toContent := by
  unfold sdBusMessageReadArray
  split_ifs
  · rfl
  · rfl
  have henter := sdBusMessageEnterContainer_content m sdBusTypeArray (some [type])
  split
  · rename_i h
    rw [h] at henter
    exact henter
  · rename_i h
    rw [h] at henter
    exact henter
  rename_i m₁ h
  rw [h] at henter
  have hbytes := arrayBytes_content m₁
    ((if m₁.gvariant then GVariant.busGvariantGetAlignment [type]
      else busTypeGetAlignment type).getD 1)
    (if m₁.gvariant then m₁.last.stop - m₁.last.begin else m₁.last.arraySize)
  dsimp only
  split
  · rename_i h
    rw [h] at hbytes
    exact (messageQuitContainer_content _ _).trans (hbytes.trans henter)
  rename_i m₂ h
  rw [h] at hbytes
  have hexit := sdBusMessageExitContainer_content m₂
  split
  · rename_i h
    rw [h] at hexit
    exact (messageQuitContainer_content _ _).trans (hexit.trans (hbytes.trans henter))
  · rename_i h
    rw [h] at hexit
    exact hexit.trans (hbytes.trans henter)

end Content

theorem exec_content (m : SdBusMessage) (x : Call) : (x.exec m).2.toContent = m.toContent := by
  cases x with
  | readBasic type => exact sdBusMessageReadBasic_content m type
  | enterContainer type contents => exact sdBusMessageEnterContainer_content m type _
  | exitContainer => exact sdBusMessageExitContainer_content m
  | readArray type => exact sdBusMessageReadArray_content m type
  | peekType => rfl

def BusContainer.alter (c : BusContainer) (saved stop item : Nat) : BusContainer :=
  { c with toContainer :=
    { c.toContainer with savedIndex := saved, stop := stop, itemSize := item } }

structure Alters (gvariant : Bool) (saved : Nat) (c c' : BusContainer) : Prop where
  eq : ∃ stop item, c' = c.alter saved stop item
  sizes : gvariant = true → c'.stop = c.stop ∧ c'.itemSize = c.itemSize

theorem Alters.refl (gvariant : Bool) (c : BusContainer) : Alters gvariant c.savedIndex c c :=
  ⟨⟨c.stop, c.itemSize, rfl⟩, fun _ => ⟨rfl, rfl⟩⟩

structure Agrees (m m' : SdBusMessage) : Prop where
  content : m'.toContent = m.toContent
  last : ∃ saved, Alters m.gvariant saved m.last m'.last
  outer : List.Forall₂ (fun c c' => Alters m.gvariant c.savedIndex c c') m.outer m'.outer
  rindex : m'.rindex = m.rindex

structure SameResult {α : Type} (r r' : Except Stop α × SdBusMessage) : Prop where
  result : r'.1 = r.1
  agrees : Agrees r.2 r'.2

theorem SameResult.pairs {α : Type} {r r' : Except Stop α × SdBusMessage} (h : SameResult r r') :
    ∃ x m m', r = (x, m) ∧ r' = (x, m') ∧ Agrees m m' :=
  ⟨r.1, r.2, r'.2, rfl, Prod.ext h.result rfl, h.agrees⟩

section Agrees
variable {m m' : SdBusMessage}

theorem Alters.signature {gvariant : Bool} {saved : Nat} {c c' : BusContainer}
    (h : Alters gvariant saved c c') : c'.signature = c.signature := by
  obtain ⟨stop, item, rfl⟩ := h.eq
  rfl

theorem Alters.rest {gvariant : Bool} {saved : Nat} {c c' : BusContainer}
    (h : Alters gvariant saved c c') : c'.rest = c.rest := by
  obtain ⟨stop, item, rfl⟩ := h.eq
  rfl

theorem Agrees.rest (h : Agrees m m') : m'.last.rest = m.last.rest := by
  obtain ⟨saved, hs⟩ := h.last
  exact hs.rest

theorem Agrees.cur (h : Agrees m m') : m'.last.cur = m.last.cur :=
  congrArg (charAt · 0) h.rest

theorem Agrees.enclosing (h : Agrees m m') : m'.last.enclosing = m.last.enclosing := by
  obtain ⟨saved, hs⟩ := h.last
  obtain ⟨stop, item, heq⟩ := hs.eq
  rw [heq]
  rfl

theorem Agrees.gvariant (h : Agrees m m') : m'.gvariant = m.gvariant :=
  congrArg Content.gvariant h.content

theorem Agrees.itemSize (h : Agrees m m') (hv : m.gvariant = true) :
    m'.last.itemSize = m.last.itemSize := by
  obtain ⟨saved, hs⟩ := h.last
  exact (hs.sizes hv).2

theorem Agrees.endOfSignature (h : Agrees m m') :
    messageEndOfSignature m' = messageEndOfSignature m := by
  unfold messageEndOfSignature
  rw [h.cur]

theorem Agrees.endOfArray (h : Agrees m m') :
    messageEndOfArray m' m'.rindex = messageEndOfArray m m.rindex := by
  unfold messageEndOfArray
  rw [h.enclosing, h.gvariant, h.rindex]
  obtain ⟨saved, hs⟩ := h.last
  split_ifs with hv
  · rw [(hs.sizes hv).1]
  · obtain ⟨stop, item, heq⟩ := hs.eq
    rw [heq]
    rfl

theorem Agrees.readBasicValue (h : Agrees m m') (b : Basic) :
    readBasicValue m' b = readBasicValue m b := by
  unfold Reading.readBasicValue
  rw [h.gvariant, h.content, h.rindex]
  split_ifs with hv
  · rw [h.itemSize hv]
  · rfl

theorem gvariantNextItem_saved (c : GVariant.Container) (saved : Nat) :
    GVariant.containerNextItem { c with savedIndex := saved } =
      (GVariant.containerNextItem c).map fun (c', ri) => ({ c' with savedIndex := saved }, ri) := by
  have hrest : GVariant.Container.rest { c with savedIndex := saved } = c.rest := rfl
  unfold GVariant.containerNextItem
  rw [hrest]
  dsimp only
  by_cases harray : c.enclosing = sdBusTypeArray
  · rw [if_pos harray, if_pos harray]
    cases GVariant.busGvariantGetSize (strempty c.signature) <;> dsimp only <;> split <;> rfl
  rw [if_neg harray, if_neg harray]
  cases signatureElementLength c.rest with
  | none => split_ifs <;> rfl
  | some n =>
    dsimp only
    cases signatureElementLength (c.rest.drop n) <;> split_ifs <;> rfl

theorem Alters.nextItem {d : Content} {saved : Nat} {c c' : BusContainer}
    (h : Alters d.gvariant saved c c') (ri : Nat) :
    (∃ r, containerNextItem d c ri = .error r ∧ containerNextItem d c' ri = .error r) ∨
    ∃ c₁ c₁' ri₁, containerNextItem d c ri = .ok (c₁, ri₁) ∧
      containerNextItem d c' ri = .ok (c₁', ri₁) ∧ Alters d.gvariant saved c₁ c₁' := by
  obtain ⟨⟨stop, item, rfl⟩, hsizes⟩ := h
  unfold containerNextItem
  by_cases hv : d.gvariant = true
  · obtain ⟨rfl, rfl⟩ : stop = c.stop ∧ item = c.itemSize := hsizes hv
    rw [if_pos hv, if_pos hv]
    have hc := gvariantNextItem_saved c.toContainer saved
    have halter : (c.alter saved c.stop c.itemSize).toContainer =
        { c.toContainer with savedIndex := saved } := rfl
    rw [halter, hc]
    cases GVariant.containerNextItem c.toContainer with
    | error r => exact .inl ⟨r, rfl, rfl⟩
    | ok x =>
      refine .inr ⟨_, _, x.2, rfl, rfl, ⟨⟨x.1.stop, x.1.itemSize, rfl⟩, fun _ => ⟨rfl, rfl⟩⟩⟩
  · rw [if_neg hv, if_neg hv]
    exact .inr ⟨c, _, ri, rfl, rfl, ⟨⟨stop, item, rfl⟩, hsizes⟩⟩

theorem Alters.advance {gvariant : Bool} {saved : Nat} {c c' : BusContainer}
    (h : Alters gvariant saved c c') (n : Nat) :
    Alters gvariant saved (c.advance n) (c'.advance n) := by
  obtain ⟨⟨stop, item, rfl⟩, hsizes⟩ := h
  unfold BusContainer.advance GVariant.Container.advance
  by_cases harray : c.enclosing = sdBusTypeArray
  all_goals
    exact ⟨⟨stop, item, by simp [BusContainer.alter, harray]⟩,
      by simpa [BusContainer.alter, harray] using hsizes⟩

theorem Agrees.sdBusMessageReadBasic (h : Agrees m m') (type : UInt8) :
    SameResult (sdBusMessageReadBasic m type) (sdBusMessageReadBasic m' type) := by
  unfold Reading.sdBusMessageReadBasic
  rw [h.endOfSignature, h.endOfArray, h.cur]
  cases Basic.ofCode type with
  | none => exact ⟨rfl, h⟩
  | some b =>
    dsimp only
    rw [h.readBasicValue]
    split_ifs
    · exact ⟨rfl, h⟩
    · exact ⟨rfl, h⟩
    · exact ⟨rfl, h⟩
    cases Reading.readBasicValue m b with
    | error r => exact ⟨rfl, h⟩
    | ok x =>
      obtain ⟨saved, hs⟩ := h.last
      rw [h.content]
      dsimp only
      obtain ⟨r, hr, hr'⟩ | ⟨c₁, c₁', ri₁, hr, hr', hc⟩ := hs.nextItem x.2
      · rw [hr, hr']
        exact ⟨rfl, h⟩
      · rw [hr, hr']
        exact ⟨rfl, rfl, ⟨saved, hc.advance 1⟩, h.outer, rfl⟩

theorem Agrees.peekVariant (h : Agrees m m') : peekVariant m' = peekVariant m := by
  unfold Reading.peekVariant
  rw [h.gvariant, h.content, h.rindex]
  by_cases hv : m.gvariant = true
  · rw [if_pos hv, if_pos hv, h.itemSize hv]
  · rw [if_neg hv, if_neg hv]

theorem Agrees.sdBusMessagePeekType (h : Agrees m m') :
    sdBusMessagePeekType m' = sdBusMessagePeekType m := by
  unfold Reading.sdBusMessagePeekType
  dsimp only
  rw [h.endOfSignature, h.endOfArray, h.cur, h.rest, h.peekVariant]

theorem Agrees.busMessageEnterArray (h : Agrees m m') (contents : Str) :
    busMessageEnterArray m' contents = busMessageEnterArray m contents := by
  obtain ⟨saved, hs⟩ := h.last
  unfold Reading.busMessageEnterArray enterArrayGvariant
  dsimp only
  rw [h.cur, h.rest, h.gvariant, h.content, h.rindex, hs.signature]
  by_cases hv : m.gvariant = true
  · rw [if_pos hv, if_pos hv, h.itemSize hv]
  · rw [if_neg hv, if_neg hv]

theorem Agrees.busMessageEnterVariant (h : Agrees m m') (contents : Str) :
    busMessageEnterVariant m' contents = busMessageEnterVariant m contents := by
  unfold Reading.busMessageEnterVariant
  dsimp only
  rw [h.cur, h.gvariant, h.content, h.rindex]
  by_cases hv : m.gvariant = true
  · rw [if_pos hv, if_pos hv, h.itemSize hv]
  · rw [if_neg hv, if_neg hv]

theorem Agrees.hasMembers (h : Agrees m m') (first last : UInt8) (contents : Str) :
    m'.last.hasMembers first last contents = m.last.hasMembers first last contents := by
  obtain ⟨saved, hs⟩ := h.last
  obtain ⟨stop, item, heq⟩ := hs.eq
  rw [heq]
  rfl

theorem Agrees.enterStructOrDictEntry (h : Agrees m m') (contents : Str) :
    enterStructOrDictEntry m' contents = enterStructOrDictEntry m contents := by
  unfold Reading.enterStructOrDictEntry
  rw [h.gvariant, h.content, h.rindex]
  by_cases hv : m.gvariant = true
  · rw [if_pos hv, if_pos hv, h.itemSize hv]
  · rw [if_neg hv, if_neg hv]

theorem Agrees.enterByType (h : Agrees m m') (type : UInt8) (contents : Str) :
    enterByType m' type contents = enterByType m type contents := by
  unfold Reading.enterByType busMessageEnterStruct busMessageEnterDictEntry
  rw [h.busMessageEnterArray, h.busMessageEnterVariant, h.enterStructOrDictEntry, h.hasMembers,
    h.hasMembers, h.enclosing, h.rindex]

theorem Alters.save {gvariant : Bool} {saved : Nat} {c c' : BusContainer}
    (h : Alters gvariant saved c c') : Alters gvariant c.save.savedIndex c.save c'.save := by
  obtain ⟨⟨stop, item, rfl⟩, hsizes⟩ := h
  exact ⟨⟨stop, item, rfl⟩, hsizes⟩

theorem Agrees.newContainer (h : Agrees m m') (type : UInt8) (contents : Str) (x : Entered) :
    Alters m.gvariant 0 (m.newContainer type contents x) (m'.newContainer type contents x) := by
  refine ⟨⟨(m'.newContainer type contents x).stop, x.itemSize, ?_⟩, fun hv => ⟨?_, rfl⟩⟩
  · unfold SdBusMessage.newContainer BusContainer.alter
    rw [h.rindex]
  · unfold SdBusMessage.newContainer
    dsimp only
    rw [h.gvariant, h.itemSize hv]

theorem Agrees.enter (h : Agrees m m') (type : UInt8) (contents : Str) (x : Entered) :
    Agrees (m.enter type contents x) (m'.enter type contents x) := by
  obtain ⟨saved, hs⟩ := h.last
  refine ⟨h.content, ⟨0, h.newContainer type contents x⟩, .cons ?_ h.outer, rfl⟩
  have hadvance := hs.save.advance x.skip
  have hkept : (m.last.save.advance x.skip).savedIndex = m.last.save.savedIndex := by
    unfold BusContainer.advance GVariant.Container.advance
    split_ifs <;> rfl
  rwa [← hkept] at hadvance

theorem Agrees.enterContainer (h : Agrees m m') (type : UInt8) (contents : Option Str) :
    SameResult (enterContainer m type contents) (enterContainer m' type contents) := by
  unfold Reading.enterContainer
  rw [h.endOfSignature, h.endOfArray, ← h.outer.length_eq]
  split_ifs
  · exact ⟨rfl, h⟩
  · exact ⟨rfl, h⟩
  · exact ⟨rfl, h⟩
  cases contents with
  | none => exact ⟨rfl, h⟩
  | some s =>
    dsimp only
    rw [h.enterByType]
    obtain ⟨saved, hs⟩ := h.last
    cases Reading.enterByType m type s with
    | mk r ri =>
      cases r with
      | error r => exact ⟨rfl, h.content, ⟨_, hs.save⟩, h.outer, rfl⟩
      | ok x => exact ⟨rfl, h.enter type s x⟩

theorem Agrees.sdBusMessageEnterContainer (h : Agrees m m') (type : UInt8)
    (contents : Option Str) :
    SameResult (sdBusMessageEnterContainer m type contents)
      (sdBusMessageEnterContainer m' type contents) := by
  unfold Reading.sdBusMessageEnterContainer
  cases contents with
  | some s =>
    dsimp only
    split_ifs
    · exact ⟨rfl, h⟩
    · exact h.enterContainer type (some s)
  | none =>
    dsimp only
    rw [h.sdBusMessagePeekType]
    cases Reading.sdBusMessagePeekType m with
    | error r => exact ⟨rfl, h⟩
    | ok t =>
      cases t with
      | none =>
        dsimp only
        split_ifs
        · exact ⟨rfl, h⟩
        · exact h.enterContainer 0 none
      | some t =>
        dsimp only
        split_ifs
        · exact ⟨rfl, h⟩
        · exact h.enterContainer t.1 t.2

theorem Alters.setIndex {gvariant : Bool} {saved : Nat} {c c' : BusContainer}
    (h : Alters gvariant saved c c') (index : Nat) :
    Alters gvariant saved (c.setIndex index) (c'.setIndex index) := by
  obtain ⟨⟨stop, item, rfl⟩, hsizes⟩ := h
  exact ⟨⟨stop, item, rfl⟩, hsizes⟩

theorem Alters.index {gvariant : Bool} {saved : Nat} {c c' : BusContainer}
    (h : Alters gvariant saved c c') : c'.index = c.index := by
  obtain ⟨stop, item, rfl⟩ := h.eq
  rfl

theorem Alters.savedIndex {gvariant : Bool} {saved : Nat} {c c' : BusContainer}
    (h : Alters gvariant saved c c') : c'.savedIndex = saved := by
  obtain ⟨stop, item, rfl⟩ := h.eq
  rfl

theorem Agrees.resume (h : Agrees m m') (hs : Alters m.gvariant m.last.savedIndex m.last m'.last) :
    SameResult (resume m) (resume m') := by
  unfold Reading.resume
  rw [h.content, hs.savedIndex, hs.index, h.rindex]
  have hback := hs.setIndex m.last.savedIndex
  obtain ⟨r, hr, hr'⟩ | ⟨c₁, c₁', ri₁, hr, hr', hc⟩ := hback.nextItem m.rindex
  · rw [hr, hr']
    exact ⟨rfl, h⟩
  · rw [hr, hr']
    exact ⟨rfl, rfl, ⟨_, hc.setIndex _⟩, h.outer, rfl⟩

theorem Agrees.begin (h : Agrees m m') : m'.last.begin = m.last.begin := by
  obtain ⟨saved, hs⟩ := h.last
  obtain ⟨stop, item, heq⟩ := hs.eq
  rw [heq]
  rfl

theorem Agrees.before (h : Agrees m m') : m'.last.before = m.last.before := by
  obtain ⟨saved, hs⟩ := h.last
  obtain ⟨stop, item, heq⟩ := hs.eq
  rw [heq]
  rfl

theorem Agrees.arraySize (h : Agrees m m') : m'.last.arraySize = m.last.arraySize := by
  obtain ⟨saved, hs⟩ := h.last
  obtain ⟨stop, item, heq⟩ := hs.eq
  rw [heq]
  rfl

theorem Agrees.stop (h : Agrees m m') (hv : m.gvariant = true) : m'.last.stop = m.last.stop := by
  obtain ⟨saved, hs⟩ := h.last
  exact (hs.sizes hv).1

theorem Agrees.sdBusMessageExitContainer (h : Agrees m m') :
    SameResult (sdBusMessageExitContainer m) (sdBusMessageExitContainer m') := by
  unfold Reading.sdBusMessageExitContainer
  have hstop : (m'.gvariant ∧ m'.rindex < m'.last.stop) ↔ m.gvariant ∧ m.rindex < m.last.stop := by
    rw [h.gvariant, h.rindex]
    exact and_congr_right fun hv => by rw [h.stop hv]
  have houter := h.outer
  cases hm : m.outer with
  | nil =>
    rw [hm] at houter
    cases hm' : m'.outer with
    | nil => exact ⟨rfl, h⟩
    | cons c cs =>
      rw [hm'] at houter
      cases houter
  | cons c cs =>
    rw [hm] at houter
    cases hm' : m'.outer with
    | nil =>
      rw [hm'] at houter
      cases houter
    | cons c' cs' =>
      rw [hm'] at houter
      obtain ⟨hc, hcs⟩ := List.forall₂_cons.mp houter
      dsimp only
      simp only [hstop]
      rw [h.enclosing, h.cur, h.gvariant, h.begin, h.arraySize, h.rindex, h.content]
      split_ifs
      · exact ⟨rfl, h⟩
      · exact ⟨rfl, h⟩
      · exact ⟨rfl, h⟩
      · refine Agrees.resume ⟨rfl, ⟨_, hc⟩, hcs, rfl⟩ hc

theorem Agrees.messageQuitContainer (h : Agrees m m') {α : Type} (r : Stop) :
    SameResult (messageQuitContainer (α := α) r m) (messageQuitContainer r m') := by
  unfold Reading.messageQuitContainer
  have houter := h.outer
  cases hm : m.outer with
  | nil =>
    rw [hm] at houter
    cases hm' : m'.outer with
    | nil => exact ⟨rfl, h⟩
    | cons c cs =>
      rw [hm'] at houter
      cases houter
  | cons c cs =>
    rw [hm] at houter
    cases hm' : m'.outer with
    | nil =>
      rw [hm'] at houter
      cases houter
    | cons c' cs' =>
      rw [hm'] at houter
      obtain ⟨hc, hcs⟩ := List.forall₂_cons.mp houter
      dsimp only
      rw [h.before, h.rindex, hc.savedIndex, h.content]
      split_ifs
      · exact ⟨rfl, h⟩
      · exact ⟨rfl, rfl, ⟨_, hc.setIndex _⟩, hcs, rfl⟩

theorem Agrees.arrayBytes (h : Agrees m m') (align sz : Nat) :
    SameResult (arrayBytes m align sz) (arrayBytes m' align sz) := by
  unfold Reading.arrayBytes
  rw [h.content, h.rindex]
  split_ifs
  · exact ⟨rfl, h⟩
  cases messagePeekBody m.toContent m.rindex align sz with
  | error r => exact ⟨rfl, h⟩
  | ok x => exact ⟨rfl, rfl, h.last, h.outer, rfl⟩

theorem Agrees.arrayLength (h : Agrees m m') :
    (if m'.gvariant then m'.last.stop - m'.last.begin else m'.last.arraySize) =
      if m.gvariant then m.last.stop - m.last.begin else m.last.arraySize := by
  rw [h.gvariant, h.begin, h.arraySize]
  split_ifs with hv
  · rw [h.stop hv]
  · rfl

theorem Agrees.sdBusMessageReadArray (h : Agrees m m') (type : UInt8) :
    SameResult (sdBusMessageReadArray m type) (sdBusMessageReadArray m' type) := by
  unfold Reading.sdBusMessageReadArray
  rw [h.content]
  split_ifs
  · exact ⟨rfl, h⟩
  · exact ⟨rfl, h⟩
  obtain ⟨r, m₁, m₁', he, he', h₁⟩ :=
    (h.sdBusMessageEnterContainer sdBusTypeArray (some [type])).pairs
  rw [he, he']
  match r with
  | .error r => exact ⟨rfl, h₁⟩
  | .ok false => exact ⟨rfl, h₁⟩
  | .ok true =>
    dsimp only
    rw [h₁.arrayLength, h₁.gvariant]
    obtain ⟨r, m₂, m₂', hb, hb', h₂⟩ := (h₁.arrayBytes _ _).pairs
    rw [hb, hb']
    match r with
    | .error r => exact h₂.messageQuitContainer r
    | .ok q =>
      obtain ⟨r, m₃, m₃', hx, hx', h₃⟩ := h₂.sdBusMessageExitContainer.pairs
      dsimp only
      rw [hx, hx']
      match r with
      | .error r => exact h₃.messageQuitContainer r
      | .ok _ => exact ⟨rfl, h₃⟩

end Agrees

theorem Agrees.exec {m m' : SdBusMessage} (h : Agrees m m') (x : Call) :
    SameResult (x.exec m) (x.exec m') := by
  cases x with
  | readBasic type =>
    obtain ⟨hr, h₁⟩ := h.sdBusMessageReadBasic type
    exact ⟨congrArg (Except.map Answer.value) hr, h₁⟩
  | enterContainer type contents =>
    obtain ⟨hr, h₁⟩ := h.sdBusMessageEnterContainer type (contents.map (·.1))
    exact ⟨congrArg (Except.map Answer.entered) hr, h₁⟩
  | exitContainer =>
    obtain ⟨hr, h₁⟩ := h.sdBusMessageExitContainer
    exact ⟨congrArg (Except.map fun _ => Answer.exited) hr, h₁⟩
  | readArray type =>
    obtain ⟨hr, h₁⟩ := h.sdBusMessageReadArray type
    exact ⟨congrArg (Except.map Answer.bytes) hr, h₁⟩
  | peekType =>
    refine ⟨?_, h⟩
    unfold Call.exec Reading.peekType
    rw [h.sdBusMessagePeekType]

theorem Agrees.run {m m' : SdBusMessage} (h : Agrees m m') (xs : List Call) :
    (run m' xs).1 = (run m xs).1 ∧ Agrees (run m xs).2 (run m' xs).2 := by
  induction xs generalizing m m' with
  | nil => exact ⟨rfl, h⟩
  | cons x xs ih =>
    obtain ⟨hr, h₁⟩ := h.exec x
    obtain ⟨hrs, h₂⟩ := ih h₁
    exact ⟨congrArg₂ List.cons hr hrs, h₂⟩

end Basu.Reading
