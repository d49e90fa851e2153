import Basu.GVariant.Reader
import Basu.Reading.Message

/-! Entering and leaving containers, and the calls built on that (`bus-message.c`). -/

namespace Basu.Reading
open Lib

def variantContents (d : Content) (ri itemSize : Nat) : Nat → Nat → Except Errno Str
  | 0, _ => .error .ebadmsg
  | fuel + 1, k =>
    if itemSize < k then .error .ebadmsg
    else match messagePeekBody d (ri + itemSize - k) 1 k with
      | .error r => .error r
      | .ok (q, _) =>
        if charAt q 0 = 0 then .ok ((q.drop 1).takeWhile (· ≠ 0))
        else variantContents d ri itemSize fuel (k + 1)

def peekVariant (m : SdBusMessage) : Except Errno Str :=
  if m.gvariant then
    if m.last.itemSize < 2 then .error .ebadmsg
    else match variantContents m.toContent m.rindex m.last.itemSize (m.last.itemSize + 1) 2 with
      | .error r => .error r
      | .ok s => if validSignature s then .ok s else .error .ebadmsg
  else (peekSignature m.toContent m.rindex).map fun (s, _) => s

/-- `sd_bus_message_peek_type`: the type of what comes next, with the contents of a container;
`none` where nothing comes. -/
def sdBusMessagePeekType (m : SdBusMessage) : Except Errno (Option (UInt8 × Option Str)) :=
  let c := m.last
  if messageEndOfSignature m || messageEndOfArray m m.rindex then .ok none
  else if busTypeIsBasic c.cur then .ok (some (c.cur, none))
  else if c.cur = sdBusTypeArray then
    match signatureElementLength (c.rest.drop 1) with
    | none => .error .einval
    | some l => .ok (some (sdBusTypeArray, some ((c.rest.drop 1).take l)))
  else if c.cur = sdBusTypeStructBegin ∨ c.cur = sdBusTypeDictEntryBegin then
    match signatureElementLength c.rest with
    | none => .error .einval
    | some l =>
      .ok (some (if c.cur = sdBusTypeStructBegin then sdBusTypeStruct else sdBusTypeDictEntry,
        some ((c.rest.drop 1).take (l - 2))))
  else if c.cur = sdBusTypeVariant then
    (peekVariant m).map fun s => some (sdBusTypeVariant, some s)
  else .error .einval

/-- What entering a container finds: where the message is read on, how far the index of the
container around it moves, and what the new container holds. -/
structure Entered where
  rindex : Nat
  skip : Nat
  arraySize : Nat := 0
  itemSize : Nat := 0
  offsets : List Nat := []
  deriving DecidableEq, Repr

def enterArrayDbus1 (d : Content) (ri : Nat) (contents : Str) : Except Errno Entered :=
  match peekWord d ri 4 with
  | .error r => .error r
  | .ok (size, ri) =>
    if busArrayMaxSize < size then .error .ebadmsg
    else match busTypeGetAlignment (charAt contents 0) with
      | none => .error .einval
      | some alignment =>
        match messagePeekBody d ri alignment 0 with
        | .error r => .error r
        | .ok (_, ri) => .ok { rindex := ri, skip := 1 + contents.length, arraySize := size }

def enterArrayGvariant (d : Content) (ri : Nat) (c : BusContainer) (contents : Str) :
    Except Errno Entered :=
  let x : Entered := { rindex := ri, skip := 1 + contents.length }
  if c.itemSize = 0 then .ok x
  else if GVariant.busGvariantIsFixedSize contents ≠ some false then
    .ok { x with itemSize := (GVariant.busGvariantGetSize contents).getD 0 }
  else
    let sz := wordSize c.itemSize
    match messagePeekBody d (ri + c.itemSize - sz) 1 sz with
    | .error r => .error r
    | .ok (q, _) =>
      let framing := getWord .little q
      if c.itemSize - sz < framing then .error .ebadmsg
      else if (c.itemSize - framing) % sz ≠ 0 then .error .ebadmsg
      else
        let n := (c.itemSize - framing) / sz
        match messagePeekBody d (ri + framing) 1 (n * sz) with
        | .error r => .error r
        | .ok (table, _) =>
          -- the alignment is that of all types of the container around the array
          (GVariant.arrayOffsets ri c.itemSize sz
            ((GVariant.busGvariantGetAlignment (strempty c.signature)).getD 1) table n 0 0).map
            fun offsets => { x with itemSize := offsets.headD 0 - ri, offsets := offsets }

def busMessageEnterArray (m : SdBusMessage) (contents : Str) : Except Errno Entered :=
  let c := m.last
  if signatureIsSingle contents true = false then .error .einval
  else if c.cur ≠ sdBusTypeArray then .error .enxio
  else if contents.isPrefixOf (c.rest.drop 1) = false then .error .enxio
  else if m.gvariant then enterArrayGvariant m.toContent m.rindex c contents
  else enterArrayDbus1 m.toContent m.rindex contents

def busMessageEnterVariant (m : SdBusMessage) (contents : Str) : Except Errno Entered :=
  let c := m.last
  let k := contents.length
  if signatureIsSingle contents false = false then .error .einval
  else if charAt contents 0 = sdBusTypeDictEntryBegin then .error .einval
  else if c.cur ≠ sdBusTypeVariant then .error .enxio
  else if m.gvariant then
    if c.itemSize < 1 + k then .error .ebadmsg
    else match messagePeekBody m.toContent (m.rindex + c.itemSize - (1 + k)) 1 (1 + k) with
      | .error r => .error r
      | .ok (q, _) =>
        if charAt q 0 ≠ 0 then .error .ebadmsg
        else if q.drop 1 ≠ contents then .error .enxio
        else .ok { rindex := m.rindex, skip := 1, itemSize := c.itemSize - (1 + k) }
  else match peekSignature m.toContent m.rindex with
    | .error r => .error r
    | .ok (s, ri) => if s ≠ contents then .error .enxio else .ok { rindex := ri, skip := 1 }

theorem busMessageEnterVariant_single {m : SdBusMessage} {contents : Str} {x : Entered}
    (h : busMessageEnterVariant m contents = .ok x) : signatureIsSingle contents false = true :=
  Bool.eq_true_of_not_eq_false (ok_of_guard h).1

/-- `build_struct_offsets`, with the index the message is at afterwards: the byte that stands for a
structure without members is passed before it is checked. -/
def buildStructOffsets (d : Content) (ri : Nat) (signature : Str) (size : Nat) :
    Except Errno (Nat × List Nat) × Nat :=
  if signature = [] then
    match messagePeekBody d ri 1 1 with
    | .error r => (.error r, ri)
    | .ok (q, ri) => (if charAt q 0 ≠ 0 then .error .ebadmsg else .ok (0, []), ri)
  else
    let sz := wordSize size
    match GVariant.countVariable (signature.length + 1) signature with
    | none => (.error .einval, ri)
    | some nVariable =>
      if size < nVariable * sz then (.error .ebadmsg, ri)
      else match messagePeekBody d (ri + size - nVariable * sz) 1 (nVariable * sz) with
        | .error r => (.error r, ri)
        | .ok (table, _) =>
          ((GVariant.memberOffsets ri size sz nVariable table (signature.length + 1) signature
            nVariable ri).map fun offsets => (offsets.headD 0 - ri, offsets), ri)

def enterStructOrDictEntry (m : SdBusMessage) (contents : Str) : Except Errno Entered × Nat :=
  let skip := 1 + contents.length + 1
  if m.gvariant then
    let (r, ri) := buildStructOffsets m.toContent m.rindex contents m.last.itemSize
    (r.map fun (itemSize, offsets) =>
      { rindex := ri, skip := skip, itemSize := itemSize, offsets := offsets }, ri)
  else match messagePeekBody m.toContent m.rindex 8 0 with
    | .error r => (.error r, m.rindex)
    | .ok (_, ri) => (.ok { rindex := ri, skip := skip }, ri)

def BusContainer.hasMembers (c : BusContainer) (first last : UInt8) (contents : Str) : Bool :=
  c.toContainer.hasMembers first last contents

def busMessageEnterStruct (m : SdBusMessage) (contents : Str) : Except Errno Entered × Nat :=
  if signatureIsValid contents false = false then (.error .einval, m.rindex)
  else if m.last.hasMembers sdBusTypeStructBegin sdBusTypeStructEnd contents = false then
    (.error .enxio, m.rindex)
  else enterStructOrDictEntry m contents

def busMessageEnterDictEntry (m : SdBusMessage) (contents : Str) : Except Errno Entered × Nat :=
  if signatureIsPair contents = false then (.error .einval, m.rindex)
  else if m.last.enclosing ≠ sdBusTypeArray then (.error .enxio, m.rindex)
  else if m.last.hasMembers sdBusTypeDictEntryBegin sdBusTypeDictEntryEnd contents = false then
    (.error .enxio, m.rindex)
  else enterStructOrDictEntry m contents

def enterByType (m : SdBusMessage) (type : UInt8) (contents : Str) : Except Errno Entered × Nat :=
  if type = sdBusTypeArray then (busMessageEnterArray m contents, m.rindex)
  else if type = sdBusTypeVariant then (busMessageEnterVariant m contents, m.rindex)
  else if type = sdBusTypeStruct then busMessageEnterStruct m contents
  else if type = sdBusTypeDictEntry then busMessageEnterDictEntry m contents
  else (.error .einval, m.rindex)

def BusContainer.save (c : BusContainer) : BusContainer :=
  { c with toContainer := { c.toContainer with savedIndex := c.index } }

def SdBusMessage.newContainer (m : SdBusMessage) (type : UInt8) (contents : Str) (x : Entered) :
    BusContainer :=
  { enclosing := type
    signature := some contents
    before := m.rindex
    begin := x.rindex
    stop :=
      if m.gvariant ∧ type = sdBusTypeStruct ∧ contents = [] then x.rindex
      else x.rindex + m.last.itemSize
    itemSize := x.itemSize
    offsets := x.offsets
    arraySize := x.arraySize }

def SdBusMessage.enter (m : SdBusMessage) (type : UInt8) (contents : Str) (x : Entered) :
    SdBusMessage :=
  { m with
    last := m.newContainer type contents x
    outer := m.last.save.advance x.skip :: m.outer
    rindex := x.rindex }

def enterContainer (m : SdBusMessage) (type : UInt8) (contents : Option Str) :
    Except Stop Bool × SdBusMessage :=
  if busContainerDepth ≤ m.outer.length then (.error (.errno .ebadmsg), m)
  else if messageEndOfSignature m then (.error (.errno .enxio), m)
  else if messageEndOfArray m m.rindex then (.ok false, m)
  else match contents with
    | none => (.error .crash, m)
    | some s =>
      match enterByType m type s with
      | (.error r, ri) => (.error (.errno r), { m with last := m.last.save, rindex := ri })
      | (.ok x, _) => (.ok true, m.enter type s x)

def sdBusMessageEnterContainer (m : SdBusMessage) (type : UInt8) (contents : Option Str) :
    Except Stop Bool × SdBusMessage :=
  match contents with
  | some s => if type = 0 then (.error (.errno .einval), m) else enterContainer m type (some s)
  | none =>
    match sdBusMessagePeekType m with
    | .error r => (.error (.errno r), m)
    | .ok none => if type ≠ 0 then (.error (.errno .enxio), m) else enterContainer m 0 none
    | .ok (some (tt, cc)) =>
      if type ≠ 0 ∧ type ≠ tt then (.error (.errno .enxio), m) else enterContainer m tt cc

def BusContainer.setIndex (c : BusContainer) (index : Nat) : BusContainer :=
  { c with toContainer := { c.toContainer with index := index } }

def resume (m : SdBusMessage) : Except Stop Unit × SdBusMessage :=
  match containerNextItem m.toContent (m.last.setIndex m.last.savedIndex) m.rindex with
  | .error r => (.error (.errno r), m)
  | .ok (c, ri) => (.ok (), { m with last := c.setIndex m.last.index, rindex := ri })

def sdBusMessageExitContainer (m : SdBusMessage) : Except Stop Unit × SdBusMessage :=
  match m.outer with
  | [] => (.error (.errno .enxio), m)
  | c :: cs =>
    if m.last.enclosing ≠ sdBusTypeArray ∧ m.last.cur ≠ 0 then (.error (.errno .ebusy), m)
    else if m.gvariant ∧ m.rindex < m.last.stop then (.error (.errno .ebusy), m)
    else if ¬m.gvariant ∧ m.last.enclosing = sdBusTypeArray ∧
        m.last.begin + m.last.arraySize ≠ m.rindex then (.error (.errno .ebusy), m)
    else resume { m with last := c, outer := cs }

/-- The label `fail` of `sd_bus_message_read_array`: `message_quit_container` undoes what entering
the container has done. -/
def messageQuitContainer {α : Type} (r : Stop) (m : SdBusMessage) : Except Stop α × SdBusMessage :=
  match m.outer with
  | [] => (.error .crash, m)
  | c :: cs =>
    if m.rindex < m.last.before then (.error .crash, m)
    else (.error r, { m with
      last := c.setIndex c.savedIndex, outer := cs, rindex := m.last.before })

def arrayBytes (m : SdBusMessage) (align sz : Nat) : Except Stop Bytes × SdBusMessage :=
  if sz = 0 then (.ok [], m)
  else match messagePeekBody m.toContent m.rindex align sz with
    | .error r => (.error (.errno r), m)
    | .ok (q, ri) => (.ok q, { m with rindex := ri })

def sdBusMessageReadArray (m : SdBusMessage) (type : UInt8) :
    Except Stop (Option Bytes) × SdBusMessage :=
  if busTypeIsTrivial type = false then (.error (.errno .einval), m)
  else if m.endian ≠ m.nativeEndian then (.error (.errno .eopnotsupp), m)
  else match sdBusMessageEnterContainer m sdBusTypeArray (some [type]) with
    | (.error r, m) => (.error r, m)
    | (.ok false, m) => (.ok none, m)
    | (.ok true, m) =>
      let align := if m.gvariant then GVariant.busGvariantGetAlignment [type]
        else busTypeGetAlignment type
      let sz := if m.gvariant then m.last.stop - m.last.begin else m.last.arraySize
      match arrayBytes m (align.getD 1) sz with
      | (.error r, m) => messageQuitContainer r m
      | (.ok q, m) =>
        match sdBusMessageExitContainer m with
        | (.error r, m) => messageQuitContainer r m
        | (.ok _, m) => (.ok (some q), m)

def SdBusMessage.root (m : SdBusMessage) : BusContainer := m.outer.getLastD m.last

def BusContainer.restart (c : BusContainer) : BusContainer :=
  { c with
    toContainer := { c.toContainer with
      index := 0
      offsetIndex := 0
      itemSize := (if c.offsets.isEmpty then c.stop else c.offsets.headD 0) - c.begin } }

def sdBusMessageRewind (m : SdBusMessage) (complete : Bool) : Bool × SdBusMessage :=
  let m :=
    if complete then { m with last := m.root.restart, outer := [], rindex := 0 }
    else { m with last := m.last.restart, rindex := m.last.begin }
  (!(strempty m.last.signature).isEmpty, m)

section Cases
variable {m : SdBusMessage}

structure More (m : SdBusMessage) : Prop where
  signature : messageEndOfSignature m = false
  array : messageEndOfArray m m.rindex = false

structure Ends (m : SdBusMessage) : Prop where
  signature : messageEndOfSignature m = false
  array : messageEndOfArray m m.rindex = true

structure ReadsBasic (m : SdBusMessage) (type : UInt8) (v : BasicVal) (m' : SdBusMessage) :
    Prop where
  more : More m
  cur : m.last.cur = type
  value : ∃ b ri c ri', Basic.ofCode type = some b ∧ readBasicValue m b = .ok (v, ri) ∧
    containerNextItem m.toContent m.last ri = .ok (c, ri') ∧
    m' = { m with last := c.advance 1, rindex := ri' }

theorem sdBusMessageReadBasic_cases (m : SdBusMessage) (type : UInt8) :
    (∃ r, sdBusMessageReadBasic m type = (.error (.errno r), m)) ∨
    (sdBusMessageReadBasic m type = (.ok none, m) ∧ Ends m) ∨
    ∃ v m', sdBusMessageReadBasic m type = (.ok (some v), m') ∧ ReadsBasic m type v m' := by
  unfold sdBusMessageReadBasic
  cases hb : Basic.ofCode type with
  | none => exact .inl ⟨_, rfl⟩
  | some b =>
    dsimp only
    split_ifs with hs ha hc
    · exact .inl ⟨_, rfl⟩
    · exact .inr (.inl ⟨rfl, by simpa using hs, ha⟩)
    · exact .inl ⟨_, rfl⟩
    cases hv : readBasicValue m b with
    | error r => exact .inl ⟨_, rfl⟩
    | ok x =>
      dsimp only
      cases hn : containerNextItem m.toContent m.last x.2 with
      | error r => exact .inl ⟨_, rfl⟩
      | ok y =>
        exact .inr (.inr ⟨_, _, rfl, ⟨by simpa using hs, by simpa using ha⟩, by simpa using hc,
          b, x.2, y.1, y.2, hb, hv, hn, rfl⟩)

structure Enters (m : SdBusMessage) (type : UInt8) (contents : Str) (m' : SdBusMessage) :
    Prop where
  more : More m
  depth : m.outer.length < busContainerDepth
  entered : ∃ x ri, enterByType m type contents = (.ok x, ri) ∧ m' = m.enter type contents x

theorem enterContainer_cases (m : SdBusMessage) (type : UInt8) (contents : Str) :
    (∃ r, enterContainer m type (some contents) = (.error (.errno r), m)) ∨
    (enterContainer m type (some contents) = (.ok false, m) ∧ Ends m) ∨
    (∃ r ri, enterContainer m type (some contents) =
        (.error (.errno r), { m with last := m.last.save, rindex := ri }) ∧
      enterByType m type contents = (.error r, ri)) ∨
    ∃ m', enterContainer m type (some contents) = (.ok true, m') ∧ Enters m type contents m' := by
  unfold enterContainer
  split_ifs with hd hs ha
  · exact .inl ⟨_, rfl⟩
  · exact .inl ⟨_, rfl⟩
  · exact .inr (.inl ⟨rfl, by simpa using hs, ha⟩)
  dsimp only
  cases he : enterByType m type contents with
  | mk r ri =>
    cases r with
    | error r => exact .inr (.inr (.inl ⟨r, ri, rfl, rfl⟩))
    | ok x =>
      exact .inr (.inr (.inr ⟨_, rfl, ⟨by simpa using hs, by simpa using ha⟩, by omega,
        x, ri, he, rfl⟩))

theorem sdBusMessageEnterContainer_some {type : UInt8} {contents : Str} :
    sdBusMessageEnterContainer m type (some contents) =
      if type = 0 then (.error (.errno .einval), m) else enterContainer m type (some contents) := rfl

theorem enters_of_enterContainer {type : UInt8} {contents : Str} {m₁ : SdBusMessage}
    (h : enterContainer m type (some contents) = (.ok true, m₁)) : Enters m type contents m₁ := by
  obtain ⟨r, he⟩ | ⟨he, -⟩ | ⟨r, ri, he, -⟩ | ⟨m', he, hm'⟩ := enterContainer_cases m type contents
  · rw [he] at h
    cases h
  · rw [he] at h
    cases h
  · rw [he] at h
    cases h
  · rw [he] at h
    cases h
    exact hm'

theorem enters_of_some {type : UInt8} {contents : Str} {m₁ : SdBusMessage}
    (h : sdBusMessageEnterContainer m type (some contents) = (.ok true, m₁)) :
    Enters m type contents m₁ := by
  rw [sdBusMessageEnterContainer_some] at h
  split_ifs at h
  · cases h
  · exact enters_of_enterContainer h

structure MayLeave (m : SdBusMessage) : Prop where
  signature : m.last.enclosing ≠ sdBusTypeArray → m.last.cur = 0
  gvariant : m.gvariant = true → m.last.stop ≤ m.rindex
  dbus1 : m.gvariant = false → m.last.enclosing = sdBusTypeArray →
    m.last.begin + m.last.arraySize = m.rindex

theorem sdBusMessageExitContainer_cases (m : SdBusMessage) :
    (∃ r, sdBusMessageExitContainer m = (.error (.errno r), m)) ∨
    ∃ c cs, m.outer = c :: cs ∧ MayLeave m ∧
      sdBusMessageExitContainer m = resume { m with last := c, outer := cs } := by
  unfold sdBusMessageExitContainer
  cases hm : m.outer with
  | nil => exact .inl ⟨_, rfl⟩
  | cons c cs =>
    dsimp only
    split_ifs with h1 h2 h3
    · exact .inl ⟨_, rfl⟩
    · exact .inl ⟨_, rfl⟩
    · exact .inl ⟨_, rfl⟩
    · refine .inr ⟨c, cs, rfl, ⟨?_, ?_, ?_⟩, rfl⟩
      · intro hne
        exact Decidable.byContradiction fun hc => h1 ⟨hne, hc⟩
      · intro hv
        exact Nat.not_lt.mp fun hlt => h2 ⟨hv, hlt⟩
      · intro hv ha
        exact Decidable.byContradiction fun hne => h3 ⟨by simp [hv], ha, hne⟩

theorem containerNextItem_dbus1 {d : Content} (hv : d.gvariant = false) (c : BusContainer)
    (ri : Nat) : containerNextItem d c ri = .ok (c, ri) := by
  unfold containerNextItem
  rw [if_neg (by simp [hv])]

theorem resume_dbus1 (hv : m.gvariant = false) : resume m = (.ok (), m) := by
  unfold resume
  rw [containerNextItem_dbus1 hv]
  rfl

theorem ReadsBasic.forward {type : UInt8} {v : BasicVal} {m' : SdBusMessage}
    (h : ReadsBasic m type v m') (hv : m.gvariant = false) :
    m.rindex < m'.rindex ∧ m'.rindex ≤ m.userBodySize := by
  obtain ⟨b, ri, c, ri', -, hread, hnext, rfl⟩ := h.value
  rw [containerNextItem_dbus1 hv] at hnext
  cases hnext
  unfold readBasicValue at hread
  rw [if_neg (by rw [hv]; decide)] at hread
  exact readDbus1_forward hread

theorem enterArrayDbus1_forward {d : Content} {ri : Nat} {contents : Str} {x : Entered}
    (h : enterArrayDbus1 d ri contents = .ok x) : ri < x.rindex ∧ x.rindex ≤ d.userBodySize := by
  unfold enterArrayDbus1 at h
  split at h
  · cases h
  rename_i hp
  split_ifs at h
  split at h
  · cases h
  rename_i alignment ha
  split at h
  · cases h
  rename_i hp'
  cases h
  obtain ⟨hle, -⟩ := peekWord_forward (by decide) hp
  have hpos : 0 < alignment := by
    unfold busTypeGetAlignment at ha
    split_ifs at ha <;> cases ha <;> decide
  obtain ⟨hle', hstop⟩ := messagePeekBody_forward hpos hp'
  dsimp only
  omega

structure EntersForward (m : SdBusMessage) (type : UInt8) (contents : Str) (ri : Nat) : Prop where
  le : m.rindex ≤ ri
  stop : ri ≤ m.userBodySize
  array : type = sdBusTypeArray → m.rindex < ri
  variant : type = sdBusTypeVariant → m.rindex + contents.length < ri

theorem enterByType_forward (hv : m.gvariant = false) {type : UInt8} {contents : Str} {x : Entered}
    {ri : Nat} (h : enterByType m type contents = (.ok x, ri)) :
    EntersForward m type contents x.rindex := by
  have hmembers : ∀ ri, enterStructOrDictEntry m contents = (.ok x, ri) →
      m.rindex ≤ x.rindex ∧ x.rindex ≤ m.userBodySize := by
    intro ri h
    unfold enterStructOrDictEntry at h
    dsimp only at h
    rw [if_neg (by rw [hv]; decide)] at h
    split at h
    · cases h
    rename_i hp
    cases h
    exact messagePeekBody_forward (by decide) hp
  unfold enterByType at h
  split_ifs at h with ha hvar hs hd
  · have hx := congrArg Prod.fst h
    unfold busMessageEnterArray at hx
    dsimp only at hx
    split_ifs at hx with _ _ _ hv'
    · rw [hv] at hv'
      cases hv'
    obtain ⟨hlt, hstop⟩ := enterArrayDbus1_forward hx
    refine ⟨hlt.le, hstop, fun _ => hlt, fun hne => ?_⟩
    rw [ha] at hne
    exact absurd hne (by decide)
  · have hx := congrArg Prod.fst h
    unfold busMessageEnterVariant at hx
    dsimp only at hx
    rw [if_neg (c := m.gvariant = true) (by rw [hv]; decide)] at hx
    split_ifs at hx
    split at hx
    · cases hx
    rename_i hp
    split_ifs at hx with hne
    cases hx
    obtain rfl := Decidable.not_not.mp hne
    obtain ⟨hle, hstop⟩ := peekSignature_forward hp
    exact ⟨by dsimp only; omega, hstop, fun hne => absurd hne ha, fun _ => by dsimp only; omega⟩
  · unfold busMessageEnterStruct at h
    split_ifs at h
    · cases h
    · cases h
    obtain ⟨hle, hstop⟩ := hmembers ri h
    exact ⟨hle, hstop, fun hne => absurd hne ha, fun hne => absurd hne hvar⟩
  · unfold busMessageEnterDictEntry at h
    split_ifs at h
    · cases h
    · cases h
    · cases h
    obtain ⟨hle, hstop⟩ := hmembers ri h
    exact ⟨hle, hstop, fun hne => absurd hne ha, fun hne => absurd hne hvar⟩
  · cases h

end Cases

end Basu.Reading
