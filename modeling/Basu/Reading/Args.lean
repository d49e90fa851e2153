import Basu.Match.Tree
import Basu.Reading.SkipExact

/-! The arguments of a message that match rules look at: `bus_message_get_arg` and
`bus_message_get_arg_strv`. Each call reads the body from its start. -/

namespace Basu.Reading
open Lib GVariant

def textOf : BasicVal → Str
  | .string s | .objectPath s | .signature s => s
  | _ => []

def readStrings : Nat → SdBusMessage → Except Stop (List Str) × SdBusMessage
  | 0, m => (.error .running, m)
  | fuel + 1, m =>
    andThen (sdBusMessageReadBasic m sdBusTypeString) fun v m =>
      match v with
      | none => (.ok [], m)
      | some v => andThen (readStrings fuel m) fun l m => (.ok (textOf v :: l), m)

/-- `bus_message_read_strv_extend`; `none` is the return value 0. -/
def busMessageReadStrvExtend (fuel : Nat) (m : SdBusMessage) (l : List Str) :
    Except Stop (Option (List Str)) × SdBusMessage :=
  andThen (sdBusMessageEnterContainer m sdBusTypeArray (some [sdBusTypeString])) fun b m =>
    if b = false then (.ok none, m)
    else andThen (readStrings fuel m) fun strings m =>
      andThen (sdBusMessageExitContainer m) fun _ m => (.ok (some (l ++ strings)), m)

def sdBusMessageReadStrv (fuel : Nat) (m : SdBusMessage) :
    Except Stop (Option (List Str)) × SdBusMessage :=
  busMessageReadStrvExtend fuel m []

def textTypes : List UInt8 := [sdBusTypeString, sdBusTypeObjectPath, sdBusTypeSignature]

def understood (type : UInt8) (contents : Option Str) : Bool :=
  type ∈ textTypes || (type = sdBusTypeArray && contents ∈ textTypes.map fun t => some [t])

def getArgSkipLoop (fuel : Nat) : Nat → SdBusMessage →
    Except Stop (UInt8 × Option Str) × SdBusMessage
  | i, m =>
    match sdBusMessagePeekType m with
    | .error r => (.error (.errno r), m)
    | .ok none => (.error (.errno .enxio), m)
    | .ok (some (type, contents)) =>
      if understood type contents = false then (.error (.errno .enxio), m)
      else match i with
        | 0 => (.ok (type, contents), m)
        | i + 1 => andThen (sdBusMessageSkip fuel m none) fun _ m => getArgSkipLoop fuel i m

def busMessageGetArgSkip (fuel : Nat) (m : SdBusMessage) (i : Nat) :
    Except Stop (UInt8 × Option Str) × SdBusMessage :=
  getArgSkipLoop fuel i (sdBusMessageRewind m true).2

def busMessageGetArg (fuel : Nat) (m : SdBusMessage) (i : Nat) :
    Except Stop (Option Str) × SdBusMessage :=
  andThen (busMessageGetArgSkip fuel m i) fun x m =>
    if x.1 ∉ textTypes then (.error (.errno .enxio), m)
    else andThen (sdBusMessageReadBasic m x.1) fun v m => (.ok (v.map textOf), m)

def busMessageGetArgStrv (fuel : Nat) (m : SdBusMessage) (i : Nat) :
    Except Stop (Option (List Str)) × SdBusMessage :=
  andThen (busMessageGetArgSkip fuel m i) fun x m =>
    if x.1 ≠ sdBusTypeArray then (.error (.errno .enxio), m)
    else if x.2 ∉ textTypes.map (fun t => some [t]) then (.error (.errno .enxio), m)
    else sdBusMessageReadStrv fuel m

/-- A bounded computation that gives one result with every bound that is large enough. -/
def Settles {β : Type} (f : Nat → β) (y : β) : Prop := ∃ n, ∀ fuel, n ≤ fuel → f fuel = y

section Settles
variable {α β : Type}

theorem Settles.const (y : β) : Settles (fun _ => y) y := ⟨0, fun _ _ => rfl⟩

theorem Settles.unique {f : Nat → β} {y z : β} (h : Settles f y) (h' : Settles f z) : y = z := by
  obtain ⟨n, h⟩ := h
  obtain ⟨n', h'⟩ := h'
  exact (h _ (le_max_left n n')).symm.trans (h' _ (le_max_right n n'))

theorem Settles.congr {f g : Nat → β} {y : β} (h : ∀ fuel, f fuel = g fuel) (hg : Settles g y) :
    Settles f y := (funext h : f = g) ▸ hg

theorem Settles.andThen {f : Nat → Except Stop α × SdBusMessage} {a : α} {m : SdBusMessage}
    {k : Nat → α → SdBusMessage → Except Stop β × SdBusMessage} {y : Except Stop β × SdBusMessage}
    (hf : Settles f (.ok a, m)) (hk : Settles (fun fuel => k fuel a m) y) :
    Settles (fun fuel => andThen (f fuel) (k fuel)) y := by
  obtain ⟨n, hf⟩ := hf
  obtain ⟨n', hk⟩ := hk
  refine ⟨max n n', fun fuel hle => ?_⟩
  dsimp only
  rw [hf fuel (le_of_max_le_left hle), andThen_ok]
  exact hk fuel (le_of_max_le_right hle)

theorem Settles.succ {f g : Nat → β} {y : β} (hg : Settles g y) (h : ∀ fuel, f (fuel + 1) = g fuel) :
    Settles f y := by
  obtain ⟨n, hg⟩ := hg
  refine ⟨n + 1, fun fuel hle => ?_⟩
  obtain ⟨k, rfl⟩ : ∃ k, fuel = k + 1 := ⟨fuel - 1, by omega⟩
  rw [h]
  exact hg k (by omega)

end Settles

/-! ## The arguments of a message -/

inductive TextType
  | string | objectPath | signature
  deriving DecidableEq, Repr

def TextType.basic : TextType → Basic
  | .string => .string
  | .objectPath => .objectPath
  | .signature => .signature

def TextType.code (t : TextType) : UInt8 := t.basic.code

def TextType.value : TextType → Str → BasicVal
  | .string => .string
  | .objectPath => .objectPath
  | .signature => .signature

inductive Arg
  | text (t : TextType) (s : Str)
  | array (t : TextType) (elements : List Str)
  deriving DecidableEq, Repr

def Arg.type : Arg → Ty
  | .text t _ => .basic t.basic
  | .array t _ => .array (.basic t.basic)

def Arg.item : Arg → Item
  | .text t s => .basic (t.value s)
  | .array t elements =>
    .container sdBusTypeArray [t.code] (elements.map fun s => .basic (t.value s))

/-- Read value by value from its start, the body has these arguments in front. -/
def HasArgs (m : SdBusMessage) (args : List Arg) : Prop :=
  ∃ m', Reads false (sdBusMessageRewind m true).2 (Ty.sigs (args.map Arg.type))
    (args.map Arg.item) m'

def Arg.peek : Arg → UInt8 × Option Str
  | .text t _ => (t.code, none)
  | .array t _ => (sdBusTypeArray, some [t.code])

theorem understood_peek (a : Arg) : understood a.peek.1 a.peek.2 = true := by
  cases a with
  | text t s => cases t <;> rfl
  | array t xs => cases t <;> rfl

theorem TextType.code_basic (t : TextType) : busTypeIsBasic t.code = true := by cases t <;> rfl

theorem textOf_value (t : TextType) (s : Str) : textOf (t.value s) = s := by cases t <;> rfl

theorem Arg.fits (a : Arg) : a.type.Fits true 0 0 := by
  cases a with
  | text t s => exact trivial
  | array t xs => exact ⟨by decide, trivial⟩

section Next
variable {m m' : SdBusMessage} {types : Str} {items : List Item}

theorem signatureElementLength_text (t : TextType) (types : Str) :
    signatureElementLength (t.code :: types) = some 1 :=
  signatureElementLength_sig (t := .basic t.basic) types trivial

theorem Reads.textArray {t : TextType} {elements : List Item}
    (h : Reads false m (sdBusTypeArray :: t.code :: types)
      (.container sdBusTypeArray [t.code] elements :: items) m') :
    ∃ m₁ m₂ m₃, sdBusMessageEnterContainer m sdBusTypeArray (some [t.code]) = (.ok true, m₁) ∧
      Reads true m₁ [t.code] elements m₂ ∧ sdBusMessageExitContainer m₂ = (.ok (), m₃) ∧
      Reads false m₃ types items m' := by
  have hlen := signatureElementLength_text t types
  generalize hts : sdBusTypeArray :: t.code :: types = ts at h
  generalize his : Item.container sdBusTypeArray [t.code] elements :: items = is at h
  cases h with
  | nil => cases hts
  | basic ht h hr => cases his
  | array ht hk he hi hx hr =>
    cases hts
    rw [hlen] at hk
    cases hk
    cases his
    exact ⟨_, _, _, he, hi, hx, hr⟩
  | variant ht hp he hi hx hr =>
    cases hts
    exact absurd ht (by decide)
  | members ht hk he hi hx hr =>
    cases hts
    exact absurd ht (by decide)

theorem Reads.arg {a : Arg} (h : Reads false m (a.type.sig ++ types) (a.item :: items) m') :
    ∃ m₁, Reads false m a.type.sig [a.item] m₁ ∧ Reads false m₁ types items m' := by
  cases a with
  | text t s =>
    cases h with
    | basic ht h hr => exact ⟨_, .basic ht h (.nil _), hr⟩
  | array t xs =>
    obtain ⟨m₁, m₂, m₃, he, hi, hx, hr⟩ := Reads.textArray h
    exact ⟨m₃, .array rfl (signatureElementLength_text t []) he hi hx (.nil m₃), hr⟩

theorem sdBusMessageReadBasic_reads {t : UInt8} {v : BasicVal}
    (h : sdBusMessageReadBasic m t = (.ok (some v), m')) : ReadsBasic m t v m' := by
  obtain ⟨r, he⟩ | ⟨he, -⟩ | ⟨w, m₁, he, hm⟩ := sdBusMessageReadBasic_cases m t
  · cases he.symm.trans h
  · cases he.symm.trans h
  · cases he.symm.trans h
    exact hm

theorem enters_array_rest {s : Str}
    (h : sdBusMessageEnterContainer m sdBusTypeArray (some s) = (.ok true, m')) :
    ∃ r, m.last.rest = sdBusTypeArray :: (s ++ r) := by
  obtain ⟨x, ri, hx, -⟩ := (enters_of_some h).entered
  have hx' := congrArg Prod.fst hx
  unfold enterByType at hx'
  rw [if_pos rfl] at hx'
  unfold busMessageEnterArray at hx'
  dsimp only at hx'
  split_ifs at hx' with _ hcur hprefix
  all_goals
    have hcur : m.last.cur = sdBusTypeArray := Decidable.not_not.mp hcur
    obtain ⟨r, hr⟩ := List.isPrefixOf_iff_prefix.mp (Bool.eq_true_of_not_eq_false hprefix)
    have hcons := eq_cons_cur (c := m.last) (by rw [hcur]; decide)
    rw [hcur, ← hr] at hcons
    exact ⟨r, hcons⟩

theorem Reads.peek {a : Arg} (h : Reads false m a.type.sig [a.item] m') :
    sdBusMessagePeekType m = .ok (some a.peek) ∧ More m ∧ ∃ r, m.last.rest = a.type.sig ++ r := by
  have hmore := h.more_next (List.ne_nil_of_length_pos a.type.sig_pos)
  have hend : (messageEndOfSignature m || messageEndOfArray m m.rindex) = false := by
    rw [hmore.signature, hmore.array]
    rfl
  cases a with
  | text t s =>
    cases h with
    | basic ht h hr =>
      have hcur : m.last.cur = t.code := (sdBusMessageReadBasic_reads h).cur
      have hne : m.last.cur ≠ 0 := by
        rw [hcur]
        cases t <;> decide
      refine ⟨?_, hmore, m.last.rest.drop 1, ?_⟩
      · unfold sdBusMessagePeekType
        dsimp only
        rw [hend, hcur, t.code_basic]
        rfl
      · have hcons := eq_cons_cur hne
        rw [hcur] at hcons
        exact hcons
  | array t xs =>
    obtain ⟨m₁, m₂, m₃, he, -⟩ := @Reads.textArray _ _ [] _ _ _ h
    obtain ⟨r, hr⟩ := enters_array_rest he
    refine ⟨?_, hmore, r, hr⟩
    unfold sdBusMessagePeekType
    dsimp only
    rw [hend, cur_of_rest hr, hr, List.drop_succ_cons, List.drop_zero]
    rw [List.singleton_append, signatureElementLength_text]
    rfl

theorem Reads.skip {a : Arg} (h : Reads false m a.type.sig [a.item] m') :
    Settles (fun fuel => sdBusMessageSkip fuel m none) (.ok true, m') := by
  obtain ⟨-, hmore, r, hr⟩ := h.peek
  have hne := List.ne_nil_of_length_pos a.type.sig_pos
  have hw := h.skipsOver.whole
  rw [List.isEmpty_eq_false_iff.mpr hne] at hw
  exact ((returns_none hmore hr a.fits).mpr hw).result

end Next

theorem getArgSkipLoop_args {args : List Arg} {i : Nat} (hi : i < args.length) {m m' : SdBusMessage}
    (h : Reads false m (Ty.sigs (args.map Arg.type)) (args.map Arg.item) m') :
    ∃ m₁ m₂, Settles (fun fuel => getArgSkipLoop fuel i m) (.ok args[i].peek, m₁) ∧
      Reads false m₁ args[i].type.sig [args[i].item] m₂ := by
  induction args generalizing i m with
  | nil => exact absurd hi (Nat.not_lt_zero i)
  | cons a args ih =>
    obtain ⟨m₁, hfirst, hrest⟩ := Reads.arg h
    obtain ⟨hpeek, -, -⟩ := hfirst.peek
    cases i with
    | zero =>
      refine ⟨m, m₁, .congr (fun fuel => ?_) (.const _), hfirst⟩
      unfold getArgSkipLoop
      rw [hpeek]
      dsimp only
      rw [understood_peek]
      rfl
    | succ i =>
      obtain ⟨m₂, m₃, hsettle, hread⟩ := ih (Nat.lt_of_succ_lt_succ hi) hrest
      have hthen := Settles.andThen (k := fun fuel _ m => getArgSkipLoop fuel i m) hfirst.skip hsettle
      refine ⟨m₂, m₃, .congr (fun fuel => ?_) hthen, hread⟩
      rw [getArgSkipLoop, hpeek]
      dsimp only
      rw [understood_peek]
      rfl

section Calls
variable {m : SdBusMessage} {args : List Arg} {i : Nat}

theorem busMessageGetArg_of_skip {x : UInt8 × Option Str} {m₁ : SdBusMessage}
    (h : Settles (fun fuel => busMessageGetArgSkip fuel m i) (.ok x, m₁)) :
    Settles (fun fuel => busMessageGetArg fuel m i)
      (if x.1 ∉ textTypes then (.error (.errno .enxio), m₁)
      else andThen (sdBusMessageReadBasic m₁ x.1) fun v m => (.ok (v.map textOf), m)) := by
  obtain ⟨n, h⟩ := h
  refine ⟨n, fun fuel hle => ?_⟩
  have hskip : busMessageGetArgSkip fuel m i = (.ok x, m₁) := h fuel hle
  dsimp only [busMessageGetArg]
  rw [hskip, andThen_ok]

theorem busMessageGetArgStrv_of_skip {x : UInt8 × Option Str} {m₁ : SdBusMessage}
    {y : Except Stop (Option (List Str)) × SdBusMessage}
    (h : Settles (fun fuel => busMessageGetArgSkip fuel m i) (.ok x, m₁))
    (hy : Settles (fun fuel => if x.1 ≠ sdBusTypeArray then (.error (.errno .enxio), m₁)
      else if x.2 ∉ textTypes.map (fun t => some [t]) then (.error (.errno .enxio), m₁)
      else sdBusMessageReadStrv fuel m₁) y) :
    Settles (fun fuel => busMessageGetArgStrv fuel m i) y := by
  obtain ⟨n, h⟩ := h
  obtain ⟨n', hy⟩ := hy
  refine ⟨max n n', fun fuel hle => ?_⟩
  have hskip : busMessageGetArgSkip fuel m i = (.ok x, m₁) := h fuel (le_of_max_le_left hle)
  dsimp only [busMessageGetArgStrv]
  rw [hskip, andThen_ok]
  exact hy fuel (le_of_max_le_right hle)

theorem busMessageGetArg_text (h : HasArgs m args) (hi : i < args.length) {t : TextType} {s : Str}
    (ha : args[i] = .text t s) :
    ∃ m', Settles (fun fuel => busMessageGetArg fuel m i) (.ok (some s), m') := by
  obtain ⟨m', h⟩ := h
  obtain ⟨m₁, m₂, hsettle, hread⟩ := getArgSkipLoop_args hi h
  rw [ha] at hsettle hread
  have hget := busMessageGetArg_of_skip hsettle
  have hmem : (Arg.text t s).peek.1 ∈ textTypes := by cases t <;> exact List.mem_of_elem_eq_true rfl
  cases hread with
  | @basic _ m₃ _ _ _ _ _ ht h hr =>
    have hbasic : sdBusMessageReadBasic m₁ (Arg.text t s).peek.1 = (.ok (some (t.value s)), m₃) := h
    rw [if_neg (not_not.mpr hmem), hbasic, andThen_ok, Option.map_some, textOf_value] at hget
    exact ⟨m₃, hget⟩

theorem busMessageGetArg_array (h : HasArgs m args) (hi : i < args.length) {t : TextType}
    {xs : List Str} (ha : args[i] = .array t xs) :
    ∃ m', Settles (fun fuel => busMessageGetArg fuel m i) (.error (.errno .enxio), m') := by
  obtain ⟨m', h⟩ := h
  obtain ⟨m₁, m₂, hsettle, -⟩ := getArgSkipLoop_args hi h
  rw [ha] at hsettle
  exact ⟨m₁, busMessageGetArg_of_skip hsettle⟩

theorem busMessageGetArgStrv_text (h : HasArgs m args) (hi : i < args.length) {t : TextType}
    {s : Str} (ha : args[i] = .text t s) :
    ∃ m', Settles (fun fuel => busMessageGetArgStrv fuel m i) (.error (.errno .enxio), m') := by
  obtain ⟨m', h⟩ := h
  obtain ⟨m₁, m₂, hsettle, -⟩ := getArgSkipLoop_args hi h
  rw [ha] at hsettle
  have hne : t.code ≠ sdBusTypeArray := by cases t <;> decide
  refine ⟨m₁, busMessageGetArgStrv_of_skip hsettle (.congr (fun fuel => ?_) (.const _))⟩
  exact if_pos hne

theorem readStrings_reads {b : Bool} {types : Str} {items : List Item} {m m' : SdBusMessage}
    (h : Reads b m types items m') (hb : b = true) (ht : types = [sdBusTypeString]) {xs : List Str}
    (hx : items = xs.map fun s => .basic (.string s)) :
    Settles (fun fuel => readStrings fuel m) (.ok xs, m') := by
  induction h generalizing xs with
  | nil | basic | array | variant | members => cases hb
  | stop hz =>
    subst ht
    obtain rfl : xs = [] := List.map_eq_nil_iff.mp hx.symm
    refine .succ (.const _) fun fuel => ?_
    cases hz with
    | basic ht h =>
      rw [readStrings, h, andThen_ok]
    | array ht hk h => exact absurd ht (by decide)
    | variant ht h => exact absurd ht (by decide)
    | members ht hk h => exact absurd ht (by decide)
  | @more m m₁ m₂ s items rest hfirst hr _ ih =>
    subst ht
    cases hfirst with
    | basic ht h hnil =>
      cases hnil
      cases xs with
      | nil => cases hx
      | cons x xs =>
        obtain ⟨hv, hrest⟩ := List.cons.inj hx
        cases hv
        have hthen := Settles.andThen (k := fun _ l m => (.ok (x :: l), m)) (ih rfl rfl hrest)
          (.const _)
        refine .succ hthen fun fuel => ?_
        rw [readStrings, h, andThen_ok]
        rfl
    | array ht hk he hi hx hr => exact absurd ht (by decide)
    | variant ht hp he hi hx hr => exact absurd ht (by decide)
    | members ht hk he hi hx hr => exact absurd ht (by decide)

theorem busMessageGetArgStrv_array (h : HasArgs m args) (hi : i < args.length) {xs : List Str}
    (ha : args[i] = .array .string xs) :
    ∃ m', Settles (fun fuel => busMessageGetArgStrv fuel m i) (.ok (some xs), m') := by
  obtain ⟨m', h⟩ := h
  obtain ⟨m₁, m₂, hsettle, hread⟩ := getArgSkipLoop_args hi h
  rw [ha] at hsettle hread
  obtain ⟨m₃, m₄, m₅, he, hr, hx, -⟩ := @Reads.textArray _ _ [] _ _ _ hread
  have hstrings := readStrings_reads hr rfl rfl rfl
  refine ⟨m₅, busMessageGetArgStrv_of_skip hsettle ?_⟩
  have hexit : ∀ fuel : Nat, andThen (sdBusMessageExitContainer m₄) (fun _ m => (.ok (some xs), m)) =
      (.ok (some xs), m₅) := fun _ => by rw [hx, andThen_ok]
  have hthen := Settles.andThen (k := fun _ l m =>
    andThen (sdBusMessageExitContainer m) fun _ m => (.ok (some l), m)) hstrings
    (.congr hexit (.const _))
  have hmem : some [sdBusTypeString] ∈ textTypes.map fun t => some [t] := by decide
  refine .congr (fun fuel => (if_neg (not_not.mpr rfl)).trans ((if_neg (not_not.mpr hmem)).trans ?_))
    hthen
  have henter : sdBusMessageEnterContainer m₁ sdBusTypeArray (some [sdBusTypeString]) =
      (.ok true, m₃) := he
  rw [sdBusMessageReadStrv, busMessageReadStrvExtend, henter, andThen_ok]
  rfl

end Calls

/-! ## The message stays the same one -/

structure SameMessage (m m' : SdBusMessage) : Prop where
  content : m'.toContent = m.toContent
  root : SameFrame m.root m'.root

theorem SameMessage.refl (m : SdBusMessage) : SameMessage m m := ⟨rfl, .refl _⟩

theorem SameMessage.rewind {m m' : SdBusMessage} (h : SameMessage m m') :
    Agrees (sdBusMessageRewind m true).2 (sdBusMessageRewind m' true).2 := by
  obtain ⟨saved, hr⟩ := h.root.restart
  refine ⟨h.content, ⟨saved, ⟨m.root.restart.stop, m.root.restart.itemSize, ?_⟩, fun _ => ?_⟩, .nil, rfl⟩
  · exact hr
  · change m'.root.restart.stop = m.root.restart.stop ∧
      m'.root.restart.itemSize = m.root.restart.itemSize
    rw [hr]
    exact ⟨rfl, rfl⟩

section Agrees
variable {m m₁ m' : SdBusMessage}

theorem ReturnsZero.agrees {types : Str} (hz : ReturnsZero m types) (h : Agrees m m') :
    ReturnsZero m' types := by
  have henter : ∀ {type : UInt8} {s : Str}, type ≠ 0 →
      sdBusMessageEnterContainer m type (some s) = (.ok false, m) →
      sdBusMessageEnterContainer m' type (some s) = (.ok false, m') := by
    intro type s hne he
    have hr := (h.sdBusMessageEnterContainer type (some s)).result
    rw [he, sdBusMessageEnterContainer_some, if_neg hne] at hr
    rw [sdBusMessageEnterContainer_some, if_neg hne]
    obtain ⟨r, hc⟩ | ⟨hc, -⟩ | ⟨r, ri, hc, -⟩ | ⟨m₁, hc, -⟩ := enterContainer_cases m' type s
    · rw [hc] at hr
      cases hr
    · exact hc
    · rw [hc] at hr
      cases hr
    · rw [hc] at hr
      cases hr
  cases hz with
  | @basic t types ht hb =>
    have hr := (h.sdBusMessageReadBasic t).result
    rw [hb] at hr
    obtain ⟨r, hc⟩ | ⟨hc, -⟩ | ⟨v, m₁, hc, -⟩ := sdBusMessageReadBasic_cases m' t
    · rw [hc] at hr
      cases hr
    · exact .basic ht hc
    · rw [hc] at hr
      cases hr
  | array ht hk he => exact .array ht hk (henter (by decide) he)
  | variant ht hp => exact .variant ht (h.sdBusMessagePeekType.trans hp)
  | members ht hk he =>
    refine .members ht hk (henter ?_ he)
    unfold membersType
    split_ifs <;> decide

theorem SameResult.ok {α : Type} {x y : Except Stop α × SdBusMessage} {a : α}
    (h : SameResult x y) (hx : x = (.ok a, m)) : ∃ m', y = (.ok a, m') ∧ Agrees m m' := by
  obtain ⟨r, m₁, m₁', rfl, rfl, hm⟩ := h.pairs
  cases hx
  exact ⟨m₁', rfl, hm⟩

theorem Reads.agrees {b : Bool} {types : Str} {items : List Item} (hr : Reads b m types items m₁)
    (h : Agrees m m') : ∃ m₁', Reads b m' types items m₁' ∧ Agrees m₁ m₁' := by
  induction hr generalizing m' with
  | nil m => exact ⟨m', .nil m', h⟩
  | basic ht hb hr ih =>
    obtain ⟨m₁', hb', h₁⟩ := (h.sdBusMessageReadBasic _).ok hb
    obtain ⟨m₂', hr', h₂⟩ := ih h₁
    exact ⟨m₂', .basic ht hb' hr', h₂⟩
  | array ht hk he hi hx hr ihi ihr =>
    obtain ⟨m₁', he', h₁⟩ := (h.sdBusMessageEnterContainer _ _).ok he
    obtain ⟨m₂', hi', h₂⟩ := ihi h₁
    obtain ⟨m₃', hx', h₃⟩ := h₂.sdBusMessageExitContainer.ok hx
    obtain ⟨m₄', hr', h₄⟩ := ihr h₃
    exact ⟨m₄', .array ht hk he' hi' hx' hr', h₄⟩
  | variant ht hp he hi hx hr ihi ihr =>
    obtain ⟨m₁', he', h₁⟩ := (h.sdBusMessageEnterContainer _ _).ok he
    obtain ⟨m₂', hi', h₂⟩ := ihi h₁
    obtain ⟨m₃', hx', h₃⟩ := h₂.sdBusMessageExitContainer.ok hx
    obtain ⟨m₄', hr', h₄⟩ := ihr h₃
    exact ⟨m₄', .variant ht (h.sdBusMessagePeekType.trans hp) he' hi' hx' hr', h₄⟩
  | members ht hk he hi hx hr ihi ihr =>
    obtain ⟨m₁', he', h₁⟩ := (h.sdBusMessageEnterContainer _ _).ok he
    obtain ⟨m₂', hi', h₂⟩ := ihi h₁
    obtain ⟨m₃', hx', h₃⟩ := h₂.sdBusMessageExitContainer.ok hx
    obtain ⟨m₄', hr', h₄⟩ := ihr h₃
    exact ⟨m₄', .members ht hk he' hi' hx' hr', h₄⟩
  | stop hz => exact ⟨m', .stop (hz.agrees h), h⟩
  | more hr hrest ih ihr =>
    obtain ⟨m₁', hr', h₁⟩ := ih h
    obtain ⟨m₂', hrest', h₂⟩ := ihr h₁
    exact ⟨m₂', .more hr' hrest', h₂⟩

end Agrees

theorem HasArgs.sameMessage {m m' : SdBusMessage} {args : List Arg} (h : HasArgs m args)
    (hm : SameMessage m m') : HasArgs m' args := by
  obtain ⟨m₁, hr⟩ := h
  obtain ⟨m₁', hr', -⟩ := hr.agrees hm.rewind
  exact ⟨m₁', hr'⟩

/-- `test_str`, from what the call returns. -/
def stringFound (r : Except Stop (Option Str)) : Option Str :=
  match r with
  | .ok s => s
  | .error _ => none

/-- `test_strv`, from what the call returns. -/
def stringsFound (r : Except Stop (Option (List Str))) : Option (List Str) :=
  match r with
  | .ok l => l
  | .error _ => none

/-- The tests of a match rule call for an argument, wherever the tests before have left the
message. -/
structure TestsArg (m : SdBusMessage) (x : MatchMessage) (i : Nat) : Prop where
  arg : ∃ m' r m'', SameMessage m m' ∧
    Settles (fun fuel => busMessageGetArg fuel m' i) (r, m'') ∧ x.arg i = stringFound r
  argStrv : ∃ m' r m'', SameMessage m m' ∧
    Settles (fun fuel => busMessageGetArgStrv fuel m' i) (r, m'') ∧ x.argStrv i = stringsFound r

section Tests
variable {m : SdBusMessage} {x : MatchMessage} {args : List Arg} {i : Nat}

theorem TestsArg.arg_text (hx : TestsArg m x i) (h : HasArgs m args) (hi : i < args.length)
    {t : TextType} {s : Str} (ha : args[i] = .text t s) :
    x.arg i = some s ∧ x.argStrv i = none := by
  obtain ⟨m₁, r, m₂, hm, hs, harg⟩ := hx.arg
  obtain ⟨m₃, r', m₄, hm', hs', hstrv⟩ := hx.argStrv
  obtain ⟨m₅, hget⟩ := busMessageGetArg_text (h.sameMessage hm) hi ha
  obtain ⟨m₆, hgetv⟩ := busMessageGetArgStrv_text (h.sameMessage hm') hi ha
  obtain rfl : r = _ := congrArg Prod.fst (hs.unique hget)
  obtain rfl : r' = _ := congrArg Prod.fst (hs'.unique hgetv)
  exact ⟨harg, hstrv⟩

theorem TestsArg.arg_array (hx : TestsArg m x i) (h : HasArgs m args) (hi : i < args.length)
    {t : TextType} {xs : List Str} (ha : args[i] = .array t xs) : x.arg i = none := by
  obtain ⟨m₁, r, m₂, hm, hs, harg⟩ := hx.arg
  obtain ⟨m₃, hget⟩ := busMessageGetArg_array (h.sameMessage hm) hi ha
  obtain rfl : r = _ := congrArg Prod.fst (hs.unique hget)
  exact harg

theorem TestsArg.argStrv_array (hx : TestsArg m x i) (h : HasArgs m args) (hi : i < args.length)
    {xs : List Str} (ha : args[i] = .array .string xs) : x.argStrv i = some xs := by
  obtain ⟨m₁, r, m₂, hm, hs, hstrv⟩ := hx.argStrv
  obtain ⟨m₃, hget⟩ := busMessageGetArgStrv_array (h.sameMessage hm) hi ha
  obtain rfl : r = _ := congrArg Prod.fst (hs.unique hget)
  exact hstrv

end Tests

/-! ## What matching sees -/

/-- How the components about an argument test it: for its string, for a path, for a namespace, and
for its elements. -/
structure Tested (x : MatchMessage) (i : Nat) (string path space has : Str → Bool) : Prop where
  arg : ∀ (j : Fin 64) u v, j.val = i → Component.test ⟨.arg j, u, v⟩ x = string v
  argPath : ∀ (j : Fin 64) u v, j.val = i → Component.test ⟨.argPath j, u, v⟩ x = path v
  argNamespace : ∀ (j : Fin 64) u v, j.val = i → Component.test ⟨.argNamespace j, u, v⟩ x = space v
  argHas : ∀ (j : Fin 64) u v, j.val = i → Component.test ⟨.argHas j, u, v⟩ x = has v

theorem tested_args (x : MatchMessage) (i : Nat) :
    Tested x i (fun v => (x.arg i).any (v = ·)) (fun v => (x.arg i).any (pathComplexPattern v ·))
      (fun v => (x.arg i).any (namespaceSimplePattern v ·))
      (fun v => ((x.argStrv i).getD []).any (v = ·)) := by
  refine ⟨?_, ?_, ?_, ?_⟩
  · rintro j u v rfl
    simp only [Component.test, NodeValue.test, valueNodeTest, MatchMessage.testStr, Component.value]
    cases x.arg j <;> rfl
  · rintro j u v rfl
    simp only [Component.test, NodeValue.test, valueNodeTest, MatchMessage.testStr, Component.value]
    cases x.arg j <;> rfl
  · rintro j u v rfl
    simp only [Component.test, NodeValue.test, valueNodeTest, MatchMessage.testStr, Component.value]
    cases x.arg j <;> rfl
  · rintro j u v rfl
    rfl

/-- A string is found as it is. Of an array of strings all elements are found by the components that
ask for elements, and the others are about arguments that are no arrays. -/
def Seen (m : SdBusMessage) (x : MatchMessage) (i : Nat) : Arg → Prop
  | .text _ s =>
    (∃ m', Settles (fun fuel => busMessageGetArg fuel m i) (.ok (some s), m')) ∧
    (∃ m', Settles (fun fuel => busMessageGetArgStrv fuel m i) (.error (.errno .enxio), m')) ∧
    Tested x i (fun v => v = s) (fun v => pathComplexPattern v s)
      (fun v => namespaceSimplePattern v s) (fun _ => false)
  | .array .string xs =>
    (∃ m', Settles (fun fuel => busMessageGetArg fuel m i) (.error (.errno .enxio), m')) ∧
    (∃ m', Settles (fun fuel => busMessageGetArgStrv fuel m i) (.ok (some xs), m')) ∧
    Tested x i (fun _ => false) (fun _ => false) (fun _ => false) (fun v => v ∈ xs)
  | .array _ _ =>
    (∃ m', Settles (fun fuel => busMessageGetArg fuel m i) (.error (.errno .enxio), m')) ∧
    ∃ has, Tested x i (fun _ => false) (fun _ => false) (fun _ => false) has

/-- Whatever has been read of a message, and in either version: an argument behind arguments that
matching understands is found as reading value by value from the start finds it. -/
theorem args_seen {m : SdBusMessage} {args : List Arg} (h : HasArgs m args) {i : Nat}
    (hi : i < args.length) {x : MatchMessage} (hx : TestsArg m x i) : Seen m x i args[i] := by
  have htested := tested_args x i
  cases ha : args[i] with
  | text t s =>
    obtain ⟨harg, hstrv⟩ := hx.arg_text h hi ha
    rw [harg, hstrv] at htested
    exact ⟨busMessageGetArg_text h hi ha, busMessageGetArgStrv_text h hi ha, htested⟩
  | array t xs =>
    have harg := hx.arg_array h hi ha
    have hget := busMessageGetArg_array h hi ha
    rw [harg] at htested
    cases t with
    | string =>
      rw [hx.argStrv_array h hi ha] at htested
      refine ⟨hget, busMessageGetArgStrv_array h hi ha, htested.arg, htested.argPath,
        htested.argNamespace, fun j u v hj => (htested.argHas j u v hj).trans ?_⟩
      rw [Option.getD_some, Bool.eq_iff_iff, List.any_eq_true, decide_eq_true_eq]
      simp
    | objectPath => exact ⟨hget, _, htested⟩
    | signature => exact ⟨hget, _, htested⟩

def onePath : SdBusMessage where
  gvariant := false
  endian := .little
  nativeEndian := .little
  body := [7, 0, 0, 0, 2, 0, 0, 0, 47, 97, 0]
  userBodySize := 11
  last := { signature := some [sdBusTypeArray, sdBusTypeString], stop := 11 }

def onePathArg : Arg := .array .string [[47, 97]]

def inOnePath : SdBusMessage :=
  (sdBusMessageEnterContainer (sdBusMessageRewind onePath true).2 sdBusTypeArray
    (some [sdBusTypeString])).2

def behindOnePath : SdBusMessage := (sdBusMessageReadBasic inOnePath sdBusTypeString).2

theorem hasArgs_onePath : HasArgs onePath [onePathArg] := by
  have he : sdBusMessageEnterContainer (sdBusMessageRewind onePath true).2 sdBusTypeArray
      (some [sdBusTypeString]) = (.ok true, inOnePath) := Prod.ext (by decide +kernel) rfl
  have hr : sdBusMessageReadBasic inOnePath sdBusTypeString =
      (.ok (some (.string [47, 97])), behindOnePath) := Prod.ext (by decide +kernel) rfl
  have hz : sdBusMessageReadBasic behindOnePath sdBusTypeString = (.ok none, behindOnePath) := by
    decide +kernel
  have hx : (sdBusMessageExitContainer behindOnePath).1 = .ok () := by decide +kernel
  exact ⟨_, .array rfl (signatureElementLength_text .string []) he
    (.more (.basic rfl hr (.nil _)) (.stop (.basic rfl hz))) (Prod.ext hx rfl) (.nil _)⟩

def onePathMatch : MatchMessage where
  type := 4
  sender := none
  destination := none
  interface := none
  member := none
  path := none
  wellKnownNames := none
  arg := fun _ => none
  argStrv := fun _ => some [[47, 97]]

theorem testsArg_onePath : TestsArg onePath onePathMatch 0 := by
  obtain ⟨m₁, hget⟩ := busMessageGetArg_array hasArgs_onePath (i := 0) (by decide) rfl
  obtain ⟨m₂, hstrv⟩ := busMessageGetArgStrv_array hasArgs_onePath (i := 0) (by decide) rfl
  exact ⟨⟨onePath, _, m₁, .refl _, hget, rfl⟩, ⟨onePath, _, m₂, .refl _, hstrv, rfl⟩⟩

theorem args_seen_onePath : Seen onePath onePathMatch 0 onePathArg :=
  args_seen hasArgs_onePath (i := 0) (by decide) testsArg_onePath

/-- The component that asks for a path does not look into arrays, also not into those of strings. -/
theorem not_seesElements :
    ¬∀ m args, HasArgs m args → ∀ (j : Fin 64) (hj : j.val < args.length) x, TestsArg m x j →
      ∀ t xs, args[j.val] = .array t xs → ∀ u v,
        Component.test ⟨.argPath j, u, v⟩ x = xs.any (pathComplexPattern v ·) := by
  intro h
  have hfound := h onePath [onePathArg] hasArgs_onePath 0 (by decide) onePathMatch testsArg_onePath
    .string [[47, 97]] rfl 0 [47, 97]
  revert hfound
  decide

end Basu.Reading
