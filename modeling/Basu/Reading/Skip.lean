import Basu.Reading.Peek

/-! `sd_bus_message_skip`, and reading the same types value by value. -/

namespace Basu.Reading
open Lib GVariant

def andThen {α β : Type} (x : Except Stop α × SdBusMessage)
    (k : α → SdBusMessage → Except Stop β × SdBusMessage) : Except Stop β × SdBusMessage :=
  match x with
  | (.error r, m) => (.error r, m)
  | (.ok a, m) => k a m

section AndThen
variable {α β : Type} {k : α → SdBusMessage → Except Stop β × SdBusMessage}

@[simp] theorem andThen_error (r : Stop) (m : SdBusMessage) :
    andThen (.error r, m) k = (.error r, m) := rfl

@[simp] theorem andThen_ok (a : α) (m : SdBusMessage) : andThen (.ok a, m) k = k a m := rfl

end AndThen

/-- A container is entered, what is in it is passed with `inner`, and it is left. The types behind it
are `rest`; `none` is the return value 0. -/
def skipContainer (m : SdBusMessage) (type : UInt8) (contents : Option Str)
    (inner : SdBusMessage → Except Stop Unit × SdBusMessage) (rest : Str) :
    Except Stop (Option Str) × SdBusMessage :=
  andThen (sdBusMessageEnterContainer m type contents) fun b m =>
    if b = false then (.ok none, m)
    else andThen (inner m) fun _ m =>
      andThen (sdBusMessageExitContainer m) fun _ m => (.ok (some rest), m)

def membersType (t : UInt8) : UInt8 :=
  if t = sdBusTypeStructBegin then sdBusTypeStruct else sdBusTypeDictEntry

section Body
variable (skip : SdBusMessage → Str → Except Stop Bool × SdBusMessage)
variable (elements : SdBusMessage → Str → Except Stop Unit × SdBusMessage)

/-- The switch of `sd_bus_message_skip`, with `skip` for the calls the function makes of itself and
`elements` for its loop. It answers the types behind. -/
def skipFirst (m : SdBusMessage) (types : Str) : Except Stop (Option Str) × SdBusMessage :=
  let t := charAt types 0
  if busTypeIsBasic t then
    andThen (sdBusMessageReadBasic m t) fun v m => (.ok (v.map fun _ => types.drop 1), m)
  else if t = sdBusTypeArray then
    match signatureElementLength (types.drop 1) with
    | none => (.error (.errno .einval), m)
    | some k =>
      let s := (types.drop 1).take k
      skipContainer m sdBusTypeArray (some s) (elements · s) (types.drop (1 + k))
  else if t = sdBusTypeVariant then
    match sdBusMessagePeekType m with
    | .error r => (.error (.errno r), m)
    | .ok none => (.ok none, m)
    | .ok (some (x, contents)) =>
      if x ≠ sdBusTypeVariant then (.error (.errno .enxio), m)
      else
        -- the assertion: the contents of a variant are not empty
        skipContainer m sdBusTypeVariant contents (fun m => andThen (skip m (contents.getD []))
          fun b m => if b = false then (.error .crash, m) else (.ok (), m)) (types.drop 1)
  else if opensMembers t then
    match signatureElementLength types with
    | none => (.error (.errno .einval), m)
    | some k =>
      let s := membersOf types k
      skipContainer m (membersType t) (some s) (fun m => andThen (skip m s) fun _ m => (.ok (), m))
        (types.drop k)
  else (.error (.errno .einval), m)

/-- The whole function. For the types behind the first one it is enough that no error is returned;
`false` is the return value 0. -/
def skipBody (m : SdBusMessage) (types : Str) : Except Stop Bool × SdBusMessage :=
  if charAt types 0 = 0 then (.ok false, m)
  else andThen (skipFirst skip elements m types) fun rest m =>
    match rest with
    | none => (.ok false, m)
    | some rest => andThen (skip m rest) fun _ m => (.ok true, m)

def elementsBody (m : SdBusMessage) (s : Str) : Except Stop Unit × SdBusMessage :=
  andThen (skip m s) fun b m => if b = false then (.ok (), m) else elements m s

end Body

mutual

/-- `sd_bus_message_skip` of the types in a string. The first argument bounds the calls one inside
the other. -/
def skipTypes : Nat → SdBusMessage → Str → Except Stop Bool × SdBusMessage
  | 0, m, _ => (.error .running, m)
  | fuel + 1, m, types => skipBody (skipTypes fuel) (skipElements fuel) m types

def skipElements : Nat → SdBusMessage → Str → Except Stop Unit × SdBusMessage
  | 0, m, _ => (.error .running, m)
  | fuel + 1, m, s => elementsBody (skipTypes fuel) (skipElements fuel) m s

end

def sdBusMessageSkip (fuel : Nat) (m : SdBusMessage) :
    Option Str → Except Stop Bool × SdBusMessage
  | some types => skipTypes fuel m types
  | none =>
    if messageEndOfSignature m then (.error (.errno .enxio), m)
    else if messageEndOfArray m m.rindex then (.ok false, m)
    else match signatureElementLength m.last.rest with
      | none => (.error (.errno .einval), m)
      | some l => skipTypes fuel m (m.last.rest.take l)

inductive ReturnsZero (m : SdBusMessage) : Str → Prop
  | basic {t : UInt8} {types : Str} (ht : busTypeIsBasic t = true)
      (h : sdBusMessageReadBasic m t = (.ok none, m)) : ReturnsZero m (t :: types)
  | array {t : UInt8} {types : Str} {k : Nat} (ht : t = sdBusTypeArray)
      (hk : signatureElementLength types = some k)
      (h : sdBusMessageEnterContainer m sdBusTypeArray (some (types.take k)) = (.ok false, m)) :
      ReturnsZero m (t :: types)
  | variant {t : UInt8} {types : Str} (ht : t = sdBusTypeVariant)
      (h : sdBusMessagePeekType m = .ok none) : ReturnsZero m (t :: types)
  | members {t : UInt8} {types : Str} {k : Nat} (ht : opensMembers t = true)
      (hk : signatureElementLength (t :: types) = some k)
      (h : sdBusMessageEnterContainer m (membersType t) (some (membersOf (t :: types) k)) =
        (.ok false, m)) : ReturnsZero m (t :: types)

/-- The calls that read the types in a string value by value, all of which succeed, and the values
read. With `true` in front they are repeated until the first one returns 0. -/
inductive Reads : Bool → SdBusMessage → Str → List Item → SdBusMessage → Prop
  | nil (m : SdBusMessage) : Reads false m [] [] m
  | basic {m m₁ m₂ : SdBusMessage} {t : UInt8} {types : Str} {v : BasicVal} {items : List Item}
      (ht : busTypeIsBasic t = true) (h : sdBusMessageReadBasic m t = (.ok (some v), m₁))
      (hr : Reads false m₁ types items m₂) : Reads false m (t :: types) (.basic v :: items) m₂
  | array {m m₁ m₂ m₃ m₄ : SdBusMessage} {t : UInt8} {types : Str} {k : Nat}
      {inner items : List Item} (ht : t = sdBusTypeArray)
      (hk : signatureElementLength types = some k)
      (he : sdBusMessageEnterContainer m sdBusTypeArray (some (types.take k)) = (.ok true, m₁))
      (hi : Reads true m₁ (types.take k) inner m₂)
      (hx : sdBusMessageExitContainer m₂ = (.ok (), m₃))
      (hr : Reads false m₃ (types.drop k) items m₄) :
      Reads false m (t :: types) (.container sdBusTypeArray (types.take k) inner :: items) m₄
  | variant {m m₁ m₂ m₃ m₄ : SdBusMessage} {t : UInt8} {types s : Str} {inner items : List Item}
      (ht : t = sdBusTypeVariant)
      (hp : sdBusMessagePeekType m = .ok (some (sdBusTypeVariant, some s)))
      (he : sdBusMessageEnterContainer m sdBusTypeVariant (some s) = (.ok true, m₁))
      (hi : Reads false m₁ s inner m₂) (hx : sdBusMessageExitContainer m₂ = (.ok (), m₃))
      (hr : Reads false m₃ types items m₄) :
      Reads false m (t :: types) (.container sdBusTypeVariant s inner :: items) m₄
  | members {m m₁ m₂ m₃ m₄ : SdBusMessage} {t : UInt8} {types : Str} {k : Nat}
      {inner items : List Item} (ht : opensMembers t = true)
      (hk : signatureElementLength (t :: types) = some k)
      (he : sdBusMessageEnterContainer m (membersType t) (some (membersOf (t :: types) k)) =
        (.ok true, m₁))
      (hi : Reads false m₁ (membersOf (t :: types) k) inner m₂)
      (hx : sdBusMessageExitContainer m₂ = (.ok (), m₃))
      (hr : Reads false m₃ ((t :: types).drop k) items m₄) :
      Reads false m (t :: types)
        (.container (membersType t) (membersOf (t :: types) k) inner :: items) m₄
  | stop {m : SdBusMessage} {s : Str} (h : ReturnsZero m s) : Reads true m s [] m
  | more {m m₁ m₂ : SdBusMessage} {s : Str} {items rest : List Item}
      (h : Reads false m s items m₁) (hr : Reads true m₁ s rest m₂) :
      Reads true m s (items ++ rest) m₂

/-- The first call has not returned, or it returns what the second one does. -/
def Approximates {α : Type} (x y : Except Stop α × SdBusMessage) : Prop :=
  x.1 = .error .running ∨ x = y

section Approximates
variable {α β : Type}

theorem Approximates.refl (x : Except Stop α × SdBusMessage) : Approximates x x := .inr rfl

theorem Approximates.andThen {x y : Except Stop α × SdBusMessage}
    {k l : α → SdBusMessage → Except Stop β × SdBusMessage} (h : Approximates x y)
    (hk : ∀ a m, Approximates (k a m) (l a m)) :
    Approximates (andThen x k) (Reading.andThen y l) := by
  obtain h | rfl := h
  · obtain ⟨r, m⟩ := x
    obtain rfl : r = .error .running := h
    exact .inl rfl
  · obtain ⟨r | a, m⟩ := x
    · exact .inr rfl
    · exact hk a m

variable {skip skip' : SdBusMessage → Str → Except Stop Bool × SdBusMessage}
variable {elements elements' : SdBusMessage → Str → Except Stop Unit × SdBusMessage}

theorem skipContainer_mono {inner inner' : SdBusMessage → Except Stop Unit × SdBusMessage}
    (h : ∀ m, Approximates (inner m) (inner' m)) (m : SdBusMessage) (type : UInt8)
    (contents : Option Str) (rest : Str) :
    Approximates (skipContainer m type contents inner rest)
      (skipContainer m type contents inner' rest) := by
  refine (Approximates.refl _).andThen fun b m => ?_
  split_ifs
  · exact .refl _
  · exact (h m).andThen fun _ m => .refl _

theorem skipFirst_mono (hs : ∀ m s, Approximates (skip m s) (skip' m s))
    (he : ∀ m s, Approximates (elements m s) (elements' m s)) (m : SdBusMessage) (types : Str) :
    Approximates (skipFirst skip elements m types) (skipFirst skip' elements' m types) := by
  unfold skipFirst
  dsimp only
  split_ifs
  · exact .refl _
  · split
    · exact .refl _
    · exact skipContainer_mono (fun m => he m _) _ _ _ _
  · split
    · exact .refl _
    · exact .refl _
    · split_ifs
      · exact .refl _
      · exact skipContainer_mono (fun m => (hs m _).andThen fun b m => .refl _) _ _ _ _
  · split
    · exact .refl _
    · exact skipContainer_mono (fun m => (hs m _).andThen fun b m => .refl _) _ _ _ _
  · exact .refl _

theorem skipBody_mono (hs : ∀ m s, Approximates (skip m s) (skip' m s))
    (he : ∀ m s, Approximates (elements m s) (elements' m s)) (m : SdBusMessage) (types : Str) :
    Approximates (skipBody skip elements m types) (skipBody skip' elements' m types) := by
  unfold skipBody
  split_ifs
  · exact .refl _
  · refine (skipFirst_mono hs he m types).andThen fun rest m => ?_
    cases rest with
    | none => exact .refl _
    | some rest => exact (hs m rest).andThen fun _ m => .refl _

theorem elementsBody_mono (hs : ∀ m s, Approximates (skip m s) (skip' m s))
    (he : ∀ m s, Approximates (elements m s) (elements' m s)) (m : SdBusMessage) (s : Str) :
    Approximates (elementsBody skip elements m s) (elementsBody skip' elements' m s) := by
  refine (hs m s).andThen fun b m => ?_
  split_ifs
  · exact .refl _
  · exact he m s

end Approximates

theorem skip_succ (fuel : Nat) :
    (∀ m types, Approximates (skipTypes fuel m types) (skipTypes (fuel + 1) m types)) ∧
    ∀ m s, Approximates (skipElements fuel m s) (skipElements (fuel + 1) m s) := by
  induction fuel with
  | zero => exact ⟨fun m types => .inl rfl, fun m s => .inl rfl⟩
  | succ fuel ih =>
    exact ⟨fun m types => skipBody_mono ih.1 ih.2 m types,
      fun m s => elementsBody_mono ih.1 ih.2 m s⟩

theorem skipTypes_mono {fuel fuel' : Nat} (hle : fuel ≤ fuel') {m m' : SdBusMessage} {types : Str}
    {r : Except Stop Bool} (h : skipTypes fuel m types = (r, m')) (hr : r ≠ .error .running) :
    skipTypes fuel' m types = (r, m') := by
  induction hle with
  | refl => exact h
  | @step n _ ih =>
    obtain hrun | heq := (skip_succ n).1 m types
    · rw [ih] at hrun
      exact absurd hrun hr
    · rw [← heq, ih]

theorem skipElements_mono {fuel fuel' : Nat} (hle : fuel ≤ fuel') {m m' : SdBusMessage} {s : Str}
    {r : Except Stop Unit} (h : skipElements fuel m s = (r, m')) (hr : r ≠ .error .running) :
    skipElements fuel' m s = (r, m') := by
  induction hle with
  | refl => exact h
  | @step n _ ih =>
    obtain hrun | heq := (skip_succ n).2 m s
    · rw [ih] at hrun
      exact absurd hrun hr
    · rw [← heq, ih]

end Basu.Reading
