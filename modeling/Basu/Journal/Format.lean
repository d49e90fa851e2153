import Basu.Address.Parse

/-! `render_format`: the scanner of `sd-journal.c` for `printf` formats and the arguments it takes. -/

namespace Basu.Journal
open Lib

inductive Arg
  | int (v : BitVec 32)
  | long (v : BitVec 64)
  | longLong (v : BitVec 64)
  | size (v : BitVec 64)
  | double (v : BitVec 64)
  | pointer (s : Option Str)
  deriving DecidableEq

inductive ArgType
  | int | long | longLong | size | double | pointer
  deriving DecidableEq

def Arg.type : Arg → ArgType
  | .int _ => .int
  | .long _ => .long
  | .longLong _ => .longLong
  | .size _ => .size
  | .double _ => .double
  | .pointer _ => .pointer

def Arg.toNat : Arg → Nat
  | .int v => v.toNat
  | .long v | .longLong v | .size v | .double v => v.toNat
  | .pointer _ => 0

def Arg.toInt : Arg → Int
  | .int v => v.toInt
  | .long v | .longLong v | .size v | .double v => v.toInt
  | .pointer _ => 0

/-- What the language leaves undefined, and a bound on the passes of a loop that is not reached. -/
inductive Fault
  | wrongArgument | pastNul | overflow | endless
  deriving DecidableEq

def vaArg (t : ArgType) : List Arg → Except Fault (Arg × List Arg)
  | [] => .error .wrongArgument
  | a :: args => if a.type = t then .ok (a, args) else .error .wrongArgument

def charStar : UInt8 := 42

inductive Length
  | none | l | ll | z
  deriving DecidableEq

/-- What `snprintf` makes of floating point numbers and of addresses. -/
structure Libc where
  double : UInt8 → BitVec 64 → Str
  address : Option Str → Str

def digits (base n : Nat) : Str := (Nat.toDigits base n).map fun c => c.toNat.toUInt8

def upper (s : Str) : Str := s.map fun c => if 97 ≤ c ∧ c ≤ 122 then c - 32 else c

def signed (v : Int) : Str := if v < 0 then charDash :: digits 10 v.natAbs else digits 10 v.natAbs

def isIntegerConv (c : UInt8) : Bool := (str "diuxXo").contains c

def isDoubleConv (c : UInt8) : Bool := (str "fFeEgG").contains c

def convType (length : Length) (c : UInt8) : Option ArgType :=
  if (str "sp").contains c then some .pointer
  else if c = 99 then some .int
  else if isDoubleConv c then some .double
  else if isIntegerConv c then
    match length with
    | .ll => some .longLong
    | .l => some .long
    | .z => some .size
    | .none => some .int
  else none

/-- The text of an argument; a signed one of the size of `size_t` is printed with `%zu`. -/
def convText (libc : Libc) (length : Length) (c : UInt8) (a : Arg) : Str :=
  match a with
  | .pointer s => if c = 115 then s.getD (str "(null)") else libc.address s
  | .double v => libc.double c v
  | a =>
    if c = 99 then [a.toNat.toUInt8]
    else if (str "di").contains c then
      if length = .z then digits 10 a.toNat else signed a.toInt
    else if c = 117 then digits 10 a.toNat
    else if c = 111 then digits 8 a.toNat
    else if c = 88 then upper (digits 16 a.toNat)
    else digits 16 a.toNat

def convert (libc : Libc) (length : Length) (c : UInt8) (args : List Arg) :
    Except Fault (Str × List Arg) :=
  match convType length c with
  | none => .ok (str "?", args)
  | some t =>
    match vaArg t args with
    | .error e => .error e
    | .ok (a, args) => .ok (convText libc length c a, args)

def isFlag (c : UInt8) : Bool := (str "#0- +").contains c

def skipNumber (p : Str) (args : List Arg) : Except Fault (Str × List Arg) :=
  if charAt p 0 = charStar then
    match vaArg .int args with
    | .error e => .error e
    | .ok (_, args) => .ok (p.drop 1, args)
  else .ok (p.dropWhile isDigit, args)

def skipPrecision (p : Str) (args : List Arg) : Except Fault (Str × List Arg) :=
  if charAt p 0 = charDot then skipNumber (p.drop 1) args else .ok (p, args)

def scanLength (p : Str) : Length × Str :=
  if charAt p 0 = 108 ∧ charAt p 1 = 108 then (.ll, p.drop 2)
  else if charAt p 0 = 108 then (.l, p.drop 1)
  else if charAt p 0 = 122 then (.z, p.drop 1)
  else if charAt p 0 = 116 then (.none, p.drop 1)
  else (.none, p)

/-- A conversion behind its `%`: the text it prints, what is left of the format from its last
character on, and the arguments that are left. -/
def scanConversion (libc : Libc) (p : Str) (args : List Arg) :
    Except Fault (Str × Str × List Arg) :=
  match skipNumber (p.dropWhile isFlag) args with
  | .error e => .error e
  | .ok (p, args) =>
    match skipPrecision p args with
    | .error e => .error e
    | .ok (p, args) =>
      let (length, p) := scanLength p
      match convert libc length (charAt p 0) args with
      | .error e => .error e
      | .ok (text, args) => .ok (text, p, args)

/-! ## `render_format` -/

def pushChar (bufSz : Nat) (buf : Str) (c : UInt8) : Str :=
  if buf.length + 1 < bufSz then buf ++ [c] else buf

/-- The end of a conversion: what fits into `tmp` and into the rest of the buffer. -/
def pushText (bufSz : Nat) (buf text : Str) : Except Fault Str :=
  let tl := min text.length 95
  let room := (2 ^ 64 + bufSz - 1 - buf.length) % 2 ^ 64
  let tl := min tl room
  if buf.length + tl < bufSz then .ok (buf ++ text.take tl) else .error .overflow

def renderLoop (libc : Libc) (bufSz : Nat) :
    Nat → Str → Str → List Arg → Except Fault (Str × List Arg)
  | 0, _, _, _ => .error .endless
  | _ + 1, buf, [], args => .ok (buf, args)
  | fuel + 1, buf, c :: p, args =>
    if c ≠ charPercent then renderLoop libc bufSz fuel (pushChar bufSz buf c) p args
    else if charAt p 0 = charPercent then
      renderLoop libc bufSz fuel (pushChar bufSz buf charPercent) (p.drop 1) args
    else
      match scanConversion libc p args with
      | .error e => .error e
      | .ok (text, q, args) =>
        match pushText bufSz buf text with
        | .error e => .error e
        | .ok buf =>
          -- at the end of the format there is no character of the conversion to go past
          if q = [] then .error .pastNul else renderLoop libc bufSz fuel buf (q.drop 1) args

def renderFormat (libc : Libc) (bufSz : Nat) (fmt : Str) (args : List Arg) :
    Except Fault (Str × List Arg) :=
  if bufSz = 0 then .ok ([], args) else renderLoop libc bufSz (fmt.length + 1) [] fmt args

inductive Flag
  | hash | zero | minus | space | plus

def Flag.char : Flag → UInt8
  | .hash => 35
  | .zero => 48
  | .minus => 45
  | .space => 32
  | .plus => 43

inductive Width
  | absent
  | star
  | digits (ds : List (Fin 10))

def Width.print : Width → Str
  | .absent => []
  | .star => [charStar]
  | .digits ds => ds.map fun d => 48 + d.val.toUInt8

def Width.types : Width → List ArgType
  | .star => [.int]
  | _ => []

def Length.print : Length → Str
  | .none => []
  | .l => str "l"
  | .ll => str "ll"
  | .z => str "z"

inductive Conv
  | d | i | u | x | X | o | s | c | p | f | F | e | E | g | G

def Conv.char : Conv → UInt8
  | .d => 100
  | .i => 105
  | .u => 117
  | .x => 120
  | .X => 88
  | .o => 111
  | .s => 115
  | .c => 99
  | .p => 112
  | .f => 102
  | .F => 70
  | .e => 101
  | .E => 69
  | .g => 103
  | .G => 71

def Conv.type (length : Length) : Conv → ArgType
  | .s | .p => .pointer
  | .c => .int
  | .f | .F | .e | .E | .g | .G => .double
  | .d | .i | .u | .x | .X | .o =>
    match length with
    | .none => .int
    | .l => .long
    | .ll => .longLong
    | .z => .size

structure Conversion where
  flags : List Flag
  width : Width
  precision : Option Width
  length : Length
  conv : Conv

def precisionPrint : Option Width → Str
  | none => []
  | some w => charDot :: w.print

def precisionTypes : Option Width → List ArgType
  | none => []
  | some w => w.types

def Conversion.print (v : Conversion) : Str :=
  v.flags.map Flag.char ++ v.width.print ++ precisionPrint v.precision ++ v.length.print ++
    [v.conv.char]

def Conversion.types (v : Conversion) : List ArgType :=
  v.width.types ++ precisionTypes v.precision ++ [v.conv.type v.length]

inductive Piece
  | char (c : UInt8) (h : c ≠ charPercent ∧ c ≠ 0)
  | percent
  | conversion (v : Conversion)

def Piece.print : Piece → Str
  | .char c _ => [c]
  | .percent => [charPercent, charPercent]
  | .conversion v => charPercent :: v.print

def Piece.types : Piece → List ArgType
  | .conversion v => v.types
  | _ => []

structure Format where
  pieces : List Piece
  percentEnd : Bool

def Format.print (f : Format) : Str :=
  f.pieces.flatMap Piece.print ++ if f.percentEnd then [charPercent] else []

def Format.types (f : Format) : List ArgType := f.pieces.flatMap Piece.types

def EndsNumber (s : Str) : Prop :=
  ∃ c t, s = c :: t ∧ isFlag c = false ∧ isDigit c = false ∧ c ≠ charStar

theorem isDigit_of_mem {ds : List (Fin 10)} {c : UInt8}
    (h : c ∈ (Width.digits ds).print) : isDigit c = true := by
  obtain ⟨d, -, rfl⟩ := List.mem_map.mp h
  have hdigit : ∀ d : Fin 10, isDigit (48 + d.val.toUInt8) = true := by decide
  exact hdigit d

theorem isFlag_char (f : Flag) : isFlag f.char = true := by cases f <;> decide

theorem ne_star_of_isDigit {c : UInt8} (h : isDigit c = true) : c ≠ charStar := by
  rintro rfl
  exact absurd h (by decide)

section
variable {s tail : Str} {as args : List Arg}

theorem skipNumber_of_digits {ds : Str} (hds : ∀ c ∈ ds, isDigit c = true) (hs : EndsNumber s) :
    skipNumber (ds ++ s) args = .ok (s, args) := by
  obtain ⟨c, t, rfl, -, hc, hstar⟩ := hs
  have hne : charAt (ds ++ c :: t) 0 ≠ charStar := by
    cases ds with
    | nil => exact hstar
    | cons d ds => exact ne_star_of_isDigit (hds d List.mem_cons_self)
  rw [skipNumber, if_neg hne, List.dropWhile_append_of_pos hds,
    List.dropWhile_cons_of_neg (by rw [hc]; exact Bool.false_ne_true)]

theorem skipNumber_width {w : Width} (h : as.map Arg.type = w.types) (hs : EndsNumber s) :
    skipNumber (w.print ++ s) (as ++ args) = .ok (s, args) := by
  cases w with
  | absent =>
    obtain rfl := List.map_eq_nil_iff.mp h
    exact @skipNumber_of_digits s args [] nofun hs
  | digits ds =>
    obtain rfl := List.map_eq_nil_iff.mp h
    exact skipNumber_of_digits (fun c hc => isDigit_of_mem hc) hs
  | star =>
    obtain ⟨a, as, rfl, ha, hnil⟩ := List.map_eq_cons_iff.mp h
    obtain rfl := List.map_eq_nil_iff.mp hnil
    rw [Width.print, skipNumber, List.singleton_append, List.singleton_append, charAt_cons_zero,
      if_pos rfl, vaArg, if_pos ha]
    rfl

theorem skipNumber_flags {flags : List Flag} {w : Width} (h : as.map Arg.type = w.types)
    (hs : EndsNumber s) :
    skipNumber ((flags.map Flag.char ++ (w.print ++ s)).dropWhile isFlag) (as ++ args) =
      .ok (s, args) := by
  have hflags : ∀ c ∈ flags.map Flag.char, isFlag c = true := by
    intro c hc
    obtain ⟨f, -, rfl⟩ := List.mem_map.mp hc
    exact isFlag_char f
  rw [List.dropWhile_append_of_pos hflags]
  have hdrop : s.dropWhile isFlag = s := by
    obtain ⟨c, t, rfl, hc, -⟩ := hs
    exact List.dropWhile_cons_of_neg (by rw [hc]; exact Bool.false_ne_true)
  cases w with
  | absent =>
    have hskip := @skipNumber_width s as args .absent h hs
    rw [Width.print, List.nil_append] at hskip ⊢
    rw [hdrop, hskip]
  | star =>
    rw [Width.print, List.singleton_append, List.dropWhile_cons_of_neg (by decide)]
    exact skipNumber_width (w := .star) h hs
  | digits ds =>
    obtain rfl := List.map_eq_nil_iff.mp h
    have hrest : ((Width.digits ds).print ++ s).dropWhile isFlag =
        (Width.digits ds).print.dropWhile isFlag ++ s := by
      rw [List.dropWhile_append]
      split
      · next hempty => rw [hdrop, List.isEmpty_iff.mp hempty, List.nil_append]
      · rfl
    rw [hrest]
    exact skipNumber_of_digits
      (fun c hc => isDigit_of_mem (List.dropWhile_sublist _ |>.subset hc)) hs

theorem endsNumber_conv (length : Length) (conv : Conv) :
    EndsNumber (length.print ++ conv.char :: tail) := by
  cases length with
  | none => exact ⟨conv.char, tail, rfl, by cases conv <;> decide⟩
  | l => exact ⟨108, conv.char :: tail, rfl, by decide⟩
  | ll => exact ⟨108, 108 :: conv.char :: tail, rfl, by decide⟩
  | z => exact ⟨122, conv.char :: tail, rfl, by decide⟩

theorem endsNumber_precision (precision : Option Width) (length : Length) (conv : Conv) :
    EndsNumber (precisionPrint precision ++ (length.print ++ conv.char :: tail)) := by
  cases precision with
  | none => exact endsNumber_conv length conv
  | some w => exact ⟨charDot, _, rfl, by decide⟩

theorem skipPrecision_print {precision : Option Width}
    (h : as.map Arg.type = precisionTypes precision) (hs : EndsNumber s)
    (hdot : charAt s 0 ≠ charDot) :
    skipPrecision (precisionPrint precision ++ s) (as ++ args) = .ok (s, args) := by
  cases precision with
  | none =>
    obtain rfl := List.map_eq_nil_iff.mp h
    exact if_neg hdot
  | some w => exact skipNumber_width h hs

theorem scanLength_print (length : Length) (conv : Conv) :
    scanLength (length.print ++ conv.char :: tail) = (length, conv.char :: tail) := by
  have hconv : conv.char ≠ 108 ∧ conv.char ≠ 122 ∧ conv.char ≠ 116 := by cases conv <;> decide
  obtain ⟨hl, hz, ht⟩ := hconv
  cases length with
  | none =>
    have hnone : ∀ {c : UInt8}, conv.char ≠ c → charAt (conv.char :: tail) 0 ≠ c := fun h => h
    rw [Length.print, List.nil_append, scanLength, if_neg fun h => hnone hl h.1,
      if_neg (hnone hl), if_neg (hnone hz), if_neg (hnone ht)]
  | l => exact (if_neg fun h => hl h.2).trans (if_pos rfl)
  | ll => exact if_pos ⟨rfl, rfl⟩
  | z => rfl

theorem convType_char (length : Length) (conv : Conv) :
    convType length conv.char = some (conv.type length) := by
  cases conv <;> cases length <;> decide

theorem scanConversion_print (libc : Libc) {v : Conversion} (h : as.map Arg.type = v.types) :
    ∃ text, scanConversion libc (v.print ++ tail) (as ++ args) =
      .ok (text, v.conv.char :: tail, args) := by
  obtain ⟨flags, width, precision, length, conv⟩ := v
  have htypes : as.map Arg.type =
      width.types ++ (precisionTypes precision ++ [conv.type length]) := by
    rw [h, Conversion.types, List.append_assoc]
  obtain ⟨as₁, as', rfl, hwidth, h'⟩ := List.map_eq_append_iff.mp htypes
  obtain ⟨as₂, as₃, rfl, hprecision, hconv⟩ := List.map_eq_append_iff.mp h'
  obtain ⟨a, as', rfl, ha, hnil⟩ := List.map_eq_cons_iff.mp hconv
  obtain rfl := List.map_eq_nil_iff.mp hnil
  have hprint : Conversion.print ⟨flags, width, precision, length, conv⟩ ++ tail =
      flags.map Flag.char ++ (width.print ++
        (precisionPrint precision ++ (length.print ++ conv.char :: tail))) := by
    rw [Conversion.print]
    simp only [List.append_assoc, List.singleton_append]
  have hdot : charAt (length.print ++ conv.char :: tail) 0 ≠ charDot := by
    cases length with
    | none =>
      change conv.char ≠ charDot
      cases conv <;> decide
    | l | ll => exact (by decide : (108 : UInt8) ≠ charDot)
    | z => exact (by decide : (122 : UInt8) ≠ charDot)
  refine ⟨convText libc length conv.char a, ?_⟩
  rw [scanConversion, hprint, List.append_assoc, List.append_assoc,
    skipNumber_flags hwidth (endsNumber_precision precision length conv)]
  simp only
  rw [skipPrecision_print hprecision (endsNumber_conv length conv) hdot]
  simp only
  rw [scanLength_print]
  simp only
  rw [convert, charAt_cons_zero, convType_char]
  simp only
  rw [List.singleton_append, vaArg, if_pos ha]

end

theorem Conversion.clean {v : Conversion} {c : UInt8} (h : c ∈ v.print) :
    c ≠ charPercent ∧ c ≠ 0 := by
  have hwidth : ∀ {w : Width}, c ∈ w.print → c ≠ charPercent ∧ c ≠ 0 := by
    intro w hw
    cases w with
    | absent => exact absurd hw nofun
    | star =>
      obtain rfl := List.mem_singleton.mp hw
      decide
    | digits ds =>
      have hdigit := isDigit_of_mem hw
      constructor <;> rintro rfl <;> exact absurd hdigit (by decide)
  simp only [Conversion.print, List.mem_append, List.mem_map, List.mem_singleton] at h
  obtain (((⟨f, -, rfl⟩ | h) | h) | h) | rfl := h
  · cases f <;> decide
  · exact hwidth h
  · cases hp : v.precision with
    | none => exact absurd (hp ▸ h) nofun
    | some w =>
      rw [hp, precisionPrint] at h
      obtain rfl | h := List.mem_cons.mp h
      · decide
      · exact hwidth h
  · have hlength : ∀ length : Length, ∀ c ∈ length.print, c ≠ charPercent ∧ c ≠ 0 := by
      intro length
      cases length <;> exact forall_mem_of_all rfl
    exact hlength v.length c h
  · cases v.conv <;> decide

theorem Conversion.print_ne_nil (v : Conversion) : v.print ≠ [] :=
  List.append_ne_nil_of_right_ne_nil _ (List.cons_ne_nil _ _)

section
variable {libc : Libc} {bufSz : Nat} {buf : Str}

theorem length_pushChar (h : buf.length < bufSz) (c : UInt8) :
    (pushChar bufSz buf c).length < bufSz := by
  rw [pushChar]
  split
  · next hroom => rwa [List.length_append]
  · exact h

theorem pushText_ok (hsz : bufSz ≤ 2 ^ 64) (h : buf.length < bufSz) (text : Str) :
    ∃ buf', pushText bufSz buf text = .ok buf' ∧ buf'.length < bufSz := by
  have hroom : (2 ^ 64 + bufSz - 1 - buf.length) % 2 ^ 64 = bufSz - 1 - buf.length := by omega
  have hfits : buf.length + min (min text.length 95) (bufSz - 1 - buf.length) < bufSz := by omega
  refine ⟨buf ++ text.take (min (min text.length 95) (bufSz - 1 - buf.length)), ?_, ?_⟩
  · rw [pushText, hroom]
    exact if_pos hfits
  · rw [List.length_append, List.length_take]
    omega

theorem Piece.length_print_pos (piece : Piece) : 0 < piece.print.length := by
  cases piece <;> exact Nat.succ_pos _

theorem renderLoop_conversion (hsz : bufSz ≤ 2 ^ 64) (hbuf : buf.length < bufSz) {v : Conversion}
    {as args : List Arg} (h : as.map Arg.type = v.types) (rest : Str) (fuel : Nat) :
    ∃ buf', buf'.length < bufSz ∧
      renderLoop libc bufSz (fuel + 1) buf ((Piece.conversion v).print ++ rest) (as ++ args) =
        renderLoop libc bufSz fuel buf' rest args := by
  obtain ⟨text, hscan⟩ := @scanConversion_print rest as args libc v h
  obtain ⟨buf', hpush, hlt⟩ := pushText_ok hsz hbuf text
  have hpercent : charAt (v.print ++ rest) 0 ≠ charPercent := by
    obtain ⟨c, s, hcs⟩ := List.exists_cons_of_ne_nil v.print_ne_nil
    rw [hcs, List.cons_append, charAt_cons_zero]
    exact (v.clean (hcs ▸ List.mem_cons_self)).1
  refine ⟨buf', hlt, ?_⟩
  rw [Piece.print, List.cons_append, renderLoop, if_neg (not_not.mpr rfl), if_neg hpercent, hscan]
  simp only
  rw [hpush]
  simp only
  rw [if_neg (List.cons_ne_nil _ _), List.drop_one, List.tail_cons]

theorem renderLoop_pieces (hsz : bufSz ≤ 2 ^ 64) {tail : Str} {args : List Arg} :
    ∀ {pieces : List Piece} {as : List Arg} {buf : Str} {fuel : Nat}, buf.length < bufSz →
      as.map Arg.type = pieces.flatMap Piece.types →
      (pieces.flatMap Piece.print ++ tail).length < fuel →
      ∃ buf' fuel', buf'.length < bufSz ∧ tail.length < fuel' ∧
        renderLoop libc bufSz fuel buf (pieces.flatMap Piece.print ++ tail) (as ++ args) =
          renderLoop libc bufSz fuel' buf' tail args
  | [], as, buf, fuel, hbuf, htypes, hfuel => by
    obtain rfl := List.map_eq_nil_iff.mp htypes
    exact ⟨buf, fuel, hbuf, hfuel, rfl⟩
  | piece :: pieces, as, buf, fuel + 1, hbuf, htypes, hfuel => by
    rw [List.flatMap_cons, List.append_assoc] at hfuel ⊢
    rw [List.flatMap_cons] at htypes
    have hpos := piece.length_print_pos
    have hrest : (pieces.flatMap Piece.print ++ tail).length < fuel := by
      rw [List.length_append] at hfuel
      omega
    cases piece with
    | char c h =>
      obtain ⟨buf', fuel', hbuf', hfuel', hloop⟩ :=
        renderLoop_pieces hsz (length_pushChar hbuf c) htypes hrest
      refine ⟨buf', fuel', hbuf', hfuel', ?_⟩
      rw [← hloop, Piece.print, List.singleton_append, renderLoop, if_pos h.1]
    | percent =>
      obtain ⟨buf', fuel', hbuf', hfuel', hloop⟩ :=
        renderLoop_pieces hsz (length_pushChar hbuf charPercent) htypes hrest
      refine ⟨buf', fuel', hbuf', hfuel', ?_⟩
      rw [← hloop, Piece.print, List.cons_append, List.singleton_append, renderLoop,
        if_neg (not_not.mpr rfl), if_pos (charAt_cons_zero _ _), List.drop_one, List.tail_cons]
    | conversion v =>
      obtain ⟨as₁, as₂, rfl, hown, htypes'⟩ := List.map_eq_append_iff.mp htypes
      obtain ⟨buf₁, hbuf₁, hone⟩ := @renderLoop_conversion libc bufSz buf hsz hbuf v as₁ (as₂ ++ args)
        hown (pieces.flatMap Piece.print ++ tail) fuel
      obtain ⟨buf', fuel', hbuf', hfuel', hloop⟩ := renderLoop_pieces hsz hbuf₁ htypes' hrest
      refine ⟨buf', fuel', hbuf', hfuel', ?_⟩
      rw [← hloop, List.append_assoc, hone]

variable {f : Format} {as args : List Arg}

theorem renderFormat_print (hpos : 0 < bufSz) (hsz : bufSz ≤ 2 ^ 64) (hend : f.percentEnd = false)
    (h : as.map Arg.type = f.types) :
    ∃ out, renderFormat libc bufSz f.print (as ++ args) = .ok (out, args) ∧ out.length < bufSz := by
  obtain ⟨out, fuel, hout, hfuel, hloop⟩ :=
    @renderLoop_pieces libc bufSz hsz [] args f.pieces as [] _ hpos h (Nat.lt_succ_self _)
  refine ⟨out, ?_, hout⟩
  obtain ⟨fuel, rfl⟩ := Nat.exists_eq_succ_of_ne_zero hfuel.ne'
  rw [renderFormat, if_neg hpos.ne', Format.print, hend, if_neg Bool.false_ne_true, hloop]
  rfl

theorem renderFormat_percent (hpos : 0 < bufSz) (hsz : bufSz ≤ 2 ^ 64) (hend : f.percentEnd = true)
    (h : as.map Arg.type = f.types) :
    renderFormat libc bufSz f.print (as ++ args) = .error .pastNul := by
  obtain ⟨out, fuel, hout, hfuel, hloop⟩ :=
    @renderLoop_pieces libc bufSz hsz [charPercent] args f.pieces as [] _ hpos h (Nat.lt_succ_self _)
  obtain ⟨fuel, rfl⟩ := Nat.exists_eq_succ_of_ne_zero (Nat.ne_zero_of_lt hfuel)
  obtain ⟨buf', hpush, -⟩ := pushText_ok hsz hout (str "?")
  have hscan : scanConversion libc [] args = .ok (str "?", [], args) := rfl
  rw [renderFormat, if_neg hpos.ne', Format.print, hend, if_pos rfl, hloop, renderLoop,
    if_neg (not_not.mpr rfl), if_neg (by decide), hscan]
  simp only
  rw [hpush]
  rfl

theorem Format.clean {c : UInt8} (h : c ∈ f.print) : c ≠ 0 := by
  obtain h | h := List.mem_append.mp h
  · obtain ⟨piece, -, hc⟩ := List.mem_flatMap.mp h
    cases piece with
    | char d hd =>
      obtain rfl := List.mem_singleton.mp hc
      exact hd.2
    | percent =>
      rw [Piece.print, List.mem_pair, or_self] at hc
      exact hc ▸ by decide
    | conversion v =>
      obtain rfl | hc := List.mem_cons.mp hc
      · decide
      · exact (v.clean hc).2
  · split at h
    · obtain rfl := List.mem_singleton.mp h
      decide
    · exact absurd h nofun

end

end Basu.Journal
