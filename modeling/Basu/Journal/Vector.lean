import Basu.Journal.Line

/-! `sd_journal_sendv`: fields that end with their length and not with a NUL. -/

namespace Basu.Journal
open Lib

/-- An `iovec`: the bytes of its length, and those that stand behind them in memory. -/
structure IoVec where
  bytes : Str
  behind : Str

def IoVec.memory (v : IoVec) : Str := v.bytes ++ v.behind

def priorityOf (s : Str) : Option Nat := if strtoul s ≤ 7 then some (strtoul s) else none

structure Found where
  prio : Nat
  msg : Option Str
  file : Str
  func : Str
  line : Str

def Found.empty : Found where
  prio := 6
  msg := none
  file := []
  func := []
  line := []

def IoVec.has (v : IoVec) (key : Str) : Bool :=
  key.length ≤ v.bytes.length && key.isPrefixOf v.memory

def IoVec.copy (v : IoVec) (n size : Nat) : Str :=
  (v.memory.drop n).take (if size ≤ v.bytes.length - n then size - 1 else v.bytes.length - n)

def scanVector (f : Found) (v : IoVec) : Found :=
  if v.has (str "PRIORITY=") then
    { f with prio := (priorityOf (v.memory.drop 9)).getD f.prio }
  else if v.has (str "MESSAGE=") then
    { f with msg := some ((v.memory.drop 8).take (v.bytes.length - 8)) }
  else if v.has (str "CODE_FILE=") then { f with file := v.copy 10 64 }
  else if v.has (str "CODE_LINE=") then { f with line := v.copy 10 24 }
  else if v.has (str "CODE_FUNC=") then { f with func := v.copy 10 64 }
  else f

def specialKeys : List Str :=
  [str "PRIORITY=", str "MESSAGE=", str "CODE_FILE=", str "CODE_LINE=", str "CODE_FUNC=",
    str "LOG2_FMTMSG=", str "MESSAGE_ID="]

def IoVec.skipped (v : IoVec) : Bool := specialKeys.any fun key => key.isPrefixOf v.memory

def printVector (buf : Str) (v : IoVec) : Str :=
  if v.bytes.length = 0 then buf
  else if v.skipped then buf
  else bappendRaw (bappendf buf (str " | ")) v.bytes

def placeText (file func line : Str) : Str :=
  if file ≠ [] then str " (" ++ baseName file ++ str ":" ++ func ++ str ":" ++ line ++ str ")"
  else str " (" ++ func ++ str ":" ++ line ++ str ")"

def printFound (f : Found) : Str :=
  let buf := bappendf [] (str "[" ++ prioTag f.prio ++ str "]")
  let buf :=
    match f.msg with
    | none => buf
    | some msg => bappendRaw (bappendf buf (str " ")) msg
  if cString f.func ≠ [] ∧ cString f.line ≠ [] then
    bappendf buf (placeText (cString f.file) (cString f.func) (cString f.line))
  else buf

def sendv (iov : List (Option IoVec)) : Option Str :=
  if iov = [] then none
  else
    let vs := iov.filterMap id
    some (cString (vs.foldl printVector (printFound (vs.foldl scanVector .empty))))

/-! ## The text of the fields -/

def isSpecial (field : Str) : Bool := specialKeys.any fun key => key.isPrefixOf field

def valuesOf (key : Str) (fields : List Str) : List Str :=
  fields.filterMap fun f => if key.isPrefixOf f then some (f.drop key.length) else none

def lastOf (key : Str) (fields : List Str) : Option Str := (valuesOf key fields).getLast?

def priority (fields : List Str) : Nat :=
  ((valuesOf (str "PRIORITY=") fields).filterMap priorityOf).getLast?.getD 6

def shortValue (key : Str) (n : Nat) (fields : List Str) : Str :=
  cString (((lastOf key fields).getD []).take n)

def messageText (fields : List Str) : Str :=
  match lastOf (str "MESSAGE=") fields with
  | none => []
  | some msg => str " " ++ msg

def place (fields : List Str) : Str :=
  let func := shortValue (str "CODE_FUNC=") 63 fields
  let line := shortValue (str "CODE_LINE=") 23 fields
  if func ≠ [] ∧ line ≠ [] then placeText (shortValue (str "CODE_FILE=") 63 fields) func line
  else []

def isPrinted (field : Str) : Bool := field ≠ [] ∧ isSpecial field = false

/-- "[TAG] message (file:func:line) | KEY=value | ..." -/
def lineWith (prio : Nat) (fields : List Str) : Str :=
  str "[" ++ prioTag prio ++ str "]" ++ messageText fields ++ place fields ++
    (fields.filter isPrinted).flatMap fun field => str " | " ++ field

def lineText (fields : List Str) : Str := lineWith (priority fields) fields

def fieldsOf (iov : List (Option IoVec)) : List (Option Str) := iov.map (Option.map IoVec.bytes)

def fieldsLine (fields : List (Option Str)) : Option Str :=
  if fields = [] then none else some (truncated (lineText (fields.filterMap id)))

def IoVec.Told (v : IoVec) : Prop := v.bytes ≠ [] → v.skipped = isSpecial v.bytes

structure DependsOnFields (fields : List (Option Str)) : Prop where
  same : ∀ iov iov', fieldsOf iov = fields → fieldsOf iov' = fields → sendv iov = sendv iov'
  told : ∀ iov, fieldsOf iov = fields → ∀ v, some v ∈ iov → v.Told
  line : ∀ iov, fieldsOf iov = fields → sendv iov = fieldsLine fields

def IoVec.number (v : IoVec) : Option Nat :=
  if (str "PRIORITY=").isPrefixOf v.bytes then priorityOf (v.bytes.drop 9 ++ v.behind) else none

/-- From the last field on, no number can run on to a priority other than `prio`, until one that is
`prio` whatever stands behind it. -/
def Settled (prio : Nat) : List Str → Prop
  | [] => prio = 6
  | field :: before =>
    (∀ behind, (IoVec.mk field behind).number = some prio) ∨
      (∀ behind, (IoVec.mk field behind).number = none ∨
        (IoVec.mk field behind).number = some prio) ∧ Settled prio before

/-- No field stops inside a key, no number runs on to another priority, and there is no NUL in the
line. -/
structure EndsInside (fields : List Str) : Prop where
  keys : ∀ field ∈ fields, field ≠ [] → ∀ key ∈ specialKeys, field <+: key → field = key
  numbers : Settled (priority fields) fields.reverse
  clean : (0 : UInt8) ∉ truncated (lineText fields)

section
variable {v : IoVec} {key : Str}

theorem has_eq (v : IoVec) (key : Str) : v.has key = key.isPrefixOf v.bytes := by
  rw [Bool.eq_iff_iff, IoVec.has, Bool.and_eq_true, decide_eq_true_iff,
    List.isPrefixOf_iff_prefix, List.isPrefixOf_iff_prefix]
  constructor
  · rintro ⟨hle, hpre⟩
    exact List.prefix_of_prefix_length_le hpre (List.prefix_append _ _) hle
  · exact fun h => ⟨h.length_le, h.trans (List.prefix_append _ _)⟩

theorem length_le_of_has (h : v.has key = true) : key.length ≤ v.bytes.length := by
  rw [has_eq, List.isPrefixOf_iff_prefix] at h
  exact h.length_le

theorem keys_apart {k k' : Str} (hk : k ∈ specialKeys) (hk' : k' ∈ specialKeys) (h : k <+: k') :
    k = k' := by
  have hapart : ∀ k ∈ specialKeys, ∀ k' ∈ specialKeys, k.isPrefixOf k' = true → k = k' := by
    decide
  exact hapart k hk k' hk' (List.isPrefixOf_iff_prefix.mpr h)

theorem not_has {k : Str} (h : v.has key = true) (hkey : key ∈ specialKeys)
    (hk : k ∈ specialKeys) (hne : k ≠ key) : ¬v.has k = true := by
  intro h'
  rw [has_eq, List.isPrefixOf_iff_prefix] at h h'
  obtain hpre | hpre := List.prefix_or_prefix_of_prefix h' h
  · exact hne (keys_apart hk hkey hpre)
  · exact hne (keys_apart hkey hk hpre).symm

theorem drop_memory {n : Nat} (h : n ≤ v.bytes.length) :
    v.memory.drop n = v.bytes.drop n ++ v.behind := by
  rw [IoVec.memory, List.drop_append, Nat.sub_eq_zero_of_le h]
  rfl

theorem copy_eq {n size : Nat} (h : n ≤ v.bytes.length) :
    v.copy n size = (v.bytes.drop n).take (size - 1) := by
  have hlen : (v.bytes.drop n).length = v.bytes.length - n := List.length_drop
  rw [IoVec.copy, drop_memory h]
  split
  · rw [List.take_append_of_le_length (by omega)]
  · rw [List.take_left' hlen, List.take_of_length_le (by omega)]

end

section
variable (f : Found) (v : IoVec)

theorem scanVector_prio : (scanVector f v).prio =
    if (str "PRIORITY=").isPrefixOf v.bytes then
      (priorityOf (v.bytes.drop 9 ++ v.behind)).getD f.prio
    else f.prio := by
  rw [← has_eq]
  by_cases h : v.has (str "PRIORITY=") = true
  · have hle : 9 ≤ v.bytes.length := length_le_of_has h
    rw [scanVector, if_pos h, if_pos h, drop_memory hle]
  · rw [scanVector, if_neg h, if_neg h]
    repeat' split
    all_goals rfl

theorem scanVector_msg : (scanVector f v).msg =
    if (str "MESSAGE=").isPrefixOf v.bytes then some (v.bytes.drop 8) else f.msg := by
  rw [← has_eq]
  by_cases h : v.has (str "MESSAGE=") = true
  · have hp := not_has (k := str "PRIORITY=") h (by decide) (by decide) (by decide)
    have hle : 8 ≤ v.bytes.length := length_le_of_has h
    rw [scanVector, if_neg hp, if_pos h, if_pos h, drop_memory hle]
    exact congrArg some (List.take_left' List.length_drop)
  · rw [scanVector, if_neg h, if_neg h]
    repeat' split
    all_goals rfl

theorem scanVector_file : (scanVector f v).file =
    if (str "CODE_FILE=").isPrefixOf v.bytes then (v.bytes.drop 10).take 63 else f.file := by
  rw [← has_eq]
  by_cases h : v.has (str "CODE_FILE=") = true
  · have hp := not_has (k := str "PRIORITY=") h (by decide) (by decide) (by decide)
    have hm := not_has (k := str "MESSAGE=") h (by decide) (by decide) (by decide)
    rw [scanVector, if_neg hp, if_neg hm, if_pos h, if_pos h]
    exact copy_eq (length_le_of_has h)
  · rw [scanVector, if_neg h, if_neg h]
    repeat' split
    all_goals rfl

theorem scanVector_line : (scanVector f v).line =
    if (str "CODE_LINE=").isPrefixOf v.bytes then (v.bytes.drop 10).take 23 else f.line := by
  rw [← has_eq]
  by_cases h : v.has (str "CODE_LINE=") = true
  · have hp := not_has (k := str "PRIORITY=") h (by decide) (by decide) (by decide)
    have hm := not_has (k := str "MESSAGE=") h (by decide) (by decide) (by decide)
    have hf := not_has (k := str "CODE_FILE=") h (by decide) (by decide) (by decide)
    rw [scanVector, if_neg hp, if_neg hm, if_neg hf, if_pos h, if_pos h]
    exact copy_eq (length_le_of_has h)
  · rw [scanVector, if_neg h, if_neg h]
    repeat' split
    all_goals rfl

theorem scanVector_func : (scanVector f v).func =
    if (str "CODE_FUNC=").isPrefixOf v.bytes then (v.bytes.drop 10).take 63 else f.func := by
  rw [← has_eq]
  by_cases h : v.has (str "CODE_FUNC=") = true
  · have hp := not_has (k := str "PRIORITY=") h (by decide) (by decide) (by decide)
    have hm := not_has (k := str "MESSAGE=") h (by decide) (by decide) (by decide)
    have hf := not_has (k := str "CODE_FILE=") h (by decide) (by decide) (by decide)
    have hl := not_has (k := str "CODE_LINE=") h (by decide) (by decide) (by decide)
    rw [scanVector, if_neg hp, if_neg hm, if_neg hf, if_neg hl, if_pos h, if_pos h]
    exact copy_eq (length_le_of_has h)
  · rw [scanVector, if_neg h, if_neg h]
    repeat' split
    all_goals rfl

end

theorem valuesOf_cons (key field : Str) (fields : List Str) :
    valuesOf key (field :: fields) =
      if key.isPrefixOf field then field.drop key.length :: valuesOf key fields
      else valuesOf key fields := by
  rw [valuesOf, List.filterMap_cons]
  split
  · next h =>
    split at h
    · exact absurd h nofun
    · next hkey => rw [if_neg hkey, valuesOf]
  · next h =>
    split at h
    · next hkey =>
      obtain rfl := Option.some.inj h
      rw [if_pos hkey, valuesOf]
    · exact absurd h nofun

theorem foldl_scanVector {α : Type} (part : Found → α) (key : Str) (value : Str → α)
    (hstep : ∀ f v, part (scanVector f v) =
      if key.isPrefixOf v.bytes then value (v.bytes.drop key.length) else part f) :
    ∀ (vs : List IoVec) (f : Found), part (vs.foldl scanVector f) =
      ((lastOf key (vs.map IoVec.bytes)).map value).getD (part f)
  | [], _ => rfl
  | v :: vs, f => by
    rw [List.foldl_cons, foldl_scanVector part key value hstep vs, hstep, lastOf, lastOf,
      List.map_cons, valuesOf_cons]
    split
    · rw [List.getLast?_cons]
      cases (valuesOf key (vs.map IoVec.bytes)).getLast? <;> rfl
    · rfl

theorem foldl_prio : ∀ (vs : List IoVec) (f : Found),
    (vs.foldl scanVector f).prio = (vs.filterMap IoVec.number).getLast?.getD f.prio := by
  intro vs
  induction vs with
  | nil => exact fun _ => rfl
  | cons v vs ih =>
    intro f
    rw [List.foldl_cons, ih, scanVector_prio]
    cases hv : v.number with
    | none =>
      rw [List.filterMap_cons_none hv]
      rw [IoVec.number] at hv
      split at hv
      · next hkey => rw [if_pos hkey, hv, Option.getD_none]
      · next hkey => rw [if_neg hkey]
    | some p =>
      rw [List.filterMap_cons_some hv, List.getLast?_cons]
      rw [IoVec.number] at hv
      split at hv
      · next hkey =>
        rw [if_pos hkey, hv]
        cases (vs.filterMap IoVec.number).getLast? <;> rfl
      · cases hv

theorem foldl_printVector : ∀ {vs : List IoVec}, (∀ v ∈ vs, v.Told) → ∀ text : Str,
    vs.foldl printVector (truncated text) =
      truncated (text ++ ((vs.map IoVec.bytes).filter isPrinted).flatMap fun f => str " | " ++ f)
  | [], _, text => by
    rw [List.map_nil, List.filter_nil, List.flatMap_nil, List.append_nil]
    rfl
  | v :: vs, h, text => by
    have htail := @foldl_printVector vs fun w hw => h w (List.mem_cons_of_mem _ hw)
    rw [List.foldl_cons, List.map_cons, printVector]
    by_cases hempty : v.bytes = []
    · rw [if_pos (by rw [hempty]; rfl), htail,
        List.filter_cons_of_neg (by simp [isPrinted, hempty])]
    · have htold := h v List.mem_cons_self hempty
      rw [if_neg fun h => hempty (List.length_eq_zero_iff.mp h), htold]
      cases hs : isSpecial v.bytes with
      | true => rw [if_pos rfl, htail, List.filter_cons_of_neg (by simp [isPrinted, hs])]
      | false =>
        rw [if_neg Bool.false_ne_true, bappendf_truncated, bappendRaw_truncated, htail,
          List.filter_cons_of_pos (by simp [isPrinted, hs, hempty]), List.flatMap_cons]
        simp only [List.append_assoc]

theorem cString_last (part : Found → Str) {key : Str} {n : Nat}
    (hstep : ∀ f v, part (scanVector f v) =
      if key.isPrefixOf v.bytes then (v.bytes.drop key.length).take n else part f)
    (hempty : part .empty = []) (vs : List IoVec) :
    cString (part (vs.foldl scanVector .empty)) = shortValue key n (vs.map IoVec.bytes) := by
  rw [foldl_scanVector part key (List.take n) hstep, hempty, shortValue]
  cases lastOf key (vs.map IoVec.bytes) with
  | none => exact congrArg cString List.take_nil.symm
  | some x => rfl

theorem ite_bappendf {p : Prop} [Decidable p] (text s : Str) :
    (if p then bappendf (truncated text) s else truncated text) =
      truncated (text ++ if p then s else []) := by
  split
  · rw [bappendf_truncated]
  · rw [List.append_nil]

theorem printFound_scan (vs : List IoVec) :
    printFound (vs.foldl scanVector .empty) =
      truncated (str "[" ++ prioTag ((vs.filterMap IoVec.number).getLast?.getD 6) ++ str "]" ++
        messageText (vs.map IoVec.bytes) ++ place (vs.map IoVec.bytes)) := by
  have hprio := foldl_prio vs .empty
  have hmsg := foldl_scanVector Found.msg (str "MESSAGE=") some scanVector_msg vs .empty
  rw [printFound, hprio, hmsg, bappendf_nil,
    cString_last Found.file scanVector_file rfl,
    cString_last Found.func scanVector_func rfl,
    cString_last Found.line scanVector_line rfl, messageText]
  cases lastOf (str "MESSAGE=") (vs.map IoVec.bytes) with
  | none =>
    rw [List.append_nil]
    exact ite_bappendf _ _
  | some msg =>
    simp only [Option.map_some, Option.getD_some]
    rw [bappendf_truncated, bappendRaw_truncated, List.append_assoc _ (str " ") msg]
    exact ite_bappendf _ _

def lastNumber (vs : List IoVec) : Nat := (vs.filterMap IoVec.number).getLast?.getD 6

theorem map_filterMap_fieldsOf (iov : List (Option IoVec)) :
    (fieldsOf iov).filterMap id = (iov.filterMap id).map IoVec.bytes := by
  rw [fieldsOf, List.filterMap_map, List.map_filterMap]
  rfl

theorem sendv_told {iov : List (Option IoVec)} (hne : iov ≠ [])
    (h : ∀ v, some v ∈ iov → v.Told) :
    sendv iov = some (cString (truncated (lineWith (lastNumber (iov.filterMap id))
      ((fieldsOf iov).filterMap id)))) := by
  have htold : ∀ v ∈ iov.filterMap id, v.Told := by
    intro v hv
    obtain ⟨w, hw, rfl⟩ := List.mem_filterMap.mp hv
    exact h v hw
  rw [sendv, if_neg hne, map_filterMap_fieldsOf]
  simp only
  rw [printFound_scan, foldl_printVector htold]
  rfl

/-! ## Keys and numbers that run on -/

theorem isSpecial_iff {field : Str} :
    isSpecial field = true ↔ ∃ key ∈ specialKeys, key <+: field := by
  simp only [isSpecial, List.any_eq_true, List.isPrefixOf_iff_prefix]

theorem skipped_iff {v : IoVec} : v.skipped = true ↔ ∃ key ∈ specialKeys, key <+: v.memory :=
  isSpecial_iff

theorem told_iff (field : Str) : (∀ behind, (IoVec.mk field behind).Told) ↔
    (field ≠ [] → ∀ key ∈ specialKeys, field <+: key → field = key) := by
  constructor
  · intro h hne key hkey hpre
    obtain ⟨behind, hbehind⟩ := hpre
    have htold := h behind hne
    have hskip : (IoVec.mk field behind).skipped = true :=
      skipped_iff.mpr ⟨key, hkey, hbehind ▸ List.prefix_refl _⟩
    obtain ⟨k, hk, hfield⟩ := isSpecial_iff.mp (htold.symm.trans hskip)
    have hkeys : k = key :=
      keys_apart hk hkey (hfield.trans (hbehind ▸ List.prefix_append _ _))
    exact List.IsPrefix.eq_of_length_le (hbehind ▸ List.prefix_append _ _)
      (hkeys ▸ hfield.length_le)
  · intro h behind hne
    rw [Bool.eq_iff_iff, skipped_iff, isSpecial_iff]
    constructor
    · rintro ⟨key, hkey, hpre⟩
      obtain hin | hin := List.prefix_or_prefix_of_prefix hpre (List.prefix_append field behind)
      · exact ⟨key, hkey, hin⟩
      · exact ⟨key, hkey, h hne key hkey hin ▸ List.prefix_refl _⟩
    · rintro ⟨key, hkey, hpre⟩
      exact ⟨key, hkey, hpre.trans (List.prefix_append _ _)⟩

def newest : List IoVec → Nat
  | [] => 6
  | v :: vs => v.number.getD (newest vs)

theorem newest_eq : ∀ vs : List IoVec, newest vs = (vs.filterMap IoVec.number).head?.getD 6
  | [] => rfl
  | v :: vs => by
    rw [newest, newest_eq vs]
    cases hv : v.number with
    | none => rw [List.filterMap_cons_none hv, Option.getD_none]
    | some p => rw [List.filterMap_cons_some hv, Option.getD_some, List.head?_cons, Option.getD_some]

theorem lastNumber_eq (vs : List IoVec) : lastNumber vs = newest vs.reverse := by
  rw [newest_eq, List.filterMap_reverse, List.head?_reverse, lastNumber]

theorem settled_iff {prio : Nat} : ∀ {fields : List Str},
    Settled prio fields ↔ ∀ vs : List IoVec, vs.map IoVec.bytes = fields → newest vs = prio
  | [] => by
    constructor
    · rintro h vs hvs
      obtain rfl := List.map_eq_nil_iff.mp hvs
      exact h.symm
    · exact fun h => (h [] rfl).symm
  | field :: fields => by
    constructor
    · intro h vs hvs
      obtain ⟨⟨bytes, behind⟩, vs, rfl, rfl, hvs'⟩ := List.map_eq_cons_iff.mp hvs
      rw [newest]
      obtain h | ⟨h, hbefore⟩ := h
      · rw [h behind, Option.getD_some]
      · have hrest := settled_iff.mp hbefore vs hvs'
        obtain hn | hn := h behind
        · rw [hn, Option.getD_none, hrest]
        · rw [hn, Option.getD_some]
    · intro h
      have hone : ∀ behind vs, vs.map IoVec.bytes = fields →
          (IoVec.mk field behind).number.getD (newest vs) = prio :=
        fun behind vs hvs => h (⟨field, behind⟩ :: vs) (by rw [List.map_cons, hvs])
      have hown : (fields.map fun f => IoVec.mk f []).map IoVec.bytes = fields := by
        rw [List.map_map]
        exact List.map_id _
      by_cases hnone : ∃ behind, (IoVec.mk field behind).number = none
      · obtain ⟨b, hb⟩ := hnone
        refine Or.inr ⟨fun behind => ?_, settled_iff.mpr fun vs hvs => ?_⟩
        · cases hn : (IoVec.mk field behind).number with
          | none => exact Or.inl rfl
          | some p =>
            have hp := hone behind _ hown
            rw [hn, Option.getD_some] at hp
            exact Or.inr (congrArg some hp)
        · have hvs' := hone b vs hvs
          rwa [hb, Option.getD_none] at hvs'
      · refine Or.inl fun behind => ?_
        cases hn : (IoVec.mk field behind).number with
        | none => exact absurd ⟨behind, hn⟩ hnone
        | some p =>
          have hp := hone behind _ hown
          rw [hn, Option.getD_some] at hp
          exact congrArg some hp

theorem lastNumber_own (fields : List Str) :
    lastNumber (fields.map fun f => IoVec.mk f []) = priority fields := by
  rw [lastNumber, priority, valuesOf, List.filterMap_filterMap, List.filterMap_map]
  congr 3
  funext field
  simp only [Function.comp_apply, IoVec.number, List.append_nil]
  split <;> rfl

theorem number_le {v : IoVec} {p : Nat} (h : v.number = some p) : p ≤ 7 := by
  rw [IoVec.number] at h
  split at h
  · rw [priorityOf] at h
    split at h
    · next hle => exact Option.some.inj h ▸ hle
    · cases h
  · cases h

theorem lastNumber_le (vs : List IoVec) : lastNumber vs ≤ 7 := by
  rw [lastNumber]
  cases h : (vs.filterMap IoVec.number).getLast? with
  | none => decide
  | some p =>
    obtain ⟨v, -, hv⟩ := List.mem_filterMap.mp (List.mem_of_getLast? h)
    exact number_le hv

/-! ## The line and its tag -/

theorem prioTag_spec : ∀ p < 8, (str "[" ++ prioTag p).length = 5 ∧
    (∀ c ∈ str "[" ++ prioTag p, decide (c ≠ 0) = true) ∧
      ∀ q < 8, str "[" ++ prioTag p = str "[" ++ prioTag q → p = q := by
  decide +kernel

theorem truncated_lineWith {p : Nat} (hp : p ≤ 7) (fields : List Str) :
    ∃ rest, truncated (lineWith p fields) = str "[" ++ prioTag p ++ rest := by
  have htag := (prioTag_spec p (Nat.lt_succ_of_le hp)).1
  rw [lineWith, List.append_assoc, List.append_assoc, List.append_assoc, truncated_append,
    truncated, List.take_of_length_le (by rw [htag]; decide)]
  exact ⟨_, rfl⟩

theorem prio_of_line {fields : List Str} {p q : Nat} (hp : p ≤ 7) (hq : q ≤ 7)
    (h : cString (truncated (lineWith p fields)) = truncated (lineWith q fields)) : p = q := by
  obtain ⟨hlen, hclean, htags⟩ := prioTag_spec p (Nat.lt_succ_of_le hp)
  have hlen' := (prioTag_spec q (Nat.lt_succ_of_le hq)).1
  obtain ⟨rest, hrest⟩ := truncated_lineWith hp fields
  obtain ⟨rest', hrest'⟩ := truncated_lineWith hq fields
  rw [hrest, hrest', cString, List.takeWhile_append_of_pos hclean] at h
  exact htags q (Nat.lt_succ_of_le hq) (List.append_inj_left h (hlen.trans hlen'.symm))

theorem not_mem_of_cString {s : Str} (h : cString s = s) : (0 : UInt8) ∉ s := by
  rw [← h]
  exact fun h0 => absurd (List.mem_takeWhile_imp h0) (by decide)

theorem exists_iov : ∀ (fields : List (Option Str)) (vs : List IoVec),
    vs.map IoVec.bytes = fields.filterMap id →
      ∃ iov, fieldsOf iov = fields ∧ iov.filterMap id = vs
  | [], vs, h => by
    obtain rfl := List.map_eq_nil_iff.mp h
    exact ⟨[], rfl, rfl⟩
  | none :: fields, vs, h => by
    obtain ⟨iov, hiov, hvs⟩ := exists_iov fields vs h
    exact ⟨none :: iov, congrArg (none :: ·) hiov, hvs⟩
  | some field :: fields, vs, h => by
    obtain ⟨v, vs, rfl, hv, htail⟩ := List.map_eq_cons_iff.mp h
    obtain ⟨iov, hiov, hvs⟩ := exists_iov fields vs htail
    refine ⟨some v :: iov, ?_, congrArg (v :: ·) hvs⟩
    rw [fieldsOf, List.map_cons, Option.map_some, hv]
    exact congrArg (some field :: ·) hiov

theorem line_of_endsInside {iov : List (Option IoVec)}
    (h : EndsInside ((fieldsOf iov).filterMap id)) :
    (∀ v, some v ∈ iov → v.Told) ∧ sendv iov = fieldsLine (fieldsOf iov) := by
  have htold : ∀ v, some v ∈ iov → v.Told := by
    intro v hv
    have hmem : v.bytes ∈ (fieldsOf iov).filterMap id := by
      rw [map_filterMap_fieldsOf]
      exact List.mem_map_of_mem (List.mem_filterMap.mpr ⟨some v, hv, rfl⟩)
    exact (told_iff v.bytes).mpr (h.keys v.bytes hmem) v.behind
  refine ⟨htold, ?_⟩
  by_cases hne : iov = []
  · rw [hne]
    rfl
  · have hprio : lastNumber (iov.filterMap id) = priority ((fieldsOf iov).filterMap id) := by
      rw [lastNumber_eq]
      refine settled_iff.mp h.numbers _ ?_
      rw [List.map_reverse, map_filterMap_fieldsOf]
    have hfields : fieldsOf iov ≠ [] := fun h => hne (List.map_eq_nil_iff.mp h)
    rw [sendv_told hne htold, fieldsLine, if_neg hfields, hprio]
    exact congrArg some (cString_of_clean h.clean)

section
variable {fields : List (Option Str)} (h : DependsOnFields fields)
include h

theorem DependsOnFields.keys {field : Str} (hmem : field ∈ fields.filterMap id) :
    field ≠ [] → ∀ key ∈ specialKeys, field <+: key → field = key := by
  rw [← told_iff]
  intro behind
  obtain ⟨iov, hiov, hvs⟩ := exists_iov fields
    ((fields.filterMap id).map fun f => IoVec.mk f behind)
    (by rw [List.map_map]; exact List.map_id _)
  refine h.told iov hiov _ ?_
  have hv : IoVec.mk field behind ∈ iov.filterMap id :=
    hvs ▸ List.mem_map_of_mem (f := fun f => IoVec.mk f behind) hmem
  obtain ⟨w, hw, rfl⟩ := List.mem_filterMap.mp hv
  exact hw

theorem DependsOnFields.line_with (hne : fields ≠ []) (vs : List IoVec)
    (hvs : vs.map IoVec.bytes = fields.filterMap id) :
    cString (truncated (lineWith (lastNumber vs) (fields.filterMap id))) =
      truncated (lineText (fields.filterMap id)) := by
  obtain ⟨iov, hiov, rfl⟩ := exists_iov fields vs hvs
  have hiovne : iov ≠ [] := by
    rintro rfl
    exact hne hiov.symm
  have hline := h.line iov hiov
  rw [sendv_told hiovne (h.told iov hiov), hiov, fieldsLine, if_neg hne] at hline
  exact Option.some.inj hline

theorem DependsOnFields.endsInside : EndsInside (fields.filterMap id) := by
  by_cases hne : fields = []
  · subst hne
    exact ⟨nofun, rfl, by decide⟩
  · refine ⟨fun field hmem => h.keys hmem, ?_, ?_⟩
    · rw [settled_iff]
      intro vs hvs
      have hrev : vs.reverse.map IoVec.bytes = fields.filterMap id := by
        rw [List.map_reverse, hvs, List.reverse_reverse]
      have hprio := prio_of_line (lastNumber_le _) (lastNumber_own _ ▸ lastNumber_le _)
        (h.line_with hne _ hrev)
      rwa [lastNumber_eq, List.reverse_reverse] at hprio
    · have hown : ((fields.filterMap id).map fun f => IoVec.mk f []).map IoVec.bytes =
          fields.filterMap id := by
        rw [List.map_map]
        exact List.map_id _
      have hline := h.line_with hne _ hown
      rw [lastNumber_own] at hline
      exact not_mem_of_cString hline

end

/-- The output depends only on the fields exactly where each of them ends inside its bytes. -/
theorem dependsOnFields_iff (fields : List (Option Str)) :
    DependsOnFields fields ↔ EndsInside (fields.filterMap id) := by
  constructor
  · exact fun h => h.endsInside
  · intro h
    have hline : ∀ iov, fieldsOf iov = fields → sendv iov = fieldsLine fields := by
      rintro iov rfl
      exact (line_of_endsInside h).2
    refine ⟨fun iov iov' hiov hiov' => ?_, ?_, hline⟩
    · rw [hline iov hiov, hline iov' hiov']
    · rintro iov rfl
      exact (line_of_endsInside h).1

/-- A field "P" in front of "RIORITY=", a number that runs on, and a NUL in a value. -/
theorem not_dependsOnFields :
    ¬DependsOnFields [some (str "P")] ∧ ¬DependsOnFields [some (str "PRIORITY=3")] ∧
      ¬DependsOnFields [some (str "A=" ++ [0] ++ str "B")] := by
  refine ⟨fun h => ?_, fun h => ?_, fun h => ?_⟩
  · have hsame := h.same [some ⟨str "P", []⟩] [some ⟨str "P", str "RIORITY="⟩] rfl rfl
    exact absurd hsame (by decide +kernel)
  · have hsame := h.same [some ⟨str "PRIORITY=3", []⟩] [some ⟨str "PRIORITY=3", str "1"⟩] rfl rfl
    exact absurd hsame (by decide +kernel)
  · have hline := h.line [some ⟨str "A=" ++ [0] ++ str "B", []⟩] rfl
    exact absurd hline (by decide +kernel)

end Basu.Journal
