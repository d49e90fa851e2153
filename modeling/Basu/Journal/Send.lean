import Basu.Journal.Format
import Basu.Journal.Line
import Basu.Journal.Substitute

/-! The walk of `basu_journal_run_send_fields` over the fields of an entry and their arguments. -/

namespace Basu.Journal
open Lib

structure Collected where
  prio : Nat
  msg : Str
  kvs : List JournalKv

def Collected.empty : Collected where
  prio := 6
  msg := []
  kvs := []

def setPriority (prio : Nat) (val : Str) : Nat :=
  match strtol val with
  | some v => if 0 ≤ v ∧ v ≤ 7 then v.toNat else prio
  | none => prio

/-- The value of a field goes into the 192 bytes of the table; without `=` there is none. -/
def renderValue (libc : Libc) (fmt : Str) (args : List Arg) : Except Fault (Str × List Arg) :=
  if charEquals ∈ fmt then
    renderFormat libc 192 ((fmt.dropWhile fun c => c ≠ charEquals).drop 1) args
  else .ok ([], args)

theorem not_mem_takeWhile {p : UInt8 → Bool} {s : Str} {c : UInt8} {n : Nat} (h : c ∉ s) :
    c ∉ (s.takeWhile p).take n :=
  fun hc => h ((List.takeWhile_sublist p).subset ((List.take_sublist n _).subset hc))

theorem zero_not_mem_cString (s : Str) : (0 : UInt8) ∉ cString s :=
  fun h => absurd (List.mem_takeWhile_imp h) (by decide)

theorem length_take_key (s : Str) :
    (((cString s).takeWhile fun c => c ≠ charEquals).take 39).length < 40 := by
  rw [List.length_take]
  omega

def storeField (libc : Libc) (fmt : Str) (args : List Arg) :
    Except Fault (JournalKv × List Arg) :=
  match renderValue libc fmt args with
  | .error e => .error e
  | .ok (val, args) =>
    if h : (cString val).length < 192 then
      .ok ({ key := ((cString fmt).takeWhile fun c => c ≠ charEquals).take 39
             val := cString val
             key_fits := length_take_key fmt
             val_fits := h
             key_clean := not_mem_takeWhile (zero_not_mem_cString fmt)
             val_clean := zero_not_mem_cString val }, args)
    else .error .overflow

def sendField (libc : Libc) (c : Collected) (fmt : Str) (args : List Arg) :
    Except Fault (Collected × List Arg) :=
  if (str "MESSAGE=").isPrefixOf fmt then
    match renderFormat libc 256 (fmt.drop 8) args with
    | .error e => .error e
    | .ok (val, args) => .ok ({ c with msg := (cString val).take 767 }, args)
  else if (str "PRIORITY=").isPrefixOf fmt then
    match renderFormat libc 256 (fmt.drop 9) args with
    | .error e => .error e
    | .ok (val, args) => .ok ({ c with prio := setPriority c.prio (cString val) }, args)
  else if c.kvs.length < 16 then
    match storeField libc fmt args with
    | .error e => .error e
    | .ok (kv, args) => .ok ({ c with kvs := c.kvs ++ [kv] }, args)
  -- a full table: the field is passed over, its arguments are not
  else .ok (c, args)

structure Walk where
  collected : Collected
  fmt : Option Str
  args : List Arg

def nextField (c : Collected) (args : List Arg) : Except Fault Walk :=
  match vaArg .pointer args with
  | .error e => .error e
  | .ok (.pointer s, args) => .ok { collected := c, fmt := s.map cString, args := args }
  | .ok _ => .error .wrongArgument

def Walk.step (libc : Libc) (w : Walk) : Except Fault Walk :=
  match w.fmt with
  | none => .ok w
  | some fmt =>
    match sendField libc w.collected fmt w.args with
    | .error e => .error e
    | .ok (c, args) => nextField c args

def walkLoop (libc : Libc) : Nat → Walk → Except Fault Collected
  | 0, _ => .error .endless
  | fuel + 1, w =>
    if w.fmt = none then .ok w.collected
    else
      match w.step libc with
      | .error e => .error e
      | .ok w => walkLoop libc fuel w

/-- All that is collected from `first` and the arguments; each turn takes one at least. -/
def collect (libc : Libc) (first : Option Str) (args : List Arg) : Except Fault Collected :=
  walkLoop libc (args.length + 1) { collected := .empty, fmt := first.map cString, args := args }

structure Field where
  key : Str
  format : Format
  args : List Arg
  key_plain : ∀ c ∈ key, c ≠ charEquals ∧ c ≠ 0
  args_match : args.map Arg.type = format.types

def Field.text (f : Field) : Str := f.key ++ charEquals :: f.format.print

def Field.ordinary (f : Field) : Bool := f.key ≠ str "MESSAGE" ∧ f.key ≠ str "PRIORITY"

def passed : List Field → Option Str × List Arg
  | [] => (none, [])
  | f :: fields => (some f.text, f.args ++ .pointer (passed fields).1 :: (passed fields).2)

def Walk.at (c : Collected) (fields : List Field) : Walk where
  collected := c
  fmt := (passed fields).1
  args := (passed fields).2

def Walk.after (libc : Libc) : Nat → Walk → Except Fault Walk
  | 0, w => .ok w
  | n + 1, w =>
    match w.step libc with
    | .error e => .error e
    | .ok w => w.after libc n

/-- Each turn takes the arguments of its field, so that the walk comes to every field and returns;
nothing that the language leaves undefined is done. -/
def Aligned (libc : Libc) (fields : List Field) : Prop :=
  (∀ i ≤ fields.length, ∃ c, (Walk.at .empty fields).after libc i = .ok (.at c (fields.drop i))) ∧
    ∃ c, collect libc (passed fields).1 (passed fields).2 = .ok c

/-- Behind `n` ordinary fields: one that finds the table full has no arguments, the format of any
other one does not end with a `%`. -/
def Field.Stays (n : Nat) (f : Field) : Prop :=
  if f.ordinary ∧ 16 ≤ n then f.format.types = [] else f.format.percentEnd = false

instance (n : Nat) (f : Field) : Decidable (f.Stays n) :=
  inferInstanceAs (Decidable (if f.ordinary ∧ 16 ≤ n then _ else _))

def Stay : Nat → List Field → Prop
  | _, [] => True
  | n, f :: fields => f.Stays n ∧ Stay (n + f.ordinary.toNat) fields

instance Stay.decidable : ∀ (n : Nat) (fields : List Field), Decidable (Stay n fields)
  | _, [] => instDecidableTrue
  | n, f :: fields =>
    have := Stay.decidable (n + f.ordinary.toNat) fields
    inferInstanceAs (Decidable (f.Stays n ∧ Stay (n + f.ordinary.toNat) fields))

theorem isPrefixOf_key {k key rest : Str} (hk : charEquals ∉ k) (hkey : charEquals ∉ key) :
    (k ++ [charEquals]).isPrefixOf (key ++ charEquals :: rest) = true ↔ key = k := by
  rw [List.isPrefixOf_iff_prefix]
  constructor
  · rintro ⟨t, ht⟩
    rw [List.append_assoc, List.singleton_append] at ht
    have hkeys := congrArg (List.takeWhile fun c => c ≠ charEquals) ht
    have htake : ∀ {x y : Str}, charEquals ∉ x →
        (x ++ charEquals :: y).takeWhile (fun c => c ≠ charEquals) = x := by
      intro x y hx
      have hne : ∀ c ∈ x, decide (c ≠ charEquals) = true :=
        fun c hc => decide_eq_true fun h => hx (h ▸ hc)
      rw [List.takeWhile_append_of_pos hne, List.takeWhile_cons_of_neg (by simp), List.append_nil]
    rw [htake hk, htake hkey] at hkeys
    exact hkeys.symm
  · rintro rfl
    exact ⟨rest, by rw [List.append_assoc, List.singleton_append]⟩

section
variable {libc : Libc} {f : Field}

theorem Field.equals_not_mem (f : Field) : charEquals ∉ f.key := fun h => (f.key_plain _ h).1 rfl

theorem Field.cString_text (f : Field) : cString f.text = f.text := by
  refine cString_of_clean fun h => ?_
  obtain h | h := List.mem_append.mp h
  · exact (f.key_plain 0 h).2 rfl
  · obtain h | h := List.mem_cons.mp h
    · exact absurd h (by decide)
    · exact Format.clean h rfl

theorem Field.message_iff (f : Field) :
    (str "MESSAGE=").isPrefixOf f.text = true ↔ f.key = str "MESSAGE" :=
  isPrefixOf_key (k := str "MESSAGE") (by decide) f.equals_not_mem

theorem Field.priority_iff (f : Field) :
    (str "PRIORITY=").isPrefixOf f.text = true ↔ f.key = str "PRIORITY" :=
  isPrefixOf_key (k := str "PRIORITY") (by decide) f.equals_not_mem

theorem Field.drop_text (f : Field) : f.text.drop (f.key.length + 1) = f.format.print := by
  rw [text, List.drop_append, List.drop_of_length_le (by omega), Nat.add_sub_cancel_left]
  rfl

theorem renderValue_text (args : List Arg) :
    renderValue libc f.text args = renderFormat libc 192 f.format.print args := by
  have hmem : charEquals ∈ f.text := List.mem_append_right _ List.mem_cons_self
  have hdrop : f.text.dropWhile (fun c => c ≠ charEquals) = charEquals :: f.format.print := by
    rw [Field.text, List.dropWhile_append_of_pos fun c hc => decide_eq_true (f.key_plain c hc).1,
      List.dropWhile_cons_of_neg (by simp)]
  rw [renderValue, if_pos hmem, hdrop, List.drop_one, List.tail_cons]

theorem renderFormat_args (libc : Libc) (args : List Arg) {bufSz : Nat} (hpos : 0 < bufSz)
    (hsz : bufSz ≤ 2 ^ 64) (hend : f.format.percentEnd = false) :
    ∃ val, renderFormat libc bufSz f.format.print (f.args ++ args) = .ok (val, args) ∧
      val.length < bufSz :=
  renderFormat_print hpos hsz hend f.args_match

theorem storeField_text (args : List Arg) (hend : f.format.percentEnd = false) :
    ∃ kv, storeField libc f.text (f.args ++ args) = .ok (kv, args) := by
  obtain ⟨val, hval, hfits⟩ :=
    renderFormat_args libc args (show 0 < 192 by decide) (by decide) hend
  have hlt : (cString val).length < 192 :=
    lt_of_le_of_lt (List.takeWhile_sublist _).length_le hfits
  rw [storeField, renderValue_text, hval]
  simp only
  rw [dif_pos hlt]
  exact ⟨_, rfl⟩

theorem storeField_percent (args : List Arg) (hend : f.format.percentEnd = true) :
    storeField libc f.text (f.args ++ args) = .error .pastNul := by
  rw [storeField, renderValue_text,
    renderFormat_percent (by decide) (by decide) hend f.args_match]

theorem Field.kinds (f : Field) :
    f.key = str "MESSAGE" ∨ f.key = str "PRIORITY" ∨ f.ordinary = true := by
  by_cases hm : f.key = str "MESSAGE"
  · exact Or.inl hm
  · by_cases hp : f.key = str "PRIORITY"
    · exact Or.inr (Or.inl hp)
    · exact Or.inr (Or.inr (decide_eq_true ⟨hm, hp⟩))

variable {c : Collected} {n : Nat}

theorem sendField_message (h : f.key = str "MESSAGE") (args : List Arg) :
    sendField libc c f.text args =
      match renderFormat libc 256 f.format.print args with
      | .error e => .error e
      | .ok (val, args) => .ok ({ c with msg := (cString val).take 767 }, args) := by
  have hdrop := f.drop_text
  rw [h] at hdrop
  rw [sendField, if_pos (f.message_iff.mpr h), ← hdrop]
  rfl

theorem sendField_priority (h : f.key = str "PRIORITY") (args : List Arg) :
    sendField libc c f.text args =
      match renderFormat libc 256 f.format.print args with
      | .error e => .error e
      | .ok (val, args) => .ok ({ c with prio := setPriority c.prio (cString val) }, args) := by
  have hdrop := f.drop_text
  rw [h] at hdrop
  have hm : ¬(str "MESSAGE=").isPrefixOf f.text = true := by
    rw [f.message_iff, h]
    decide
  rw [sendField, if_neg hm, if_pos (f.priority_iff.mpr h), ← hdrop]
  rfl

theorem sendField_ordinary (h : f.ordinary = true) (args : List Arg) :
    sendField libc c f.text args =
      if c.kvs.length < 16 then
        match storeField libc f.text args with
        | .error e => .error e
        | .ok (kv, args) => .ok ({ c with kvs := c.kvs ++ [kv] }, args)
      else .ok (c, args) := by
  obtain ⟨hm, hp⟩ := of_decide_eq_true h
  rw [sendField, if_neg fun h => hm (f.message_iff.mp h), if_neg fun h => hp (f.priority_iff.mp h)]

theorem ordinary_of_message (h : f.key = str "MESSAGE") : f.ordinary = false :=
  decide_eq_false fun ho => ho.1 h

theorem ordinary_of_priority (h : f.key = str "PRIORITY") : f.ordinary = false :=
  decide_eq_false fun ho => ho.2 h

theorem sendField_stays (hn : c.kvs.length = min 16 n) (h : f.Stays n) (args : List Arg) :
    ∃ c', sendField libc c f.text (f.args ++ args) = .ok (c', args) ∧
      c'.kvs.length = min 16 (n + f.ordinary.toNat) := by
  rw [Field.Stays] at h
  obtain hm | hp | ho := f.kinds
  · rw [ordinary_of_message hm] at h ⊢
    rw [if_neg fun h => Bool.false_ne_true h.1] at h
    obtain ⟨val, hval, -⟩ :=
      renderFormat_args libc args (show 0 < 256 by decide) (by decide) h
    rw [sendField_message hm, hval]
    exact ⟨_, rfl, hn⟩
  · rw [ordinary_of_priority hp] at h ⊢
    rw [if_neg fun h => Bool.false_ne_true h.1] at h
    obtain ⟨val, hval, -⟩ :=
      renderFormat_args libc args (show 0 < 256 by decide) (by decide) h
    rw [sendField_priority hp, hval]
    exact ⟨_, rfl, hn⟩
  · rw [ho, Bool.toNat_true]
    rw [sendField_ordinary ho]
    by_cases hfull : 16 ≤ n
    · rw [if_pos ⟨ho, hfull⟩] at h
      rw [if_neg (by omega), List.map_eq_nil_iff.mp (f.args_match.trans h)]
      exact ⟨c, rfl, by omega⟩
    · rw [if_neg fun h => hfull h.2] at h
      obtain ⟨kv, hkv⟩ := @storeField_text libc f args h
      rw [if_pos (by omega), hkv]
      refine ⟨_, rfl, ?_⟩
      rw [List.length_append, List.length_singleton]
      omega

theorem sendField_strays (hn : c.kvs.length = min 16 n) (h : ¬f.Stays n) (args : List Arg) :
    sendField libc c f.text (f.args ++ args) = .error .pastNul ∨
      f.args ≠ [] ∧ sendField libc c f.text (f.args ++ args) = .ok (c, f.args ++ args) := by
  rw [Field.Stays] at h
  obtain hm | hp | ho := f.kinds
  · rw [ordinary_of_message hm, if_neg fun h => Bool.false_ne_true h.1] at h
    rw [sendField_message hm, renderFormat_percent (by decide) (by decide)
      (Bool.eq_true_of_not_eq_false h) f.args_match]
    exact Or.inl rfl
  · rw [ordinary_of_priority hp, if_neg fun h => Bool.false_ne_true h.1] at h
    rw [sendField_priority hp, renderFormat_percent (by decide) (by decide)
      (Bool.eq_true_of_not_eq_false h) f.args_match]
    exact Or.inl rfl
  · rw [sendField_ordinary ho]
    by_cases hfull : 16 ≤ n
    · rw [if_pos ⟨ho, hfull⟩] at h
      rw [if_neg (by omega)]
      refine Or.inr ⟨fun hnil => h ?_, rfl⟩
      rw [← f.args_match, hnil, List.map_nil]
    · rw [if_neg fun h => hfull h.2] at h
      rw [if_pos (by omega), storeField_percent args (Bool.eq_true_of_not_eq_false h)]
      exact Or.inl rfl

theorem nextField_passed (c : Collected) (fields : List Field) :
    nextField c (.pointer (passed fields).1 :: (passed fields).2) = .ok (.at c fields) := by
  have hclean : (passed fields).1.map cString = (passed fields).1 := by
    cases fields with
    | nil => rfl
    | cons f fields => exact congrArg some f.cString_text
  rw [nextField, vaArg, if_pos (show Arg.type (.pointer _) = .pointer from rfl)]
  simp only
  rw [hclean]
  rfl

theorem step_at (c : Collected) (f : Field) (fields : List Field) :
    (Walk.at c (f :: fields)).step libc =
      match sendField libc c f.text
        (f.args ++ .pointer (passed fields).1 :: (passed fields).2) with
      | .error e => .error e
      | .ok (c, args) => nextField c args := rfl

theorem step_stays (hn : c.kvs.length = min 16 n) (h : f.Stays n) (fields : List Field) :
    ∃ c', (Walk.at c (f :: fields)).step libc = .ok (.at c' fields) ∧
      c'.kvs.length = min 16 (n + f.ordinary.toNat) := by
  obtain ⟨c', hsend, hn'⟩ := @sendField_stays libc f c n hn h
    (.pointer (passed fields).1 :: (passed fields).2)
  refine ⟨c', ?_, hn'⟩
  rw [step_at, hsend]
  exact nextField_passed c' fields

theorem step_strays (hn : c.kvs.length = min 16 n) (h : ¬f.Stays n) (fields : List Field)
    (c' : Collected) : (Walk.at c (f :: fields)).step libc ≠ .ok (.at c' fields) := by
  rw [step_at]
  obtain hfault | ⟨hargs, hsend⟩ := @sendField_strays libc f c n hn h
    (.pointer (passed fields).1 :: (passed fields).2)
  · rw [hfault]
    intro hnext
    cases hnext
  · rw [hsend]
    obtain ⟨a, as, has⟩ := List.exists_cons_of_ne_nil hargs
    rw [has]
    intro hnext
    change nextField c (a :: (as ++ _)) = _ at hnext
    rw [nextField, vaArg] at hnext
    split at hnext
    · cases hnext
    · next hv =>
      split at hv
      · obtain ⟨-, rfl⟩ := Prod.mk.inj (Except.ok.inj hv)
        have hlen := congrArg (fun w => w.args.length) (Except.ok.inj hnext)
        change (as ++ _).length = (passed fields).2.length at hlen
        rw [List.length_append, List.length_cons] at hlen
        omega
      · cases hv
    · cases hnext

theorem after_iff {fields : List Field} : ∀ {c : Collected} {n : Nat},
    c.kvs.length = min 16 n →
      ((∀ i ≤ fields.length, ∃ c', (Walk.at c fields).after libc i =
        .ok (.at c' (fields.drop i))) ↔ Stay n fields) := by
  induction fields with
  | nil =>
    intro c n _
    refine ⟨fun _ => trivial, fun _ i hi => ⟨c, ?_⟩⟩
    obtain rfl := Nat.le_zero.mp hi
    rfl
  | cons f fields ih =>
    intro c n hn
    by_cases hf : f.Stays n
    · obtain ⟨c₁, hstep, hn₁⟩ := @step_stays libc f c n hn hf fields
      rw [Stay, ← ih hn₁]
      constructor
      · intro h
        refine ⟨hf, fun i hi => ?_⟩
        obtain ⟨c', hc'⟩ := h (i + 1) (Nat.succ_le_succ hi)
        rw [Walk.after, hstep] at hc'
        exact ⟨c', hc'⟩
      · rintro ⟨-, h⟩ i hi
        cases i with
        | zero => exact ⟨c, rfl⟩
        | succ i =>
          obtain ⟨c', hc'⟩ := h i (Nat.le_of_succ_le_succ hi)
          refine ⟨c', ?_⟩
          rw [Walk.after, hstep]
          exact hc'
    · refine ⟨fun h => ?_, fun h => absurd h.1 hf⟩
      obtain ⟨c', hc'⟩ := h 1 (Nat.succ_le_succ (Nat.zero_le _))
      rw [Walk.after] at hc'
      split at hc'
      · exact absurd hc' nofun
      · next w hw =>
        obtain rfl := Except.ok.inj hc'
        exact absurd hw (step_strays hn hf fields c')

theorem after_of_none {w : Walk} (h : w.fmt = none) : ∀ i, w.after libc i = .ok w
  | 0 => rfl
  | i + 1 => by
    have hstep : w.step libc = .ok w := by rw [Walk.step, h]
    rw [Walk.after, hstep]
    exact after_of_none h i

theorem walkLoop_of_after {w' : Walk} (hend : w'.fmt = none) : ∀ {i fuel : Nat} {w : Walk},
    i < fuel → w.after libc i = .ok w' → walkLoop libc fuel w = .ok w'.collected
  | 0, fuel + 1, w, _, h => by
    obtain rfl := Except.ok.inj h
    rw [walkLoop, if_pos hend]
  | i + 1, fuel + 1, w, hfuel, h => by
    rw [walkLoop]
    by_cases hw : w.fmt = none
    · rw [after_of_none hw] at h
      obtain rfl := Except.ok.inj h
      rw [if_pos hw]
    · rw [if_neg hw]
      rw [Walk.after] at h
      cases hstep : w.step libc with
      | error e =>
        rw [hstep] at h
        exact absurd h nofun
      | ok v =>
        rw [hstep] at h
        exact walkLoop_of_after hend (Nat.lt_of_succ_lt_succ hfuel) h

theorem length_le_passed : ∀ fields : List Field, fields.length ≤ (passed fields).2.length
  | [] => Nat.le_refl 0
  | f :: fields => by
    have hle := length_le_passed fields
    rw [passed, List.length_append, List.length_cons, List.length_cons]
    omega

theorem collect_of_after {fields : List Field} {c : Collected}
    (h : (Walk.at .empty fields).after libc fields.length = .ok (.at c [])) :
    collect libc (passed fields).1 (passed fields).2 = .ok c := by
  have hclean : (passed fields).1.map cString = (passed fields).1 := by
    cases fields with
    | nil => rfl
    | cons f fields => exact congrArg some f.cString_text
  rw [collect, hclean]
  exact @walkLoop_of_after libc (.at c []) rfl _ _ _ (Nat.lt_succ_of_le (length_le_passed fields)) h

end

/-- The walk keeps to its arguments exactly where no format that is rendered ends with a `%` and no
field that finds the table full has arguments. -/
theorem aligned_iff_stay (libc : Libc) (fields : List Field) :
    Aligned libc fields ↔ Stay 0 fields := by
  have hiff := @after_iff libc fields .empty 0 rfl
  constructor
  · exact fun h => hiff.mp h.1
  · intro h
    have hafter := hiff.mpr h
    obtain ⟨c, hc⟩ := hafter fields.length (Nat.le_refl _)
    rw [List.drop_length] at hc
    exact ⟨hafter, c, collect_of_after hc⟩

def percentField : Field where
  key := str "MESSAGE"
  format :=
    { pieces := [.char 49 (by decide), .char 48 (by decide), .char 48 (by decide)]
      percentEnd := true }
  args := []
  key_plain := by decide +kernel
  args_match := rfl

def numberField : Field where
  key := str "N"
  format :=
    { pieces := [.conversion
        { flags := [], width := .absent, precision := none, length := .none, conv := .d }]
      percentEnd := false }
  args := [.int 1]
  key_plain := by decide +kernel
  args_match := rfl

theorem not_aligned :
    ¬Aligned ⟨fun _ _ => [], fun _ => []⟩ [percentField] ∧
      ¬Aligned ⟨fun _ _ => [], fun _ => []⟩ (List.replicate 17 numberField) := by
  constructor
  · rintro ⟨h, -⟩
    exact absurd ((after_iff (n := 0) rfl).mp h) (by decide +kernel)
  · rintro ⟨h, -⟩
    exact absurd ((after_iff (n := 0) rfl).mp h) (by decide +kernel)

end Basu.Journal
