import Basu.Journal.Send
import Basu.Lib.Ring

/-! The table of transactions: what `sd_journal_send` captures, and what
`basu_journal_get_transaction_fields` recovers. -/

namespace Basu.Journal
open Lib

def txidOf (kvs : List JournalKv) : Option Str :=
  (kvs.find? fun kv => kv.key = str "TRANSACTION_ID").map JournalKv.val

structure TxRec where
  txid : Str
  kv : List JournalKv

def TxRec.zero : TxRec where
  txid := []
  kv := []

structure TxTable where
  slots : List TxRec
  next : Nat
  length_slots : slots.length = 8
  next_lt : next < 8

def TxTable.zero : TxTable where
  slots := List.replicate 8 .zero
  next := 0
  length_slots := List.length_replicate
  next_lt := by decide

def txCapture (kvs : List JournalKv) (t : TxTable) : TxTable :=
  match txidOf kvs with
  | none => t
  | some txid =>
    if txid = [] then t
    else
      { slots := t.slots.set t.next { txid := txid.take 31, kv := kvs.take 16 }
        next := (t.next + 1) % 8
        length_slots := List.length_set.trans t.length_slots
        next_lt := Nat.mod_lt _ (by decide) }

inductive TxErrno
  | einval | enoent
  deriving DecidableEq

def JournalKv.line (kv : JournalKv) : Str := kv.key ++ charEquals :: kv.val ++ [10]

/-- The loop over the fields; each `snprintf` writes what fits and a NUL. -/
def writeFields : List JournalKv → Nat → Str → Str
  | [], _, buf => buf
  | kv :: kvs, off, buf =>
    let written := patch buf off (kv.line.take (buf.length - off - 1) ++ [0])
    if buf.length ≤ off + kv.line.length then written
    else writeFields kvs (off + kv.line.length) written

def lookUp (t : TxTable) (txid : Str) : Option TxRec :=
  t.slots.find? fun r => r.kv ≠ [] ∧ r.txid = txid

def getTransactionFields (t : TxTable) : Option Str → Option Str → Except TxErrno Str
  | some txid, some buf =>
    if buf.length = 0 then .error .einval
    else
      match lookUp t txid with
      | none => .error .enoent
      | some r => .ok (patch (writeFields r.kv 0 buf) (buf.length - 1) [0])
  | _, _ => .error .einval

/-! ## `sd_journal_send` -/

/-- The loop of `collapse_nl`: what has been written, and how much of it does not end in spaces. -/
def collapseLoop : Str → Str → Nat → Str
  | [], w, last => w.take last
  | c :: r, w, last =>
    let c := if c = 10 ∨ c = 13 then 32 else c
    collapseLoop r (w ++ [c]) (if c ≠ 32 then w.length + 1 else last)

def collapseNl (s : Str) : Str := collapseLoop s [] 0

structure JournalState where
  table : TxTable
  sub : Str

def JournalState.zero : JournalState where
  table := .zero
  sub := List.replicate 1024 0

structure Call where
  first : Option Str
  args : List Arg

/-- The message with the placeholders replaced, and the buffer; a fault where the copies leave their
memory. -/
def substituteMessage (c : Collected) (sub : Str) : Except Fault (Str × Str) :=
  if c.kvs = [] then .ok (c.msg, sub)
  else
    match substituteFields (some c.msg) c.kvs sub with
    | none => .error .overflow
    | some sub => .ok ((cString sub).take 767, sub)

def runSendFields (libc : Libc) (j : JournalState) (call : Call) :
    Except Fault (JournalState × Str) :=
  match collect libc call.first call.args with
  | .error e => .error e
  | .ok c =>
    let table := txCapture c.kvs j.table
    match substituteMessage c j.sub with
    | .error e => .error e
    | .ok (msg, sub) =>
      let msg := collapseNl msg
      let line := c.kvs.foldl
        (fun buf kv => bappendf buf (str " | " ++ kv.key ++ charEquals :: kv.val)) []
      let tag := str "[" ++ prioTag c.prio ++ str "]"
      .ok ({ table := table, sub := sub },
        if msg ≠ [] then tag ++ str " " ++ msg ++ line else tag ++ line)

def sendAll (libc : Libc) : JournalState → List Call → Except Fault JournalState
  | j, [] => .ok j
  | j, call :: calls =>
    match runSendFields libc j call with
    | .error e => .error e
    | .ok (j, _) => sendAll libc j calls

def Call.fields (libc : Libc) (call : Call) : List JournalKv :=
  match collect libc call.first call.args with
  | .error _ => []
  | .ok c => c.kvs

def isCaptured (kvs : List JournalKv) : Bool :=
  match txidOf kvs with
  | none => false
  | some txid => txid ≠ []

def captured (libc : Libc) (calls : List Call) : List (List JournalKv) :=
  ((calls.map (Call.fields libc)).filter isCaptured).reverse

/-- The lookup finds an id exactly if one of the last eight captured calls carried it, and writes
the fields of the newest of these. -/
structure Latest (t : TxTable) (newest : List (List JournalKv)) : Prop where
  found : ∀ txid buf : Str, buf ≠ [] →
    ((∃ out, getTransactionFields t (some txid) (some buf) = .ok out) ↔
      ∃ kvs ∈ newest.take 8, txidOf kvs = some txid)
  fields : ∀ (txid buf : Str) kvs, buf ≠ [] →
    (newest.take 8).find? (fun kvs => txidOf kvs = some txid) = some kvs →
      ∃ out, getTransactionFields t (some txid) (some buf) = .ok out ∧ out.length = buf.length ∧
        (0 : UInt8) ∈ out ∧
        cString out = ((kvs.take 16).flatMap JournalKv.line).take (buf.length - 1)

def Fresh (kvs : List JournalKv) (t : TxTable) : Prop :=
  ∀ txid ∈ txidOf kvs, txid ≠ [] →
    txid.length < 32 ∧ ∀ r ∈ t.slots.take t.next, r.txid ≠ txid

instance (kvs : List JournalKv) (t : TxTable) : Decidable (Fresh kvs t) :=
  inferInstanceAs (Decidable (∀ txid ∈ txidOf kvs, txid ≠ [] →
    txid.length < 32 ∧ ∀ r ∈ t.slots.take t.next, r.txid ≠ txid))

def FreshRun (libc : Libc) : JournalState → List Call → Prop
  | _, [] => True
  | j, call :: calls =>
    Fresh (call.fields libc) j.table ∧
      ∀ j' out, runSendFields libc j call = .ok (j', out) → FreshRun libc j' calls

theorem prefix_patch {buf text x : Str} (h : text <+: buf)
    (hfits : text.length + x.length ≤ buf.length) :
    text ++ x <+: patch buf text.length x := by
  obtain ⟨rest, rfl⟩ := h
  rw [patch, List.take_left, List.append_assoc]
  exact List.prefix_append_right_inj _ |>.mpr (List.prefix_append _ _)

theorem zero_not_mem_line (kv : JournalKv) : (0 : UInt8) ∉ kv.line := by
  intro h
  simp only [JournalKv.line, List.mem_append, List.mem_cons, List.not_mem_nil, or_false] at h
  obtain (h | h | h) | h := h
  · exact kv.key_clean h
  · exact absurd h (by decide)
  · exact kv.val_clean h
  · exact absurd h (by decide)

theorem writeFields_starts : ∀ {kvs : List JournalKv} {text buf : Str}, kvs ≠ [] → text <+: buf →
    text.length < buf.length →
      (text ++ kvs.flatMap JournalKv.line).take (buf.length - 1) ++ [0] <+:
        writeFields kvs text.length buf ∧ (writeFields kvs text.length buf).length = buf.length
  | kv :: kvs, text, buf, _, hpre, hlt => by
    have hline : (kv.line.take (buf.length - text.length - 1) ++ [0]).length ≤
        buf.length - text.length := by
      rw [List.length_append, List.length_take, List.length_singleton]
      omega
    have hfits : text.length + (kv.line.take (buf.length - text.length - 1) ++ [0]).length ≤
        buf.length := by omega
    have hlen := length_patch hfits
    have hwritten := prefix_patch hpre hfits
    rw [writeFields, List.flatMap_cons, ← List.append_assoc]
    split
    · next hfull =>
      have htake : (text ++ kv.line ++ kvs.flatMap JournalKv.line).take (buf.length - 1) =
          text ++ kv.line.take (buf.length - text.length - 1) := by
        rw [List.take_append_of_le_length (by rw [List.length_append]; omega), List.take_append,
          List.take_of_length_le (by omega), Nat.sub_right_comm]
      rw [htake, List.append_assoc]
      exact ⟨hwritten, hlen⟩
    · next hroom =>
      rw [List.take_of_length_le (show kv.line.length ≤ buf.length - text.length - 1 by omega)]
        at hwritten hlen ⊢
      have hlength : (text ++ kv.line).length = text.length + kv.line.length := List.length_append
      by_cases hkvs : kvs = []
      · subst hkvs
        rw [List.flatMap_nil, List.append_nil, List.take_of_length_le (by omega), List.append_assoc]
        exact ⟨hwritten, hlen⟩
      · rw [← List.append_assoc] at hwritten
        have hrest := writeFields_starts hkvs ((List.prefix_append _ _).trans hwritten)
          (by rw [hlen]; omega)
        rwa [hlen, hlength] at hrest

theorem cString_of_prefix {s out : Str} (h0 : (0 : UInt8) ∉ s) (h : s ++ [0] <+: out) :
    cString out = s := by
  obtain ⟨rest, rfl⟩ := h
  have hs : ∀ c ∈ s, decide (c ≠ 0) = true := fun c hc => decide_eq_true fun h => h0 (h ▸ hc)
  rw [cString, List.append_assoc, List.takeWhile_append_of_pos hs, List.singleton_append,
    List.takeWhile_cons_of_neg (by decide), List.append_nil]

theorem writeFields_result {kvs : List JournalKv} {buf : Str} (hkvs : kvs ≠ []) (hbuf : buf ≠ []) :
    ∃ out, out = patch (writeFields kvs 0 buf) (buf.length - 1) [0] ∧ out.length = buf.length ∧
      (0 : UInt8) ∈ out ∧
      cString out = (kvs.flatMap JournalKv.line).take (buf.length - 1) := by
  have hpos : 0 < buf.length := List.length_pos_of_ne_nil hbuf
  obtain ⟨hpre, hlen⟩ := @writeFields_starts kvs [] buf hkvs List.nil_prefix hpos
  rw [List.nil_append, List.length_nil] at hpre
  rw [List.length_nil] at hlen
  have hclean : (0 : UInt8) ∉ (kvs.flatMap JournalKv.line).take (buf.length - 1) := by
    intro h
    obtain ⟨kv, -, h0⟩ := List.mem_flatMap.mp ((List.take_sublist _ _).subset h)
    exact zero_not_mem_line kv h0
  have hfits : buf.length - 1 + [(0 : UInt8)].length ≤ (writeFields kvs 0 buf).length := by
    rw [hlen, List.length_singleton]
    omega
  -- the NUL at the end of the buffer is behind the text, or is the one behind it
  have hend : (kvs.flatMap JournalKv.line).take (buf.length - 1) ++ [0] <+:
      patch (writeFields kvs 0 buf) (buf.length - 1) [0] := by
    obtain hfull | hroom := Nat.eq_or_lt_of_le
      (List.length_take_le (buf.length - 1) (kvs.flatMap JournalKv.line))
    · have hpatch := prefix_patch (x := [0]) ((List.prefix_append _ _).trans hpre)
        (by rw [hfull]; exact hfits)
      rwa [hfull] at hpatch
    · have hlt : ((kvs.flatMap JournalKv.line).take (buf.length - 1) ++ [0]).length ≤
          buf.length - 1 := by
        rw [List.length_append, List.length_singleton]
        exact hroom
      rw [patch, List.append_assoc]
      exact (List.prefix_take_iff.mpr ⟨hpre, hlt⟩).trans (List.prefix_append _ _)
  refine ⟨_, rfl, (length_patch hfits).trans hlen, ?_, cString_of_prefix hclean hend⟩
  exact hend.subset (List.mem_append_right _ (List.mem_singleton_self _))

def txRecord (kvs : List JournalKv) : TxRec where
  txid := ((txidOf kvs).getD []).take 31
  kv := kvs.take 16

structure Holds (t : TxTable) (newest : List (List JournalKv)) : Prop where
  next : t.next = newest.length % 8
  slots : ∀ i (hi : i < t.slots.length),
    (∃ kvs, ringSlot 8 newest i = some kvs ∧ t.slots[i] = txRecord kvs) ∨
      ringSlot 8 newest i = none ∧ t.slots[i] = .zero
  ids : ∀ kvs ∈ newest, ∃ txid, txidOf kvs = some txid ∧ txid ≠ [] ∧ txid.length < 32
  ordered : RingOrdered 8 txidOf newest

theorem isCaptured_iff {kvs : List JournalKv} :
    isCaptured kvs = true ↔ ∃ txid, txidOf kvs = some txid ∧ txid ≠ [] := by
  rw [isCaptured]
  cases txidOf kvs with
  | none => exact ⟨nofun, fun h => nomatch h.choose_spec.1⟩
  | some txid => exact ⟨fun h => ⟨txid, rfl, of_decide_eq_true h⟩,
      fun ⟨_, h, hne⟩ => decide_eq_true (Option.some.inj h ▸ hne)⟩

theorem holds_zero : Holds .zero [] where
  next := rfl
  slots i hi := Or.inr ⟨rfl, List.getElem_replicate hi⟩
  ids := nofun
  ordered := trivial

theorem txCapture_of_captured {kvs : List JournalKv} {txid : Str} (h : txidOf kvs = some txid)
    (hne : txid ≠ []) (t : TxTable) :
    (txCapture kvs t).slots = t.slots.set t.next (txRecord kvs) ∧
      (txCapture kvs t).next = (t.next + 1) % 8 := by
  rw [txRecord, txCapture, h]
  simp only
  rw [if_neg hne]
  exact ⟨rfl, rfl⟩

theorem txCapture_of_not {kvs : List JournalKv} (h : ¬isCaptured kvs = true) (t : TxTable) :
    txCapture kvs t = t := by
  rw [txCapture]
  cases hid : txidOf kvs with
  | none => rfl
  | some txid =>
    have hempty : txid = [] := not_not.mp fun hne => h (isCaptured_iff.mpr ⟨txid, hid, hne⟩)
    exact if_pos hempty

section
variable {t : TxTable} {newest : List (List JournalKv)}

theorem Holds.txid_record (h : Holds t newest) {kvs : List JournalKv} (hkvs : kvs ∈ newest) :
    txidOf kvs = some (txRecord kvs).txid := by
  obtain ⟨txid, hid, -, hlt⟩ := h.ids kvs hkvs
  rw [txRecord, hid, Option.getD_some, List.take_of_length_le (Nat.le_of_lt_succ hlt)]

theorem Holds.capture (h : Holds t newest) {kvs : List JournalKv} {txid : Str}
    (hid : txidOf kvs = some txid) (hne : txid ≠ []) (hfresh : Fresh kvs t) :
    Holds (txCapture kvs t) (kvs :: newest) := by
  obtain ⟨hslots, hnext⟩ := txCapture_of_captured hid hne t
  obtain ⟨hshort, hother⟩ := hfresh txid hid hne
  constructor
  · rw [hnext, h.next, List.length_cons, Nat.mod_add_mod]
  · intro i hi
    have hi' : i < t.slots.length := by rwa [hslots, List.length_set] at hi
    rw [List.getElem_of_eq hslots hi, List.getElem_set, ringSlot, ← h.next]
    split
    · exact Or.inl ⟨kvs, rfl, rfl⟩
    · exact h.slots i hi'
  · intro x hx
    obtain rfl | hx := List.mem_cons.mp hx
    · exact ⟨txid, hid, hne, hshort⟩
    · exact h.ids x hx
  · refine ⟨fun i hi y hy hkey => ?_, h.ordered⟩
    rw [← h.next] at hi
    have hlen : i < t.slots.length := hi.trans (t.next_lt.trans_eq t.length_slots.symm)
    obtain ⟨x, hx, hrecord⟩ | ⟨hnone, -⟩ := h.slots i hlen
    · obtain rfl := Option.some.inj (hx.symm.trans hy)
      obtain ⟨a, -, hmem, -⟩ := exists_age_of_ringSlot (by decide) hx
      have hxid := h.txid_record (List.mem_of_getElem? hmem)
      have htaken : t.slots[i] ∈ t.slots.take t.next :=
        List.mem_take_iff_getElem.mpr ⟨i, lt_min hi hlen, rfl⟩
      refine hother _ htaken ?_
      rw [hrecord]
      exact Option.some.inj (hxid.symm.trans (hkey.trans hid))
    · cases hnone.symm.trans hy

theorem Holds.lookUp (h : Holds t newest) (txid : Str) :
    lookUp t txid =
      ((newest.take 8).find? fun kvs => txidOf kvs = some txid).map txRecord := by
  refine find_ring (by decide) t.length_slots (fun i hi => ?_) (fun kvs hkvs => ?_) ?_
  · obtain hsome | ⟨hnone, hzero⟩ := h.slots i hi
    · exact Or.inl hsome
    · refine Or.inr ⟨hnone, ?_⟩
      rw [hzero]
      exact decide_eq_false fun h => h.1 rfl
  · rw [decide_eq_decide, h.txid_record hkvs, Option.some_inj]
    refine and_iff_right fun hnil => ?_
    obtain ⟨txid, hid, -, -⟩ := h.ids kvs hkvs
    rw [txRecord, List.take_eq_nil_iff] at hnil
    rw [hnil.resolve_left (by decide)] at hid
    exact absurd hid nofun
  · intro a b x y hab hb hx hy hpx hpy
    exact h.ordered.slot_lt hab hb hx hy
      ((of_decide_eq_true hpy).trans (of_decide_eq_true hpx).symm)

theorem getTransactionFields_of_ne {buf : Str} (hbuf : buf ≠ []) (t : TxTable) (txid : Str) :
    getTransactionFields t (some txid) (some buf) =
      match Journal.lookUp t txid with
      | none => .error .enoent
      | some r => .ok (patch (writeFields r.kv 0 buf) (buf.length - 1) [0]) :=
  if_neg fun h => hbuf (List.length_eq_zero_iff.mp h)

theorem Holds.latest (h : Holds t newest) : Latest t newest := by
  constructor
  · intro txid buf hbuf
    rw [getTransactionFields_of_ne hbuf, h.lookUp]
    cases hfind : (newest.take 8).find? fun kvs => txidOf kvs = some txid with
    | none =>
      refine ⟨nofun, fun ⟨kvs, hkvs, hid⟩ => ?_⟩
      exact absurd (decide_eq_true hid) (List.find?_eq_none.mp hfind kvs hkvs)
    | some kvs =>
      have hid := List.find?_some (p := fun kvs => decide (txidOf kvs = some txid)) hfind
      exact ⟨fun _ => ⟨kvs, List.mem_of_find?_eq_some hfind, of_decide_eq_true hid⟩,
        fun _ => ⟨_, rfl⟩⟩
  · intro txid buf kvs hbuf hfind
    rw [getTransactionFields_of_ne hbuf, h.lookUp, hfind, Option.map_some]
    have hmem : kvs ∈ newest := (List.take_sublist _ _).subset (List.mem_of_find?_eq_some hfind)
    have hne : (txRecord kvs).kv ≠ [] := by
      intro hnil
      obtain ⟨txid, hid, -, -⟩ := h.ids kvs hmem
      rw [txRecord, List.take_eq_nil_iff] at hnil
      rw [hnil.resolve_left (by decide)] at hid
      exact absurd hid nofun
    obtain ⟨out, rfl, hresult⟩ := writeFields_result hne hbuf
    exact ⟨_, rfl, hresult⟩

end

section
variable {libc : Libc}

theorem runSendFields_table {j j' : JournalState} {call : Call} {out : Str}
    (h : runSendFields libc j call = .ok (j', out)) :
    j'.table = txCapture (call.fields libc) j.table := by
  rw [runSendFields] at h
  rw [Call.fields]
  cases hc : collect libc call.first call.args with
  | error e =>
    rw [hc] at h
    exact absurd h nofun
  | ok c =>
    rw [hc] at h
    simp only at h
    split at h
    · exact absurd h nofun
    · obtain ⟨rfl, -⟩ := Prod.mk.inj (Except.ok.inj h)
      rfl

theorem Holds.step {t : TxTable} {newest : List (List JournalKv)} (h : Holds t newest)
    {kvs : List JournalKv} (hfresh : Fresh kvs t) :
    Holds (txCapture kvs t) (([kvs].filter isCaptured).reverse ++ newest) := by
  by_cases hc : isCaptured kvs = true
  · obtain ⟨txid, hid, hne⟩ := isCaptured_iff.mp hc
    rw [List.filter_cons_of_pos hc]
    exact h.capture hid hne hfresh
  · rw [List.filter_cons_of_neg hc, txCapture_of_not hc]
    exact h

theorem Holds.run : ∀ {calls : List Call} {j j' : JournalState} {newest : List (List JournalKv)},
    Holds j.table newest → FreshRun libc j calls → sendAll libc j calls = .ok j' →
      Holds j'.table (captured libc calls ++ newest)
  | [], j, j', newest, h, _, hrun => by
    obtain rfl := Except.ok.inj hrun
    exact h
  | call :: calls, j, j', newest, h, hfresh, hrun => by
    rw [sendAll] at hrun
    split at hrun
    · exact absurd hrun nofun
    · next j₁ out hsend =>
      have hstep := h.step hfresh.1
      rw [← runSendFields_table hsend] at hstep
      have hrest := Holds.run hstep (hfresh.2 j₁ out hsend) hrun
      rwa [captured, ← List.append_assoc, ← List.reverse_append, ← List.filter_append,
        List.singleton_append, ← List.map_cons] at hrest

end

/-- A call `sd_journal_send("TRANSACTION_ID=...", "K=...", NULL)`. -/
def plainCall (txid value : String) : Call where
  first := some (str "TRANSACTION_ID=" ++ str txid)
  args := [.pointer (some (str "K=" ++ str value)), .pointer none]

def noLibc : Libc where
  double _ _ := []
  address _ := []

def answer (calls : List Call) (txid : Str) : Option (Except TxErrno Str) :=
  match sendAll noLibc .zero calls with
  | .error _ => none
  | .ok j => some ((getTransactionFields j.table (some txid) (some (List.replicate 64 0))).map
      cString)

/-- In a run of fresh calls the lookup always answers with the newest of the last eight captured
calls. -/
theorem latest_of_fresh {libc : Libc} {calls : List Call} {j : JournalState}
    (hrun : sendAll libc .zero calls = .ok j) (hfresh : FreshRun libc .zero calls) :
    Latest j.table (captured libc calls) := by
  have h := Holds.run holds_zero hfresh hrun
  rw [List.append_nil] at h
  exact h.latest

theorem latest_of_fresh_two :
    ∃ j, sendAll noLibc .zero [plainCall "7" "1", plainCall "8" "2"] = .ok j ∧
      Latest j.table (captured noLibc [plainCall "7" "1", plainCall "8" "2"]) := by
  cases h : sendAll noLibc .zero [plainCall "7" "1", plainCall "8" "2"] with
  | error e =>
    have hsome : answer [plainCall "7" "1", plainCall "8" "2"] (str "7") ≠ none := by
      decide +kernel
    rw [answer, h] at hsome
    exact absurd rfl hsome
  | ok j =>
    refine ⟨j, rfl, latest_of_fresh h ⟨by decide +kernel, fun j' out hsend => ⟨?_, ?_⟩⟩⟩
    · rw [runSendFields_table hsend]
      decide +kernel
    · exact fun _ _ _ => trivial

/-- Two calls with one id: the lookup finds the older one. -/
theorem not_latest :
    ∃ j, sendAll noLibc .zero [plainCall "7" "1", plainCall "7" "2"] = .ok j ∧
      ¬Latest j.table (captured noLibc [plainCall "7" "1", plainCall "7" "2"]) := by
  have hanswer : answer [plainCall "7" "1", plainCall "7" "2"] (str "7") =
      some (.ok (str "TRANSACTION_ID=7" ++ [10] ++ str "K=1" ++ [10])) := by decide +kernel
  have hnewest : (((captured noLibc [plainCall "7" "1", plainCall "7" "2"]).take 8).find?
      fun kvs => txidOf kvs = some (str "7")).map
        (fun kvs => ((kvs.take 16).flatMap JournalKv.line).take 63) =
      some (str "TRANSACTION_ID=7" ++ [10] ++ str "K=2" ++ [10]) := by decide +kernel
  cases h : sendAll noLibc .zero [plainCall "7" "1", plainCall "7" "2"] with
  | error e =>
    rw [answer, h] at hanswer
    exact absurd hanswer nofun
  | ok j =>
    refine ⟨j, rfl, fun hlatest => ?_⟩
    obtain ⟨kvs, hkvs, htext⟩ := Option.map_eq_some_iff.mp hnewest
    obtain ⟨out, hout, -, -, hstring⟩ :=
      hlatest.fields (str "7") (List.replicate 64 0) kvs (by decide) hkvs
    rw [answer, h] at hanswer
    simp only at hanswer
    rw [hout] at hanswer
    have hold : cString out = _ := Except.ok.inj (Option.some.inj hanswer)
    rw [hstring, List.length_replicate, htext] at hold
    exact absurd hold (by decide +kernel)

end Basu.Journal
