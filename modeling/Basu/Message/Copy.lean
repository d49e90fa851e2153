import Mathlib.Data.List.TakeWhile
import Basu.Message.Decode
import Basu.Message.RoundTrip

/-! Copying a received message into one under construction (`sd_bus_message_copy`). The copied body
is the serialisation of values that stand in the source, and differs from it in the words of true
booleans only. -/

namespace Basu
open Lib

def CStr.ofBytes (s : Str) : CStr := ⟨s.takeWhile (· ≠ 0), by
  intro h
  have := List.all_eq_true.mp (List.all_takeWhile (l := s) (p := (· ≠ 0))) 0 h
  simp at this⟩

/-- The pointer to a value that was read, as `append_basic` takes it. -/
def BasicVal.arg (dup : Nat → Except Errno Nat) : BasicVal → BasicArg
  | .num t x => .num t x
  | .boolean x => .boolean (some (if x then 1 else 0))
  | .string s => .string (some (CStr.ofBytes s))
  | .objectPath s => .objectPath (some (CStr.ofBytes s))
  | .signature s => .signature (some (CStr.ofBytes s))
  | .unixFd fd => .unixFd (some fd) (dup fd)

/-- The loop of `sd_bus_message_copy`; the number bounds its turns and the recursion. `dup` is
what `fcntl` answers when a descriptor is duplicated. -/
def copyLoop (dup : Nat → Except Errno Nat) :
    Nat → Message → Received → Bool → Bool → Except Errno Bool × Message × Received
  | 0, m, source, _, _ => (.error .ebadmsg, m, source)
  | fuel + 1, m, source, all, doneSomething =>
    match sdBusMessagePeekType source with
    | .error r => (.error r, m, source)
    | .ok none => (.ok doneSomething, m, source)
    | .ok (some (type, contents)) =>
      if busTypeIsContainer type then
        match sdBusMessageEnterContainer source type (strempty contents) with
        | .error r => (.error r, m, source)
        | .ok (_, source) =>
          match (Op.openContainer type (CStr.ofBytes (strempty contents))).exec m with
          | (.error r, m) => (.error r, m, source)
          | (.ok (), m) =>
            match copyLoop dup fuel m source true false with
            | (.error r, m, source) => (.error r, m, source)
            | (.ok _, m, source) =>
              match Op.closeContainer.exec m with
              | (.error r, m) => (.error r, m, source)
              | (.ok (), m) =>
                match sdBusMessageExitContainer source with
                | .error r => (.error r, m, source)
                | .ok source =>
                  if all then copyLoop dup fuel m source all true else (.ok true, m, source)
      else
        match sdBusMessageReadBasic source type with
        | .error r => (.error r, m, source)
        -- peeking has seen a value, so this is the failed `assert (r > 0)`
        | .ok (none, source) => (.error .einval, m, source)
        | .ok (some v, source) =>
          match (Op.appendBasic (v.arg dup)).exec m with
          | (.error r, m) => (.error r, m, source)
          | (.ok (), m) =>
            if all then copyLoop dup fuel m source all true else (.ok true, m, source)

def sdBusMessageCopy (dup : Nat → Except Errno Nat) (fuel : Nat) (m : Message)
    (source : Received) (all : Bool) : Except Errno Bool × Message × Received :=
  if m.sealed then (.error .eperm, m, source) else copyLoop dup fuel m source all false

/-! ## A traversal and the calls it makes -/

mutual

def Item.ops (dup : Nat → Except Errno Nat) : Item → List Op
  | .basic v => [.appendBasic (v.arg dup)]
  | .container type contents items =>
    .openContainer type (CStr.ofBytes contents) :: (Item.allOps dup items ++ [.closeContainer])

def Item.allOps (dup : Nat → Except Errno Nat) : List Item → List Op
  | [] => []
  | i :: items => i.ops dup ++ Item.allOps dup items

end

theorem Runs.append {m m₁ m₂ : Message} {ops ops' : List Op} (h : Runs m ops m₁)
    (h' : Runs m₁ ops' m₂) : Runs m (ops ++ ops') m₂ := by
  induction h with
  | nil m => exact h'
  | cons h _ ih => exact .cons h (ih h')

theorem peekType_kind {m : Received} {type : UInt8} {contents : Option Str}
    (h : sdBusMessagePeekType m = .ok (some (type, contents))) :
    (busTypeIsContainer type = false ∧ contents = none) ∨
      (busTypeIsContainer type = true ∧ ∃ s, contents = some s) := by
  obtain ⟨hs, ha⟩ := peekType_some h
  simp only [sdBusMessagePeekType, hs, ha, Bool.or_self, Bool.false_eq_true, if_false] at h
  split_ifs at h with h1 h2 h3 h4 h5
  · left
    simp only [Except.ok.injEq, Option.some.injEq, Prod.mk.injEq] at h
    obtain ⟨rfl, rfl⟩ := h
    obtain ⟨b, hb⟩ := exists_basic_of_code h1
    refine ⟨?_, rfl⟩
    rw [← hb]
    rcases b with (t | _) <;> first | (cases t <;> rfl) | rfl
  all_goals
    right
    split at h
    · exact absurd h (by simp)
    · simp only [Except.ok.injEq, Option.some.injEq, Prod.mk.injEq] at h
      obtain ⟨rfl, rfl⟩ := h
      exact ⟨by decide, _, rfl⟩

theorem enterContainer_true {m m₁ : Received} {type : UInt8} {contents : Str} {b : Bool}
    (ha : messageEndOfArray m = false)
    (h : sdBusMessageEnterContainer m type contents = .ok (b, m₁)) : b = true := by
  unfold sdBusMessageEnterContainer at h
  split_ifs at h with h1 h2 h3 h4
  · rw [ha] at h4
    exact absurd h4 (by decide)
  · split at h
    · exact absurd h (by simp)
    · simp only [Except.ok.injEq, Prod.mk.injEq] at h
      exact h.1.symm

theorem copyLoop_spec {dup : Nat → Except Errno Nat} {fuel : Nat} {m m' : Message}
    {source source' : Received} {d x : Bool}
    (h : copyLoop dup fuel m source true d = (.ok x, m', source')) :
    ∃ items, ReadItems source items source' ∧ Runs m (Item.allOps dup items) m' := by
  induction fuel generalizing m source d m' source' x with
  | zero => exact absurd h (by simp [copyLoop])
  | succ fuel ih =>
    rw [copyLoop] at h
    split at h
    · exact absurd h (by simp)
    · rename_i hp
      simp only [Prod.mk.injEq] at h
      obtain ⟨-, rfl, rfl⟩ := h
      exact ⟨[], .eof hp, .nil _⟩
    · rename_i type contents hp
      rcases peekType_kind hp with ⟨hc, rfl⟩ | ⟨hc, s, rfl⟩
      · simp only [hc, Bool.false_eq_true, if_false] at h
        split at h
        · exact absurd h (by simp)
        · exact absurd h (by simp)
        · rename_i v source₁ hr
          split at h
          · exact absurd h (by simp)
          · rename_i m₁ hm₁
            obtain ⟨items, hread, hruns⟩ := ih (by simpa using h)
            exact ⟨.basic v :: items, .basic hp hr hread, .cons hm₁ hruns⟩
      · simp only [hc, if_true, strempty, Option.getD_some] at h
        split at h
        · exact absurd h (by simp)
        · rename_i b source₁ hen
          obtain rfl := enterContainer_true (peekType_some hp).2 hen
          split at h
          · exact absurd h (by simp)
          · rename_i m₁ hm₁
            split at h
            · exact absurd h (by simp)
            · rename_i y m₂ source₂ hin
              split at h
              · exact absurd h (by simp)
              · rename_i m₃ hm₃
                split at h
                · exact absurd h (by simp)
                · rename_i source₃ hx
                  obtain ⟨inner, hread, hruns⟩ := ih hin
                  obtain ⟨items, hread', hruns'⟩ := ih h
                  refine ⟨.container type s inner :: items,
                    .container hp hen hread hx hread', ?_⟩
                  rw [Item.allOps, Item.ops, List.cons_append, List.append_assoc]
                  exact .cons hm₁ (hruns.append (.cons hm₃ hruns'))

/-! ## The tree the calls build -/

theorem CStr.ofBytes_val {s : Str} (h : (0 : UInt8) ∉ s) : (CStr.ofBytes s).1 = s := by
  refine List.takeWhile_eq_self_iff.mpr fun c hc => ?_
  simpa using fun h0 : c = 0 => h (h0 ▸ hc)

theorem BasicVal.arg_val {v : BasicVal} (dup : Nat → Except Errno Nat) (n : Nat)
    (hc : v.Clean) (hr : v.readable 0 = true) :
    ((v.resolve []).arg dup).val n = v ∧ ((v.resolve []).arg dup).fds = [] := by
  cases v with
  | num t x => exact ⟨rfl, rfl⟩
  | boolean x => cases x <;> exact ⟨rfl, rfl⟩
  | string s => exact ⟨congrArg BasicVal.string (CStr.ofBytes_val hc), rfl⟩
  | objectPath s => exact ⟨congrArg BasicVal.objectPath (CStr.ofBytes_val hc), rfl⟩
  | signature s => exact ⟨congrArg BasicVal.signature (CStr.ofBytes_val hc), rfl⟩
  | unixFd i => exact absurd hr (by simp [BasicVal.readable])

theorem Tree.Steps.append {T T₁ T₂ : Tree} {ops ops' : List Op} (h : T.Steps ops T₁)
    (h' : T₁.Steps ops' T₂) : T.Steps (ops ++ ops') T₂ := by
  induction h with
  | nil T => exact h'
  | cons h _ ih => exact .cons h (ih h')

theorem Val.Holds.close {v : Val} {k : Kind} {vs : List Val} (h : v.Holds k vs) :
    (Frame.mk k vs).close = v := by
  cases h <;> rfl

def Tree.pushAll (T : Tree) (vs : List Val) : Tree := vs.foldl Tree.push T

theorem Tree.pushAll_frame (root : List Val) (k : Kind) (ws : List Val) (fs : List Frame)
    (fds : List Nat) (vs : List Val) :
    Tree.pushAll ⟨root, ⟨k, ws⟩ :: fs, fds⟩ vs = ⟨root, ⟨k, ws ++ vs⟩ :: fs, fds⟩ := by
  induction vs generalizing ws with
  | nil => simp [Tree.pushAll]
  | cons v vs ih =>
    have hpush : Tree.push ⟨root, ⟨k, ws⟩ :: fs, fds⟩ v = ⟨root, ⟨k, ws ++ [v]⟩ :: fs, fds⟩ := rfl
    rw [Tree.pushAll, List.foldl_cons, hpush]
    exact (ih (ws ++ [v])).trans (by simp)

theorem Tree.pushAll_root (root : List Val) (fds : List Nat) (vs : List Val) :
    Tree.pushAll ⟨root, [], fds⟩ vs = ⟨root ++ vs, [], fds⟩ := by
  induction vs generalizing root with
  | nil => simp [Tree.pushAll]
  | cons v vs ih =>
    have hpush : Tree.push ⟨root, [], fds⟩ v = ⟨root ++ [v], [], fds⟩ := rfl
    rw [Tree.pushAll, List.foldl_cons, hpush]
    exact (ih (root ++ [v])).trans (by simp)

theorem Tree.steps_allOps (dup : Nat → Except Errno Nat) {e : Endian} {vs : List Val} {p d : Nat}
    (hc : ∀ v ∈ vs, v.Clean) (hr : Val.AllReadable e 0 vs p d)
    (hv : ∀ v ∈ vs, ∀ p d, v.Readable e 0 p d → v.Clean → ∀ T : Tree,
      T.Steps ((v.item []).ops dup) (T.push v)) (T : Tree) :
    T.Steps (Item.allOps dup (Val.items [] vs)) (T.pushAll vs) := by
  induction vs generalizing T p with
  | nil =>
    rw [Val.items, Item.allOps]
    exact .nil T
  | cons v vs ih =>
    rw [Val.AllReadable] at hr
    rw [Val.items, Item.allOps]
    exact (hv v (by simp) p d hr.1 (hc v (by simp)) T).append
      (ih (fun w hw => hc w (by simp [hw])) hr.2 (fun w hw => hv w (by simp [hw])) (T.push v))

theorem Tree.steps_ops {dup : Nat → Except Errno Nat} {e : Endian} {v : Val} {p d : Nat}
    (hr : v.Readable e 0 p d) (hc : v.Clean) (T : Tree) :
    T.Steps ((v.item []).ops dup) (T.push v) := by
  induction v using Val.induct generalizing p d T with
  | basic b =>
    rw [Val.Readable] at hr
    rw [Val.Clean] at hc
    rw [Val.item, Item.ops]
    obtain ⟨hval, hfds⟩ := b.arg_val dup T.fds.length hc hr
    have hstep := Tree.Step.basic T ((b.resolve []).arg dup)
    rw [hval, hfds, List.append_nil] at hstep
    have hsame : { T.push (.basic b) with fds := T.fds } = T.push (.basic b) := by
      rw [← T.push_fds (.basic b)]
    rw [hsame] at hstep
    exact .cons hstep (.nil _)
  | container v k vs hold ih =>
    obtain ⟨-, -, hall⟩ := (hold.readable _ _ _ _).mp hr
    rw [hold.item, Item.ops]
    have hopen := Tree.Step.opened T k (CStr.ofBytes k.contents)
      (CStr.ofBytes_val k.zero_notMem_contents)
    have hin := Tree.steps_allOps dup (hold.clean.mp hc) hall
      (fun w hw p d hr hc T => ih w hw hr hc T) { T with frames := ⟨k, []⟩ :: T.frames }
    rw [Tree.pushAll_frame, List.nil_append] at hin
    have hclose := Tree.Step.closed { T with frames := ⟨k, vs⟩ :: T.frames } ⟨k, vs⟩ T.frames rfl
    rw [hold.close] at hclose
    exact .cons hopen (hin.append (.cons hclose (.nil _)))

def BasicVal.boolWords : BasicVal → Nat → List Nat
  | .boolean _, p => [alignUp p 4]
  | _, _ => []

mutual

def Val.boolWords (e : Endian) : Val → Nat → List Nat
  | .basic v, p => v.boolWords p
  | .variant v, p => v.boolWords e (p + (sigBytes v.ty.sig).length)
  | .array t vs, p => Val.allBoolWords e vs (arrayStart t p)
  | .struct vs, p => Val.allBoolWords e vs (alignUp p 8)
  | .dictEntry k v, p =>
    k.boolWords (alignUp p 8) ++
      v.boolWords e (alignUp p 8 + (k.enc e (alignUp p 8)).length)

def Val.allBoolWords (e : Endian) : List Val → Nat → List Nat
  | [], _ => []
  | v :: vs, p => v.boolWords e p ++ Val.allBoolWords e vs (p + (v.enc e p).length)

end

def normaliseBooleans (e : Endian) (bs : Bytes) (words : List Nat) : Bytes :=
  words.foldl (fun bs i =>
    patch bs i (putWord e 4 (if getWord e (slice bs i 4) = 0 then 0 else 1))) bs

theorem normaliseBooleans_append (e : Endian) (bs : Bytes) (ws ws' : List Nat) :
    normaliseBooleans e bs (ws ++ ws') = normaliseBooleans e (normaliseBooleans e bs ws) ws' :=
  List.foldl_append

theorem Val.Holds.boolWords {v : Val} {k : Kind} {vs : List Val} (h : v.Holds k vs) (e : Endian)
    (p : Nat) : v.boolWords e p = Val.allBoolWords e vs (k.start p) := by
  cases h with
  | variant v => simp [Val.boolWords, Val.allBoolWords, Kind.start]
  | array t vs => simp [Val.boolWords, Kind.start]
  | struct vs => simp [Val.boolWords, Kind.start]
  | dictEntry k v => simp [Val.boolWords, Val.allBoolWords, Kind.start, Val.enc]

theorem BasicVal.Stands.congr {e : Endian} {bs bs' : Bytes} {v : BasicVal} {p : Nat}
    (h : v.Stands e bs p) (hl : bs'.length = bs.length) (hd : bs'.drop p = bs.drop p) :
    v.Stands e bs' p := by
  cases v with
  | boolean x =>
    obtain ⟨w, hw, hat, hx⟩ := h
    exact ⟨w, hw, hat.congr hl hd, hx⟩
  | _ => exact At.congr h hl hd

theorem drop_eq_of_le {bs bs' : Bytes} {p q : Nat} (h : bs'.drop p = bs.drop p) (hpq : p ≤ q) :
    bs'.drop q = bs.drop q := by
  obtain ⟨k, rfl⟩ := Nat.exists_eq_add_of_le hpq
  rw [← List.drop_drop, h, List.drop_drop]

theorem Val.AllStand.congr {e : Endian} {bs bs' : Bytes} {vs : List Val} {p : Nat}
    (h : Val.AllStand e bs vs p) (hd : bs'.drop p = bs.drop p)
    (hv : ∀ v ∈ vs, ∀ p, v.Stands e bs p → bs'.drop p = bs.drop p → v.Stands e bs' p) :
    Val.AllStand e bs' vs p := by
  induction vs generalizing p with
  | nil =>
    rw [Val.AllStand]
    trivial
  | cons v vs ih =>
    rw [Val.AllStand] at h ⊢
    exact ⟨hv v (by simp) p h.1 hd, ih h.2 (drop_eq_of_le hd (by omega))
      fun w hw => hv w (by simp [hw])⟩

theorem Val.Stands.congr {e : Endian} {bs bs' : Bytes} {v : Val} {p : Nat}
    (h : v.Stands e bs p) (hl : bs'.length = bs.length) (hd : bs'.drop p = bs.drop p) :
    v.Stands e bs' p := by
  induction v using Val.induct generalizing p with
  | basic b =>
    rw [Val.Stands] at h ⊢
    exact h.congr hl hd
  | container v k vs hold ih =>
    rw [hold.stands] at h ⊢
    have hstart := k.length_head e p 0
    exact ⟨h.1.congr hl hd, h.2.congr (drop_eq_of_le hd (by omega))
      fun w hw p hw' hd' => ih w hw hw' hd'⟩

theorem BasicVal.Stands.normalise {e : Endian} {bs : Bytes} {v : BasicVal} {p : Nat}
    (h : v.Stands e bs p) :
    normaliseBooleans e bs (v.boolWords p) = patch bs p (v.enc e p) := by
  cases v with
  | boolean x =>
    obtain ⟨w, hw, hat, rfl⟩ := h
    obtain ⟨hz, hword⟩ := at_append.mp hat
    rw [length_zeros, add_padTo p (by decide)] at hword
    have hslice := hword.slice_eq
    rw [length_putWord] at hslice
    have hval : (if getWord e (slice bs (alignUp p 4) 4) = 0 then 0 else 1) =
        (decide (w ≠ 0)).toNat := by
      rw [hslice, getWord_putWord_of_lt e hw]
      by_cases hw0 : w = 0 <;> simp [hw0]
    have hnorm : normaliseBooleans e bs [alignUp p 4] =
        patch bs (alignUp p 4) (putWord e 4 (decide (w ≠ 0)).toNat) := by
      rw [← hval]
      rfl
    have hpatch := hz.patch (putWord e 4 (decide (w ≠ 0)).toNat)
    rw [length_zeros, add_padTo p (by decide)] at hpatch
    exact hnorm.trans hpatch
  | _ => exact (At.patch_self h).symm

theorem Val.AllStand.normalise {e : Endian} {bs : Bytes} {vs : List Val} {p : Nat}
    (h : Val.AllStand e bs vs p)
    (hv : ∀ v ∈ vs, ∀ (bs : Bytes) (p : Nat), v.Stands e bs p →
      normaliseBooleans e bs (v.boolWords e p) = patch bs p (v.enc e p)) :
    normaliseBooleans e bs (Val.allBoolWords e vs p) = patch bs p (Val.encs e vs p) := by
  induction vs generalizing bs p with
  | nil =>
    rw [Val.allBoolWords, Val.encs, patch_nil]
    rfl
  | cons v vs ih =>
    rw [Val.AllStand] at h
    have hle := h.1.le_length
    rw [Val.allBoolWords, normaliseBooleans_append, hv v (by simp) bs p h.1, Val.encs,
      ← patch_patch hle]
    refine ih ?_ fun w hw => hv w (by simp [hw])
    exact h.2.congr (drop_patch hle (Nat.le_refl _))
      fun w _ q hw hd => hw.congr (length_patch hle) hd

theorem Val.Stands.normalise {e : Endian} {bs : Bytes} {v : Val} {p : Nat}
    (h : v.Stands e bs p) :
    normaliseBooleans e bs (v.boolWords e p) = patch bs p (v.enc e p) := by
  induction v using Val.induct generalizing bs p with
  | basic b =>
    rw [Val.Stands] at h
    rw [Val.boolWords, Val.enc]
    exact h.normalise
  | container v k vs hold ih =>
    obtain ⟨hat, hall⟩ := (hold.stands _ _ _).mp h
    rw [hold.boolWords, hold.enc, hall.normalise fun w hw bs p hw' => ih w hw hw', ← hat.patch,
      k.length_head]

/-! ## What the parser accepts as a signature -/

def Parsed.SigOk (P : Parsed) : Prop :=
  ∀ s, P.signature = some s → (0 : UInt8) ∉ s ∧ validSignature s = true ∧ s.length ≤ 254

theorem parseStringField_ok {e : Endian} {fields : Bytes} {present : Option Str}
    {signature : Str} {type : UInt8} {validate : Str → Bool} {add : Str → Parsed} {ri : Nat}
    {r : Parsed × Nat}
    (h : parseStringField e fields present signature type validate add ri = .ok r) :
    ∃ s, r.1 = add s := by
  unfold parseStringField at h
  split_ifs at h
  cases hp : peekString e validate fields ri with
  | error x => rw [hp] at h; exact absurd h (by simp [Except.map])
  | ok x =>
    rw [hp] at h
    exact ⟨x.1, by rw [← Except.ok.inj h]⟩

theorem parseFieldValue_sigOk {e : Endian} {fields : Bytes} {P : Parsed} {code : UInt8}
    {signature : Str} {ri : Nat} {r : Parsed × Nat}
    (h : parseFieldValue e fields P code signature ri = .ok r) (hP : P.SigOk) : r.1.SigOk := by
  unfold parseFieldValue at h
  have hstr : ∀ {present : Option Str} {type : UInt8} {validate : Str → Bool}
      {add : Str → Parsed},
      parseStringField e fields present signature type validate add ri = .ok r →
      (∀ s, (add s).signature = P.signature) → r.1.SigOk := by
    intro present type validate add hok hadd
    obtain ⟨s, hs⟩ := parseStringField_ok hok
    intro t ht
    rw [hs, hadd] at ht
    exact hP t ht
  -- one field code after the other, in the order of the switch
  by_cases h0 : code = 0
  · rw [if_pos h0] at h
    exact absurd h (by simp)
  rw [if_neg h0] at h
  by_cases h1 : code = 1
  · rw [if_pos h1] at h
    exact hstr h fun _ => rfl
  rw [if_neg h1] at h
  by_cases h2 : code = 2
  · rw [if_pos h2] at h
    exact hstr h fun _ => rfl
  rw [if_neg h2] at h
  by_cases h3 : code = 3
  · rw [if_pos h3] at h
    exact hstr h fun _ => rfl
  rw [if_neg h3] at h
  by_cases h4 : code = 4
  · rw [if_pos h4] at h
    exact hstr h fun _ => rfl
  rw [if_neg h4] at h
  by_cases h6 : code = 6
  · rw [if_pos h6] at h
    exact hstr h fun _ => rfl
  rw [if_neg h6] at h
  by_cases h7 : code = 7
  · rw [if_pos h7] at h
    exact hstr h fun _ => rfl
  rw [if_neg h7] at h
  by_cases h8 : code = 8
  · rw [if_pos h8] at h
    split_ifs at h
    cases hp : peekSignature fields ri with
    | error x => rw [hp] at h; exact absurd h (by simp [Except.map])
    | ok x =>
      rw [hp] at h
      obtain ⟨s, ri'⟩ := x
      obtain ⟨-, hz, hv, hlen, -⟩ := peekSignature_sound hp
      obtain rfl := (Except.ok.inj h).symm
      rintro t ⟨⟩
      exact ⟨hz, hv, hlen⟩
  rw [if_neg h8] at h
  by_cases h5 : code = 5
  · rw [if_pos h5] at h
    split_ifs at h
    split at h
    · exact absurd h (by simp)
    · split_ifs at h
      obtain rfl := (Except.ok.inj h).symm
      exact hP
  rw [if_neg h5] at h
  by_cases h9 : code = 9
  · rw [if_pos h9] at h
    split_ifs at h
    split at h
    · exact absurd h (by simp)
    · obtain rfl := (Except.ok.inj h).symm
      exact hP
  rw [if_neg h9] at h
  cases hp : messageSkipFields e fields (2 * fields.length + 3) ri ri none signature with
  | error x => rw [hp] at h; exact absurd h (by simp [Except.map])
  | ok x =>
    rw [hp] at h
    obtain rfl := (Except.ok.inj h).symm
    exact hP

theorem parseFieldsLoop_sigOk {e : Endian} {fields : Bytes} {fuel : Nat} {P P' : Parsed}
    {ri : Nat} (h : parseFieldsLoop e fields fuel P ri = .ok P') (hP : P.SigOk) : P'.SigOk := by
  induction fuel generalizing P ri with
  | zero => exact absurd h (by simp [parseFieldsLoop])
  | succ fuel ih =>
    rw [parseFieldsLoop] at h
    split_ifs at h
    · obtain rfl := Except.ok.inj h
      exact hP
    · split at h
      · exact absurd h (by simp)
      · rename_i P₁ ri₁ hfield
        refine ih h ?_
        unfold parseField at hfield
        split at hfield
        · exact absurd hfield (by simp)
        · split at hfield
          · exact absurd hfield (by simp)
          · exact parseFieldValue_sigOk hfield hP

theorem fromMalloc_rewind {b : Bytes} {fds : List Nat} {r : Received}
    (h : busMessageFromMalloc b fds = .ok r) :
    (∃ P : Parsed, P.SigOk ∧ (sdBusMessageRewind r).root = { signature := P.signature }) ∧
      (sdBusMessageRewind r).fds = fds ∧
      (r.header.type ≠ sdBusMessageMethodError → sdBusMessageRewind r = r) := by
  unfold busMessageFromMalloc at h
  split_ifs at h
  split at h
  · exact absurd h (by simp)
  · rename_i e _
    simp only at h
    split_ifs at h
    unfold busMessageParseFields at h
    split at h
    · exact absurd h (by simp)
    · rename_i P hP
      split_ifs at h
      obtain rfl := (Except.ok.inj h).symm
      have hok := parseFieldsLoop_sigOk hP (by intro s hs; exact absurd hs (by simp))
      refine ⟨⟨P, hok, ?_⟩, ?_, fun ht => ?_⟩
      · unfold parsedMessage
        split_ifs
        · obtain ⟨⟨em, hrew⟩, -⟩ := readErrorMessage_rewind
            { endian := e, header := P.header, body := _, root := { signature := P.signature },
              fds := fds }
          rw [hrew]
          rfl
        · rfl
      · unfold parsedMessage
        split_ifs
        · obtain ⟨⟨em, hrew⟩, -⟩ := readErrorMessage_rewind
            { endian := e, header := P.header, body := _, root := { signature := P.signature },
              fds := fds }
          rw [hrew]
          rfl
        · rfl
      · unfold parsedMessage at ht ⊢
        split_ifs with hm
        · rw [if_pos hm, (readErrorMessage_rewind _).2] at ht
          exact absurd hm ht
        · rfl

/-! ## Decoding and encoding again -/

structure Decoded (r : Received) (vs : List Val) (r' : Received) : Prop where
  signature : Ty.sigs (Val.tys vs) = strempty (sdBusMessageRewind r).root.signature
  stands : Val.AllStand r.endian r.body vs 0
  readable : Val.AllReadable r.endian 0 vs 0 0
  consumed : r'.rindex = (Val.encs r.endian vs 0).length

theorem expecting_rewind {b : Bytes} {r : Received} (h : busMessageFromMalloc b [] = .ok r) :
    ∃ ts, (sdBusMessageRewind r).Expecting ts := by
  obtain ⟨⟨P, hok, hroot⟩, -, -⟩ := fromMalloc_rewind h
  have hlast : (sdBusMessageRewind r).last = { signature := P.signature } := hroot
  have hne : (0 : UInt8) ≠ sdBusTypeArray := by decide
  cases hs : P.signature with
  | none =>
    refine ⟨[], ⟨fun ha => ?_, ?_, by simp⟩⟩
    · rw [hlast] at ha
      exact absurd ha hne
    · rw [hlast, hs]
      rfl
  | some s =>
    obtain ⟨h0, hv, -⟩ := hok s hs
    obtain ⟨ts, rfl, hfit, hlen⟩ := (signatureIsValid_iff h0 true).mp hv
    refine ⟨ts, ⟨fun ha => ?_, ?_, fun t ht => ⟨hfit t ht, (Ty.sig_length_le ht).trans hlen⟩⟩⟩
    · rw [hlast] at ha
      exact absurd ha hne
    · rw [hlast, hs]
      rfl

theorem ReadTo.decoded {r r' : Received} {vs : List Val} {items : List Item}
    (hfds : (sdBusMessageRewind r).fds = [])
    (hroot : (sdBusMessageRewind r).root.enclosing = 0)
    (h : ReadTo (sdBusMessageRewind r) vs items r') : Decoded r vs r' := by
  have hne : (sdBusMessageRewind r).last.enclosing ≠ sdBusTypeArray := by
    change (sdBusMessageRewind r).root.enclosing ≠ sdBusTypeArray
    rw [hroot]
    decide
  have hread := h.readable
  rw [hfds] at hread
  refine ⟨(h.other hne).symm, h.stands, hread, ?_⟩
  rw [h.after, Received.behind, Received.moved_rindex]
  exact Nat.zero_add _

theorem Decoded.encs_eq {r r' : Received} {vs : List Val} (h : Decoded r vs r') :
    Val.encs r.endian vs 0 =
      (normaliseBooleans r.endian r.body (Val.allBoolWords r.endian vs 0)).take r'.rindex := by
  rw [h.stands.normalise fun v _ bs p hv => hv.normalise, h.consumed, patch, List.take_zero,
    List.nil_append, List.take_left]

theorem runs_allOps {m m' : Message} {e : Endian} {dup : Nat → Except Errno Nat} {vs : List Val}
    (hm : m.Fresh) (hc : ∀ v ∈ vs, v.Clean) (hr : Val.AllReadable e 0 vs 0 0)
    (h : Runs m (Item.allOps dup (Val.items [] vs)) m') :
    m'.endian = m.endian ∧ strempty m'.root.signature = Ty.sigs (Val.tys vs) ∧
      m'.body = Val.encs m'.endian vs 0 := by
  obtain ⟨T, hsteps, inv, -⟩ := hm.winv.runs h
  have hsteps' := Tree.steps_allOps dup hc hr (fun v _ p d hr hc T => Tree.steps_ops hr hc T)
    Tree.empty
  obtain rfl := hsteps.unique hsteps'
  have hT : Tree.empty.pushAll vs = ⟨vs, [], []⟩ := Tree.pushAll_root [] [] vs
  rw [hT] at inv
  refine ⟨?_, ?_, ?_⟩
  · exact hm.winv.runs_endian h
  · rcases inv.sigs.current with ⟨-, -, -, -, hsig, -⟩ | ⟨c, cs, f, fs, -, hfs, -⟩
    · exact hsig
    · exact absurd hfs (by simp)
  · rw [inv.body_eq]
    rfl

/-- A message that was accepted, traversed from its start. A full traversal succeeds only on
values that stand in the body as the wire format says, and a copy of it has the same signature
and the same body, the words of its booleans normalised. -/
theorem decoder_sound {b : Bytes} {r : Received} (h : busMessageFromMalloc b [] = .ok r) :
    (r.header.type ≠ sdBusMessageMethodError → sdBusMessageRewind r = r) ∧
    (∀ items r', ReadItems (sdBusMessageRewind r) items r' →
      ∃ vs, Decoded r vs r' ∧ items = Val.items [] vs) ∧
    ∀ (dup : Nat → Except Errno Nat) (fuel : Nat) (m m' : Message) (r' : Received) (x : Bool),
      m.Fresh → m.endian = r.endian →
      sdBusMessageCopy dup fuel m (sdBusMessageRewind r) true = (.ok x, m', r') →
      ∃ vs, Decoded r vs r' ∧
        strempty m'.root.signature = strempty (sdBusMessageRewind r).root.signature ∧
        m'.body =
          (normaliseBooleans r.endian r.body (Val.allBoolWords r.endian vs 0)).take r'.rindex := by
  obtain ⟨⟨P, -, hroot⟩, hfds, hrew⟩ := fromMalloc_rewind h
  obtain ⟨ts, hexp⟩ := expecting_rewind h
  have hzero : (sdBusMessageRewind r).root.enclosing = 0 := by rw [hroot]
  refine ⟨hrew, fun items r' hread => ?_, fun dup fuel m m' r' x hm hend hcopy => ?_⟩
  · obtain ⟨vs, hvs⟩ := hread.sound hexp
    have hitems := hvs.items
    rw [hfds] at hitems
    exact ⟨vs, hvs.decoded hfds hzero, hitems⟩
  · unfold sdBusMessageCopy at hcopy
    by_cases hsealed : m.sealed = true
    · rw [if_pos hsealed] at hcopy
      exact absurd hcopy (by simp)
    rw [if_neg hsealed] at hcopy
    obtain ⟨items, hread, hruns⟩ := copyLoop_spec hcopy
    obtain ⟨vs, hvs⟩ := hread.sound hexp
    have hdec := hvs.decoded hfds hzero
    have hitems := hvs.items
    rw [hfds] at hitems
    rw [hitems] at hruns
    obtain ⟨hend', hsig, hbody⟩ := runs_allOps hm hvs.clean hdec.readable hruns
    refine ⟨vs, hdec, hsig.trans hdec.signature, ?_⟩
    rw [hbody, hend', hend]
    exact hdec.encs_eq

def twoSignal : Bytes :=
  [108, 4, 1, 1, 4, 0, 0, 0, 1, 0, 0, 0, 55, 0, 0, 0,
    1, 1, 111, 0, 1, 0, 0, 0, 47, 0, 0, 0, 0, 0, 0, 0,
    2, 1, 115, 0, 3, 0, 0, 0, 97, 46, 98, 0, 0, 0, 0, 0,
    3, 1, 115, 0, 1, 0, 0, 0, 99, 0, 0, 0, 0, 0, 0, 0,
    8, 1, 103, 0, 1, 98, 0, 0, 2, 0, 0, 0]

theorem decoder_sound_twoSignal : ∃ r m' r' vs, busMessageFromMalloc twoSignal [] = .ok r ∧
    sdBusMessageCopy .ok 2 blankSignal (sdBusMessageRewind r) true = (.ok true, m', r') ∧
    Decoded r vs r' ∧ r.body = [2, 0, 0, 0] ∧ m'.body = [1, 0, 0, 0] := by
  have h : (busMessageFromMalloc twoSignal []).toOption.any (fun r =>
      decide (r.endian = .little) && decide (r.body = [2, 0, 0, 0]) &&
        (let c := sdBusMessageCopy .ok 2 blankSignal (sdBusMessageRewind r) true
        decide (c.1.toOption = some true) && decide (c.2.1.body = [1, 0, 0, 0]))) = true := by
    decide +kernel
  cases hr : busMessageFromMalloc twoSignal [] with
  | error e => rw [hr] at h; exact absurd h (by simp [Except.toOption])
  | ok r =>
    rcases hc : sdBusMessageCopy .ok 2 blankSignal (sdBusMessageRewind r) true with ⟨c, m', r'⟩
    rw [hr] at h
    simp only [Except.toOption, Option.any_some, hc, Bool.and_eq_true, decide_eq_true_eq] at h
    obtain ⟨⟨hend, hbody⟩, hok, hbody'⟩ := h
    cases c with
    | error e => exact absurd hok (by simp)
    | ok x =>
      obtain rfl : x = true := by simpa using hok
      obtain ⟨vs, hdec, -, -⟩ := (decoder_sound hr).2.2 _ _ _ _ _ _ blankSignal_fresh
        (by rw [hend]; rfl) hc
      exact ⟨r, m', r', vs, rfl, hc, hdec, hbody, hbody'⟩

/-- The copy of an error starts behind its message, so its signature is another one. -/
theorem not_copied_sampleError :
    ¬ ∀ (b : Bytes) (r : Received) (dup : Nat → Except Errno Nat) (fuel : Nat) (m m' : Message)
      (r' : Received) (x : Bool), busMessageFromMalloc b [] = .ok r → m.Fresh →
      m.endian = r.endian → sdBusMessageCopy dup fuel m r true = (.ok x, m', r') →
      strempty m'.root.signature = strempty r.root.signature := by
  intro hall
  have h : (buildAndSeal sampleError [] 1).any (fun p =>
      (busMessageFromMalloc p.2.blob []).toOption.any (fun r =>
        decide (r.endian = .little) && decide ((sdBusMessagePeekType r).toOption = some none) &&
          decide (strempty r.root.signature = [sdBusTypeString]))) = true := by
    decide +kernel
  obtain ⟨_, _, s, -, -, -, hP⟩ := buildAndSeal_any h
  cases hr : busMessageFromMalloc s.blob [] with
  | error e => rw [hr] at hP; exact absurd hP (by simp [Except.toOption])
  | ok r =>
    rw [hr] at hP
    simp only [Except.toOption, Option.any_some, Bool.and_eq_true, decide_eq_true_eq] at hP
    obtain ⟨⟨hend, hpeek⟩, hsig⟩ := hP
    have hcopy : sdBusMessageCopy .ok 1 blankSignal r true = (.ok false, blankSignal, r) := by
      have hnone : sdBusMessagePeekType r = .ok none := by
        cases hp : sdBusMessagePeekType r with
        | error e => rw [hp] at hpeek; exact absurd hpeek (by simp)
        | ok y => rw [hp] at hpeek; simpa using hpeek
      have hsealed : blankSignal.sealed = false := rfl
      simp only [sdBusMessageCopy, hsealed, copyLoop, hnone, Bool.false_eq_true, if_false]
    have := hall _ r _ _ _ _ _ _ hr blankSignal_fresh (by rw [hend]; rfl) hcopy
    rw [hsig] at this
    exact absurd this (by decide)

end Basu
