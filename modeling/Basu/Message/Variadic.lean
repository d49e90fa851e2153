import Basu.Message.Bulk
import Basu.Message.RoundTrip

/-! `sd_bus_message_appendv` and `sd_bus_message_readv`: a loop over a type string with a stack of
its own, and the recursion over the arguments that it stands for. Both functions are the same loop
over three calls on a message, so what the loop does is said once. -/

namespace Basu
open Lib

/-- What `va_arg` yields. An `int` that is a descriptor comes with the answer to its duplication,
a place that a value is read to is only a pointer. -/
inductive VaArg
  | int (x : BitVec 32)
  | long (x : BitVec 64)
  | double (x : BitVec 64)
  | string (s : Option CStr)
  | fd (fd : Int) (dup : Except Errno Nat)
  | pointer

def noArray : Nat := uint32Max

structure TypeStack where
  types : Str
  nStruct : Nat
  nArray : Nat

def typeStackPush (stack : List TypeStack) (types : Str) (nStruct nArray : Nat) :
    Except Errno (List TypeStack) :=
  if busContainerDepth ≤ stack.length then .error .einval
  else .ok (⟨types, nStruct, nArray⟩ :: stack)

section
variable {σ : Type}

inductive CallResult (σ : Type)
  | ok (s : σ)
  | atEnd (s : σ)
  | error (r : Errno) (s : σ)

/-- The three calls of the loop. The one on a basic value is undefined on an argument of another
type. -/
structure Codec (σ : Type) where
  basic : σ → Basic → VaArg → Option (CallResult σ)
  openContainer : σ → UInt8 → Str → CallResult σ
  closeContainer : σ → CallResult σ

structure Variadic (σ : Type) where
  state : σ
  ap : List VaArg
  types : Str
  nStruct : Nat
  nArray : Nat := noArray
  stack : List TypeStack := []
  nLoop : Nat := 0

abbrev Returned (σ : Type) := Except Errno Nat × σ × List VaArg

inductive Turn (σ : Type)
  | next (v : Variadic σ)
  | done (r : Returned σ)

def Variadic.follow (v : Variadic σ) (o : CallResult σ) (f : σ → Option (Turn σ)) :
    Option (Turn σ) :=
  match o with
  | .ok s => f s
  | .atEnd s => some (.done (if v.nLoop ≤ 1 then .ok 0 else .error .enxio, s, v.ap))
  | .error r s => some (.done (.error r, s, v.ap))

def Variadic.skip (v : Variadic σ) (k : Nat) : Variadic σ :=
  if v.nArray = noArray then { v with types := v.types.drop k, nStruct := v.nStruct - k } else v

def Variadic.take (v : Variadic σ) : Variadic σ :=
  if v.nArray ≠ noArray then { v with nArray := v.nArray - 1 } else v.skip 1

def Variadic.push (v : Variadic σ) (types : Str) (nStruct nArray : Nat) : Turn σ :=
  match typeStackPush v.stack v.types v.nStruct v.nArray with
  | .error r => .done (.error r, v.state, v.ap)
  | .ok stack => .next { v with
      types := types
      nStruct := nStruct
      nArray := nArray
      stack := stack }

/-- The `switch` on the character `*t`; `none` where `va_arg` is undefined. -/
def Codec.turn (c : Codec σ) (t : Str) (v : Variadic σ) : Option (Turn σ) :=
  match Basic.ofCode (charAt t 0) with
  | some b =>
    match v.ap with
    | [] => none
    | a :: ap => do
      let o ← c.basic v.state b a
      let v := { v with ap := ap }
      v.follow o fun s => some (.next { v with state := s })
  | none =>
    if charAt t 0 = sdBusTypeArray then
      match signatureElementLength (t.drop 1) with
      | none => some (.done (.error .einval, v.state, v.ap))
      | some k =>
        v.follow (c.openContainer v.state sdBusTypeArray ((t.drop 1).take k)) fun s =>
          let v := { v with state := s }.skip k
          match typeStackPush v.stack v.types v.nStruct v.nArray, v.ap with
          | .error r, _ => some (.done (.error r, v.state, v.ap))
          | .ok stack, .int n :: ap => some <| .next { v with
              ap := ap
              types := t.drop 1
              nStruct := k
              nArray := n.toNat
              stack := stack }
          | _, _ => none
    else if charAt t 0 = sdBusTypeVariant then
      match v.ap with
      | .string none :: ap => some (.done (.error .einval, v.state, ap))
      | .string (some s) :: ap =>
        let v := { v with ap := ap }
        v.follow (c.openContainer v.state sdBusTypeVariant s.1) fun st =>
          some ({ v with state := st }.push s.1 s.1.length noArray)
      | _ => none
    else if charAt t 0 = sdBusTypeStructBegin ∨ charAt t 0 = sdBusTypeDictEntryBegin then
      match signatureElementLength t with
      | none => some (.done (.error .einval, v.state, v.ap))
      | some k =>
        let type := if charAt t 0 = sdBusTypeStructBegin then sdBusTypeStruct
          else sdBusTypeDictEntry
        v.follow (c.openContainer v.state type ((t.drop 1).take (k - 2))) fun s =>
          some (({ v with state := s }.skip (k - 1)).push (t.drop 1) (k - 2) noArray)
    else some (.done (.error .einval, v.state, v.ap))

def Codec.step (c : Codec σ) (v : Variadic σ) : Option (Turn σ) :=
  let v := { v with nLoop := v.nLoop + 1 }
  if v.nArray = 0 ∨ (v.nArray = noArray ∧ v.nStruct = 0) then
    match v.stack with
    | [] => some (.done (.ok 1, v.state, v.ap))
    | top :: stack =>
      v.follow (c.closeContainer v.state) fun s => some <| .next { v with
        state := s
        types := top.types
        nStruct := top.nStruct
        nArray := top.nArray
        stack := stack }
  else c.turn v.types v.take

def Codec.run (c : Codec σ) : Nat → Variadic σ → Option (Returned σ)
  | 0, _ => none
  | fuel + 1, v =>
    match c.step v with
    | none => none
    | some (.done r) => some r
    | some (.next v) => c.run fuel v

end

/-- The argument of `append_basic` that is made of a variadic one. -/
def Basic.arg : Basic → VaArg → Option BasicArg
  | .num .byte, .int x => some (.num .byte (x.setWidth 8))
  | .num .int16, .int x => some (.num .int16 (x.setWidth 16))
  | .num .uint16, .int x => some (.num .uint16 (x.setWidth 16))
  | .num .int32, .int x => some (.num .int32 x)
  | .num .uint32, .int x => some (.num .uint32 x)
  | .num .int64, .long x => some (.num .int64 x)
  | .num .uint64, .long x => some (.num .uint64 x)
  | .num .double, .double x => some (.num .double x)
  | .boolean, .int x => some (.boolean (some x.toInt))
  | .string, .string s => some (.string s)
  | .objectPath, .string s => some (.objectPath s)
  | .signature, .string s => some (.signature s)
  | .unixFd, .fd fd dup => some (.unixFd (some fd) dup)
  | _, _ => none

def CallResult.ofCall : Except Errno Unit × Message → CallResult Message
  | (.ok (), m) => .ok m
  | (.error r, m) => .error r m

def appendCodec : Codec Message where
  basic m b a := (b.arg a).map fun p => .ofCall (messageAppendBasic m p)
  openContainer m type contents := .ofCall (sdBusMessageOpenContainer m type contents)
  closeContainer m := .ofCall (sdBusMessageCloseContainer m)

/-- `sd_bus_message_appendv`, for a number of turns of its loop. -/
def sdBusMessageAppendv (fuel : Nat) (m : Message) (types : CStr) (ap : List VaArg) :
    Option (Returned Message) :=
  if m.sealed then some (.error .eperm, m, ap)
  else if m.poisoned then some (.error .estale, m, ap)
  else appendCodec.run fuel
    { state := m, ap := ap, types := types.1, nStruct := types.1.length }

structure Reading where
  m : Received
  out : List BasicVal := []

def readCodec : Codec Reading where
  basic s b
    | .pointer => some <|
      match sdBusMessageReadBasic s.m b.code with
      | .error r => .error r s
      | .ok (none, m) => .atEnd { s with m := m }
      | .ok (some v, m) => .ok ⟨m, s.out ++ [v]⟩
    | _ => none
  openContainer s type contents :=
    match sdBusMessageEnterContainer s.m type contents with
    | .error r => .error r s
    | .ok (false, m) => .atEnd { s with m := m }
    | .ok (true, m) => .ok { s with m := m }
  closeContainer s :=
    match sdBusMessageExitContainer s.m with
    | .error r => .error r s
    | .ok m => .ok { s with m := m }

/-- `sd_bus_message_readv`, for a number of turns of its loop. -/
def sdBusMessageReadv (fuel : Nat) (m : Received) (types : CStr) (ap : List VaArg) :
    Option (Returned Reading) :=
  if types.1 = [] then some (.ok 0, ⟨m, []⟩, ap)
  else readCodec.run fuel
    { state := ⟨m, []⟩, ap := ap, types := types.1, nStruct := types.1.length }

/-- Arguments in the shape their type string asks for. -/
inductive VaTree
  | basic (b : Basic) (a : VaArg)
  | container (k : Kind) (xs : List VaTree)

def VaTree.ty : VaTree → Ty
  | .basic b _ => .basic b
  | .container k _ => k.ty

def VaTree.tys (xs : List VaTree) : List Ty := xs.map VaTree.ty

/-- The argument that stands for the container itself: the count of an array, the signature of
a variant. -/
def Kind.vaArgs (k : Kind) (n : Nat) : List VaArg :=
  match k with
  | .array _ => [.int (BitVec.ofNat 32 n)]
  | .variant t => [.string (some ⟨t.sig, t.zero_notMem_sig⟩)]
  | _ => []

mutual

def VaTree.args : VaTree → List VaArg
  | .basic _ a => [a]
  | .container k xs => k.vaArgs xs.length ++ VaTree.argsAll xs

def VaTree.argsAll : List VaTree → List VaArg
  | [] => []
  | x :: xs => x.args ++ VaTree.argsAll xs

end

mutual

def VaTree.depth : VaTree → Nat
  | .basic _ _ => 0
  | .container _ xs => VaTree.depthAll xs + 1

def VaTree.depthAll : List VaTree → Nat
  | [] => 0
  | x :: xs => max x.depth (VaTree.depthAll xs)

end

mutual

def VaTree.turns : VaTree → Nat
  | .basic _ _ => 1
  | .container _ xs => VaTree.turnsAll xs + 2

def VaTree.turnsAll : List VaTree → Nat
  | [] => 0
  | x :: xs => x.turns + VaTree.turnsAll xs

end

/-- The contents of a container are those announced, and the count of an array is a count. -/
def Kind.Holds (k : Kind) (ts : List Ty) : Prop :=
  match k with
  | .array t => (∀ u ∈ ts, u = t) ∧ ts.length < noArray
  | .variant t => ts = [t] ∧ t.Fits false 0 0
  | k => ts = k.members

mutual

def VaTree.Matches : VaTree → Prop
  | .basic _ _ => True
  | .container k xs => k.Holds (VaTree.tys xs) ∧ VaTree.AllMatch xs

def VaTree.AllMatch : List VaTree → Prop
  | [] => True
  | x :: xs => x.Matches ∧ VaTree.AllMatch xs

end

section
variable {σ : Type}

inductive Traversed (σ : Type)
  | go (s : σ)
  | stop (r : Returned σ)

def CallResult.traversed (first : Bool) (ap : List VaArg) : CallResult σ → Traversed σ
  | .ok s => .go s
  | .atEnd s => .stop (if first then .ok 0 else .error .enxio, s, ap)
  | .error r s => .stop (.error r, s, ap)

def Kind.countArgs (k : Kind) (n : Nat) : List VaArg := if k.isArray then k.vaArgs n else []

mutual

def Codec.walk (c : Codec σ) (first : Bool) (s : σ) : VaTree → List VaArg → Option (Traversed σ)
  | .basic b a, after => (c.basic s b a).map (CallResult.traversed first after)
  | .container k xs, after =>
    match (c.openContainer s k.enclosing k.contents).traversed first
        (k.countArgs xs.length ++ (VaTree.argsAll xs ++ after)) with
    | .stop r => some (.stop r)
    | .go s =>
      match c.walkAll false s xs after with
      | none => none
      | some (.stop r) => some (.stop r)
      | some (.go s) => some ((c.closeContainer s).traversed false after)

def Codec.walkAll (c : Codec σ) (first : Bool) (s : σ) :
    List VaTree → List VaArg → Option (Traversed σ)
  | [], _ => some (.go s)
  | x :: xs, after =>
    match c.walk first s x (VaTree.argsAll xs ++ after) with
    | none => none
    | some (.stop r) => some (.stop r)
    | some (.go s) => c.walkAll false s xs after

end

def Codec.resume (c : Codec σ) (fuel : Nat) (w : Option (Traversed σ)) (f : σ → Variadic σ) :
    Option (Returned σ) :=
  match w with
  | none => none
  | some (.stop r) => some r
  | some (.go s) => c.run fuel (f s)

structure Variadic.Ready (v : Variadic σ) (u : Ty) (q : Str) : Prop where
  types : v.types = u.sig ++ q
  more : v.nArray ≠ 0
  room : v.nArray = noArray → 0 < v.nStruct
  count : v.nArray ≤ noArray

def Variadic.behind (v : Variadic σ) (u : Ty) : Variadic σ :=
  if v.nArray ≠ noArray then { v with nArray := v.nArray - 1 } else v.skip u.sig.length

theorem Variadic.take_skip (v : Variadic σ) {u : Ty} (h : v.nArray ≤ noArray) :
    v.take.skip (u.sig.length - 1) = v.behind u := by
  have hpos := u.sig_pos
  unfold take behind skip
  by_cases hn : v.nArray = noArray
  · simp only [hn, ne_eq, not_true_eq_false, if_false, if_true, List.drop_drop]
    rw [show 1 + (u.sig.length - 1) = u.sig.length by omega,
      show v.nStruct - 1 - (u.sig.length - 1) = v.nStruct - u.sig.length by omega]
  · have hne : v.nArray - 1 ≠ noArray := by omega
    simp only [ne_eq, hn, not_false_eq_true, if_true, hne, if_false]

theorem Variadic.take_basic (v : Variadic σ) {u : Ty} (h : u.sig.length = 1) :
    v.take = v.behind u := by
  unfold take behind
  rw [h]

theorem Codec.run_step (c : Codec σ) {v : Variadic σ} {u : Ty} {q : Str} (h : v.Ready u q)
    (fuel : Nat) :
    c.run (fuel + 1) v =
      match c.turn (u.sig ++ q) ({ v with nLoop := v.nLoop + 1 } : Variadic σ).take with
      | none => none
      | some (.done r) => some r
      | some (.next v) => c.run fuel v := by
  have hbusy : ¬ (v.nArray = 0 ∨ (v.nArray = noArray ∧ v.nStruct = 0)) := by
    rintro (h0 | ⟨hn, h0⟩)
    · exact h.more h0
    · exact absurd (h.room hn) (by omega)
  rw [run, step]
  simp only [if_neg hbusy, h.types]

theorem Variadic.behind_fields (v : Variadic σ) (u : Ty) (n : Nat) :
    ({ v with nLoop := n } : Variadic σ).behind u = { v.behind u with nLoop := n } ∧
      (v.behind u).state = v.state ∧ (v.behind u).ap = v.ap ∧ (v.behind u).stack = v.stack := by
  unfold behind skip
  split_ifs <;> exact ⟨rfl, rfl, rfl, rfl⟩

theorem Variadic.take_fields (v : Variadic σ) :
    v.take.state = v.state ∧ v.take.ap = v.ap ∧ v.take.stack = v.stack ∧
      v.take.nLoop = v.nLoop := by
  unfold take skip
  split_ifs <;> exact ⟨rfl, rfl, rfl, rfl⟩

theorem Variadic.follow_eq (v : Variadic σ) (o : CallResult σ) (f : σ → Option (Turn σ)) {n : Nat}
    (hn : v.nLoop = n + 1) :
    v.follow o f = match o.traversed (decide (n = 0)) v.ap with
      | .stop r => some (.done r)
      | .go s => f s := by
  cases o with
  | ok s => rfl
  | error r s => rfl
  | atEnd s =>
    simp only [follow, CallResult.traversed, hn, decide_eq_true_eq]
    by_cases h0 : n = 0
    · rw [if_pos (by omega), if_pos h0]
    · rw [if_neg (by omega), if_neg h0]

theorem Codec.run_basic (c : Codec σ) {v : Variadic σ} {b : Basic} {q : Str} {a : VaArg}
    {after : List VaArg} (h : v.Ready (.basic b) q) (hap : v.ap = a :: after) (fuel : Nat) :
    c.run (fuel + 1) v =
      c.resume fuel ((c.basic v.state b a).map (CallResult.traversed (decide (v.nLoop = 0)) after))
        fun s => { v.behind (.basic b) with
          state := s
          ap := after
          nLoop := v.nLoop + 1 } := by
  rw [c.run_step h, Variadic.take_basic _ (u := .basic b) (by rw [Ty.sig]; rfl),
    (v.behind_fields (.basic b) (v.nLoop + 1)).1]
  obtain ⟨-, hstate, hap', -⟩ := v.behind_fields (.basic b) 0
  unfold turn
  rw [Ty.charAt_sig_append, Ty.head, Basic.ofCode_code]
  simp only [hap', hap, hstate]
  cases c.basic v.state b a with
  | none => rfl
  | some o =>
    simp only [Option.bind_eq_bind, Option.bind_some, Option.map_some]
    rw [Variadic.follow_eq _ _ _ rfl]
    simp only [resume]
    cases o.traversed (decide (v.nLoop = 0)) after <;> rfl

theorem Variadic.skip_state (v : Variadic σ) (s : σ) (k : Nat) :
    ({ v with state := s } : Variadic σ).skip k = { v.skip k with state := s } := by
  unfold skip
  split_ifs <;> rfl

theorem Variadic.skip_fields (v : Variadic σ) (k : Nat) :
    (v.skip k).ap = v.ap ∧ (v.skip k).stack = v.stack ∧ (v.skip k).nLoop = v.nLoop := by
  unfold skip
  split_ifs <;> exact ⟨rfl, rfl, rfl⟩

theorem Variadic.skip_zero (v : Variadic σ) : v.skip 0 = v := by
  unfold skip
  split_ifs <;> rfl

def Kind.close (k : Kind) (q : Str) : Str :=
  match k with
  | .array _ => q
  | .variant _ => []
  | .struct _ => sdBusTypeStructEnd :: q
  | .dictEntry _ _ => sdBusTypeDictEntryEnd :: q

def Variadic.inside (v : Variadic σ) (k : Kind) (n : Nat) (s : σ) (ap : List VaArg) (q : Str) :
    Variadic σ where
  state := s
  ap := ap
  types := k.contents ++ k.close q
  nStruct := k.contents.length
  nArray := if k.isArray then n else noArray
  stack := ⟨v.types, v.nStruct, v.nArray⟩ :: v.stack
  nLoop := v.nLoop

theorem Codec.turn_open (c : Codec σ) {v : Variadic σ} {k : Kind} {n : Nat} {rest : List VaArg}
    (q : Str) {m : Nat} (hfit : k.ty.Fits true 0 0) (hn : k.isArray = true → n < 2 ^ 32)
    (hap : v.ap = k.vaArgs n ++ rest) (hdepth : v.stack.length < busContainerDepth)
    (hloop : v.nLoop = m + 1) :
    c.turn (k.ty.sig ++ q) v =
      match (c.openContainer v.state k.enclosing k.contents).traversed (decide (m = 0))
          (k.countArgs n ++ rest) with
      | .stop r => some (.done r)
      | .go s => some (.next ((v.skip (k.ty.sig.length - 1)).inside k n s rest q)) := by
  have hpush : ∀ {ts : Str} {a b : Nat}, typeStackPush v.stack ts a b =
      .ok (⟨ts, a, b⟩ :: v.stack) := by
    intro ts a b
    rw [typeStackPush, if_neg (by omega)]
  obtain ⟨hsap, hsstack, hsloop⟩ := v.skip_fields (k.ty.sig.length - 1)
  unfold turn
  cases k with
  | array t =>
    have ht := Fits_array_elem hfit
    have hsig : (Kind.array t).ty.sig ++ q = sdBusTypeArray :: (t.sig ++ q) := by
      rw [Kind.ty, Ty.sig]
      rfl
    have hlen : (Kind.array t).ty.sig.length - 1 = t.sig.length := by
      rw [Kind.ty, Ty.sig]
      rfl
    have hcode : Basic.ofCode sdBusTypeArray = none := by decide
    rw [hlen] at hsap hsstack hsloop ⊢
    rw [hsig, charAt_cons_zero, hcode]
    simp only [if_true, List.drop_one, List.tail_cons, signatureElementLength_sig q ht,
      List.take_left]
    rw [Variadic.follow_eq _ _ _ hloop]
    simp only [Variadic.skip_state, hsap, hsstack, hpush]
    simp only [hap, Kind.vaArgs, List.singleton_append, Kind.enclosing, Kind.contents,
      Kind.countArgs, Kind.isArray, if_true]
    cases (c.openContainer v.state sdBusTypeArray t.sig).traversed (decide (m = 0)) _ with
    | stop r => rfl
    | go s =>
      simp only [Variadic.inside, Kind.contents, Kind.isArray, Kind.close, if_true, hsstack,
        BitVec.toNat_ofNat, Nat.mod_eq_of_lt (hn rfl)]
  | variant t =>
    have hsig : (Kind.variant t).ty.sig ++ q = sdBusTypeVariant :: q := by
      rw [Kind.ty, Ty.sig]
      rfl
    have hlen : (Kind.variant t).ty.sig.length - 1 = 0 := by
      rw [Kind.ty, Ty.sig]
      rfl
    have hcode : Basic.ofCode sdBusTypeVariant = none := by decide
    have hne : sdBusTypeVariant ≠ sdBusTypeArray := by decide
    rw [hlen, Variadic.skip_zero, hsig, charAt_cons_zero, hcode]
    simp only [if_neg hne, if_true, hap, Kind.vaArgs, List.singleton_append]
    rw [Variadic.follow_eq _ _ _ (n := m) (by exact hloop)]
    simp only [Variadic.push, hpush, Kind.enclosing, Kind.contents, Kind.countArgs, Kind.isArray,
      Bool.false_eq_true, if_false, List.nil_append]
    cases (c.openContainer v.state sdBusTypeVariant t.sig).traversed (decide (m = 0)) rest with
    | stop r => rfl
    | go s =>
      simp only [Variadic.inside, Kind.contents, Kind.isArray, Kind.close, Bool.false_eq_true,
        if_false, List.append_nil]
  | struct ts =>
    have hsig : (Kind.struct ts).ty.sig ++ q =
        sdBusTypeStructBegin :: (Ty.sigs ts ++ sdBusTypeStructEnd :: q) := by
      rw [Kind.ty, Ty.sig]
      simp
    have hlen : (Kind.struct ts).ty.sig.length = (Ty.sigs ts).length + 2 := by
      rw [Kind.ty, Ty.sig]
      simp
    have hcode : Basic.ofCode sdBusTypeStructBegin = none := by decide
    have hna : sdBusTypeStructBegin ≠ sdBusTypeArray := by decide
    have hnv : sdBusTypeStructBegin ≠ sdBusTypeVariant := by decide
    have hscan := signatureElementLength_sig q hfit
    rw [hsig, hlen] at hscan
    rw [hlen] at hsap hsstack hsloop ⊢
    rw [hsig, charAt_cons_zero, hcode]
    simp only [if_neg hna, if_neg hnv, true_or, if_true, hscan, List.drop_one, List.tail_cons,
      Nat.add_sub_cancel, List.take_left]
    rw [Variadic.follow_eq _ _ _ hloop]
    simp only [Variadic.push, Variadic.skip_state, hsap, hsstack, hpush]
    simp only [hap, Kind.enclosing, Kind.contents, Kind.countArgs, Kind.isArray, Kind.vaArgs,
      Bool.false_eq_true, if_false, List.nil_append]
    cases (c.openContainer v.state sdBusTypeStruct (Ty.sigs ts)).traversed (decide (m = 0)) rest with
    | stop r => rfl
    | go s =>
      simp only [Variadic.inside, Kind.contents, Kind.isArray, Kind.close, Bool.false_eq_true,
        if_false, hsstack]
  | dictEntry b t =>
    have hsig : (Kind.dictEntry b t).ty.sig ++ q =
        sdBusTypeDictEntryBegin :: ((b.code :: t.sig) ++ sdBusTypeDictEntryEnd :: q) := by
      rw [Kind.ty, Ty.sig]
      simp
    have hlen : (Kind.dictEntry b t).ty.sig.length = (b.code :: t.sig).length + 2 := by
      rw [Kind.ty, Ty.sig]
      simp
    have hcode : Basic.ofCode sdBusTypeDictEntryBegin = none := by decide
    have hna : sdBusTypeDictEntryBegin ≠ sdBusTypeArray := by decide
    have hnv : sdBusTypeDictEntryBegin ≠ sdBusTypeVariant := by decide
    have hns : sdBusTypeDictEntryBegin ≠ sdBusTypeStructBegin := by decide
    have hscan := signatureElementLength_sig q hfit
    rw [hsig, hlen] at hscan
    rw [hlen] at hsap hsstack hsloop ⊢
    rw [hsig, charAt_cons_zero, hcode]
    simp only [if_neg hna, if_neg hnv, or_true, if_true, hscan, List.drop_one, List.tail_cons,
      Nat.add_sub_cancel, List.take_left, if_neg hns]
    rw [Variadic.follow_eq _ _ _ hloop]
    simp only [Variadic.push, Variadic.skip_state, hsap, hsstack, hpush]
    simp only [hap, Kind.enclosing, Kind.contents, Kind.countArgs, Kind.isArray, Kind.vaArgs,
      Bool.false_eq_true, if_false, List.nil_append]
    cases (c.openContainer v.state sdBusTypeDictEntry (b.code :: t.sig)).traversed
        (decide (m = 0)) rest with
    | stop r => rfl
    | go s =>
      simp only [Variadic.inside, Kind.contents, Kind.isArray, Kind.close, Bool.false_eq_true,
        if_false, hsstack]

theorem Codec.run_close (c : Codec σ) {v : Variadic σ} {top : TypeStack} {stack : List TypeStack}
    (hend : v.nArray = 0 ∨ (v.nArray = noArray ∧ v.nStruct = 0)) (hstack : v.stack = top :: stack)
    (fuel : Nat) :
    c.run (fuel + 1) v =
      c.resume fuel (some ((c.closeContainer v.state).traversed (decide (v.nLoop = 0)) v.ap))
        fun s => { v with
          state := s
          types := top.types
          nStruct := top.nStruct
          nArray := top.nArray
          stack := stack
          nLoop := v.nLoop + 1 } := by
  rw [run, step]
  simp only [if_pos hend, hstack]
  rw [Variadic.follow_eq _ _ _ rfl]
  simp only [resume]
  cases (c.closeContainer v.state).traversed (decide (v.nLoop = 0)) v.ap <;> rfl

theorem VaTree.turns_pos (x : VaTree) : 0 < x.turns := by
  cases x <;> simp [turns]

def Codec.Follows (c : Codec σ) (x : VaTree) : Prop :=
  ∀ (v : Variadic σ) (q : Str) (after : List VaArg) (fuel : Nat), v.Ready x.ty q →
    v.ap = x.args ++ after → v.stack.length + x.depth ≤ busContainerDepth →
    c.run (x.turns + fuel) v =
      c.resume fuel (c.walk (decide (v.nLoop = 0)) v.state x after) fun s =>
        { v.behind x.ty with
          state := s
          ap := after
          nLoop := v.nLoop + x.turns }

theorem Codec.run_struct (c : Codec σ) (xs : List VaTree) (hxs : ∀ x ∈ xs, c.Follows x)
    (v : Variadic σ) (q : Str) (n : Nat) (after : List VaArg) (fuel : Nat)
    (htypes : v.types = Ty.sigs (VaTree.tys xs) ++ q) (harray : v.nArray = noArray)
    (hstruct : v.nStruct = (Ty.sigs (VaTree.tys xs)).length + n)
    (hap : v.ap = VaTree.argsAll xs ++ after)
    (hdepth : v.stack.length + VaTree.depthAll xs ≤ busContainerDepth) :
    c.run (VaTree.turnsAll xs + fuel) v =
      c.resume fuel (c.walkAll (decide (v.nLoop = 0)) v.state xs after) fun s =>
        { v with
          state := s
          ap := after
          types := q
          nStruct := n
          nLoop := v.nLoop + VaTree.turnsAll xs } := by
  induction xs generalizing v with
  | nil =>
    simp only [VaTree.tys, List.map_nil, Ty.sigs, List.nil_append, List.length_nil,
      Nat.zero_add, VaTree.argsAll] at htypes hstruct hap
    rw [VaTree.turnsAll, Nat.zero_add, walkAll, resume, ← htypes, ← hstruct, ← hap]
    rfl
  | cons x xs ih =>
    simp only [VaTree.tys, List.map_cons, Ty.sigs, List.append_assoc, List.length_append]
      at htypes hstruct
    rw [VaTree.argsAll, List.append_assoc] at hap
    rw [VaTree.depthAll] at hdepth
    have hpos := x.ty.sig_pos
    have hready : v.Ready x.ty (Ty.sigs (xs.map VaTree.ty) ++ q) :=
      ⟨htypes, by rw [harray]; decide, fun _ => by omega, harray.le⟩
    rw [VaTree.turnsAll, Nat.add_assoc, hxs x (by simp) v _ _ _ hready hap (by omega), walkAll]
    have hx := x.turns_pos
    cases hw : c.walk (decide (v.nLoop = 0)) v.state x (VaTree.argsAll xs ++ after) with
    | none => rfl
    | some w =>
      cases w with
      | stop r => rfl
      | go s =>
        rw [resume]
        have hbehind : v.behind x.ty = { v with
            types := Ty.sigs (xs.map VaTree.ty) ++ q
            nStruct := (Ty.sigs (xs.map VaTree.ty)).length + n } := by
          rw [Variadic.behind, if_neg (not_not.mpr harray), Variadic.skip, if_pos harray, htypes,
            List.drop_left, hstruct]
          congr 1
          omega
        have hrest := ih (fun y hy => hxs y (List.mem_cons_of_mem _ hy))
          { v with
            state := s
            ap := VaTree.argsAll xs ++ after
            types := Ty.sigs (xs.map VaTree.ty) ++ q
            nStruct := (Ty.sigs (xs.map VaTree.ty)).length + n
            nLoop := v.nLoop + x.turns } rfl harray rfl rfl (by simp only; omega)
        rw [hbehind]
        refine hrest.trans ?_
        simp only [show ¬ v.nLoop + x.turns = 0 by omega, decide_false, Nat.add_assoc, resume]

theorem Codec.run_array (c : Codec σ) {t : Ty} (xs : List VaTree) (hxs : ∀ x ∈ xs, c.Follows x)
    (ht : ∀ u ∈ VaTree.tys xs, u = t) (v : Variadic σ) (q : Str) (n : Nat)
    (after : List VaArg) (fuel : Nat) (htypes : v.types = t.sig ++ q)
    (harray : v.nArray = xs.length + n) (hcount : v.nArray < noArray)
    (hap : v.ap = VaTree.argsAll xs ++ after)
    (hdepth : v.stack.length + VaTree.depthAll xs ≤ busContainerDepth) :
    c.run (VaTree.turnsAll xs + fuel) v =
      c.resume fuel (c.walkAll (decide (v.nLoop = 0)) v.state xs after) fun s =>
        { v with
          state := s
          ap := after
          nArray := n
          nLoop := v.nLoop + VaTree.turnsAll xs } := by
  induction xs generalizing v with
  | nil =>
    rw [List.length_nil, Nat.zero_add] at harray
    rw [VaTree.argsAll, List.nil_append] at hap
    rw [VaTree.turnsAll, Nat.zero_add, walkAll, resume, ← harray, ← hap]
    rfl
  | cons x xs ih =>
    rw [List.length_cons] at harray
    rw [VaTree.argsAll, List.append_assoc] at hap
    rw [VaTree.depthAll] at hdepth
    have hxt : x.ty = t := ht x.ty (by simp [VaTree.tys])
    have hready : v.Ready x.ty q := ⟨by rw [hxt]; exact htypes, by omega, fun h => by omega, hcount.le⟩
    rw [VaTree.turnsAll, Nat.add_assoc, hxs x (by simp) v _ _ _ hready hap (by omega), walkAll]
    have hx := x.turns_pos
    cases hw : c.walk (decide (v.nLoop = 0)) v.state x (VaTree.argsAll xs ++ after) with
    | none => rfl
    | some w =>
      cases w with
      | stop r => rfl
      | go s =>
        rw [resume]
        have hbehind : v.behind x.ty = { v with nArray := xs.length + n } := by
          rw [Variadic.behind, if_pos (by omega), harray]
          congr 1
          omega
        have hrest := ih (fun y hy => hxs y (List.mem_cons_of_mem _ hy))
          (fun u hu => ht u (List.mem_cons_of_mem _ hu))
          { v with
            state := s
            ap := VaTree.argsAll xs ++ after
            nArray := xs.length + n
            nLoop := v.nLoop + x.turns } htypes rfl (by simp only; omega) rfl (by simp only; omega)
        rw [hbehind]
        refine hrest.trans ?_
        simp only [show ¬ v.nLoop + x.turns = 0 by omega, decide_false, Nat.add_assoc, resume]

mutual

theorem VaTree.induct_one {P : VaTree → Prop} (basic : ∀ b a, P (.basic b a))
    (container : ∀ k xs, (∀ x ∈ xs, P x) → P (.container k xs)) : ∀ x, P x
  | .basic b a => basic b a
  | .container k xs => container k xs (VaTree.induct_all basic container xs)

theorem VaTree.induct_all {P : VaTree → Prop} (basic : ∀ b a, P (.basic b a))
    (container : ∀ k xs, (∀ x ∈ xs, P x) → P (.container k xs)) :
    ∀ xs : List VaTree, ∀ x ∈ xs, P x
  | [] => by simp
  | x :: xs => by
    simpa using ⟨VaTree.induct_one basic container x, VaTree.induct_all basic container xs⟩

end

@[elab_as_elim]
theorem VaTree.induct {P : VaTree → Prop} (x : VaTree) (basic : ∀ b a, P (.basic b a))
    (container : ∀ k xs, (∀ x ∈ xs, P x) → P (.container k xs)) : P x :=
  VaTree.induct_one basic container x

theorem VaTree.allMatch_iff {xs : List VaTree} :
    VaTree.AllMatch xs ↔ ∀ x ∈ xs, x.Matches := by
  induction xs with
  | nil => simp [AllMatch]
  | cons x xs ih => simp [AllMatch, ih]

theorem Kind.Holds.fits {k : Kind} {ts : List Ty} (h : k.Holds ts) (hfit : k.ty.Fits true 0 0) :
    ∀ u ∈ ts, u.Fits true 0 0 := by
  intro u hu
  cases k with
  | array t =>
    rw [h.1 u hu]
    exact Fits_array_elem hfit
  | variant t =>
    obtain ⟨rfl, ht⟩ := h
    rw [List.mem_singleton.mp hu]
    exact ht.mono (by simp) (Nat.le_refl 0) (Nat.le_refl 0)
  | struct ts' =>
    obtain rfl : ts = ts' := h
    exact (Fits_struct_members hfit u hu).mono (by simp) (Nat.le_refl 0) (Nat.le_refl 0)
  | dictEntry b t =>
    obtain rfl : ts = [.basic b, t] := h
    rcases List.mem_cons.mp hu with rfl | hu
    · rw [Ty.Fits]
      trivial
    · rw [List.mem_singleton.mp hu]
      rw [Kind.ty, Ty.Fits] at hfit
      exact hfit.2.2.mono (by simp) (Nat.le_refl 0) (by omega)

theorem Kind.Holds.contents {k : Kind} {ts : List Ty} (h : k.Holds ts) (hk : k.isArray = false) :
    k.contents = Ty.sigs ts := by
  cases k with
  | array t => exact absurd hk (by simp [Kind.isArray])
  | variant t =>
    obtain ⟨rfl, -⟩ := h
    exact (Ty.sigs_singleton t).symm
  | struct ts' =>
    obtain rfl : ts = ts' := h
    rfl
  | dictEntry b t =>
    obtain rfl : ts = [.basic b, t] := h
    simp [Kind.contents, Ty.sigs, Ty.sig]

theorem Codec.run_inside (c : Codec σ) {v : Variadic σ} {k : Kind} {xs : List VaTree}
    (hholds : k.Holds (VaTree.tys xs)) (hxs : ∀ x ∈ xs, c.Follows x) (s : σ)
    (after : List VaArg) (q : Str) (fuel : Nat)
    (hdepth : v.stack.length + 1 + VaTree.depthAll xs ≤ busContainerDepth)
    (hloop : v.nLoop ≠ 0) :
    c.run (VaTree.turnsAll xs + (fuel + 1))
        (v.inside k xs.length s (VaTree.argsAll xs ++ after) q) =
      match c.walkAll false s xs after with
      | none => none
      | some (.stop r) => some r
      | some (.go s) =>
        c.resume fuel (some ((c.closeContainer s).traversed false after)) fun s => { v with
          state := s
          ap := after
          nLoop := v.nLoop + VaTree.turnsAll xs + 1 } := by
  have hlast : ¬ v.nLoop + VaTree.turnsAll xs = 0 := by omega
  cases hk : k.isArray with
  | true =>
    cases k with
    | array t =>
      have hlen : xs.length < noArray := by simpa [VaTree.tys] using hholds.2
      have hrun := c.run_array xs hxs hholds.1
        (v.inside (.array t) xs.length s (VaTree.argsAll xs ++ after) q) q 0 after (fuel + 1) rfl
        rfl hlen rfl hdepth
      rw [hrun]
      simp only [Variadic.inside, hloop, decide_false]
      cases c.walkAll false s xs after with
      | none => rfl
      | some w =>
        cases w with
        | stop r => rfl
        | go s =>
          simp only [resume]
          rw [c.run_close (.inl rfl) rfl]
          simp only [hlast, decide_false]
          rfl
    | _ => exact absurd hk (by simp [Kind.isArray])
  | false =>
    have hcontents := hholds.contents hk
    have hrun := c.run_struct xs hxs
      (v.inside k xs.length s (VaTree.argsAll xs ++ after) q) (k.close q) 0 after (fuel + 1)
      (by rw [← hcontents]; rfl) (by simp only [Variadic.inside, hk, Bool.false_eq_true, if_false])
      (by rw [← hcontents]; rfl) rfl hdepth
    rw [hrun]
    simp only [Variadic.inside, hloop, decide_false]
    cases c.walkAll false s xs after with
    | none => rfl
    | some w =>
      cases w with
      | stop r => rfl
      | go s =>
        simp only [resume, hk, Bool.false_eq_true, if_false]
        rw [c.run_close (.inr ⟨rfl, rfl⟩) rfl]
        simp only [hlast, decide_false]
        rfl

theorem Codec.follows (c : Codec σ) (x : VaTree) (hfit : x.ty.Fits true 0 0) (hm : x.Matches) :
    c.Follows x := by
  induction x using VaTree.induct with
  | basic b a =>
    intro v q after fuel hready hap _
    rw [VaTree.args, List.singleton_append] at hap
    rw [VaTree.turns, Nat.add_comm 1 fuel]
    exact c.run_basic hready hap fuel
  | container k xs ih =>
    intro v q after fuel hready hap hdepth
    rw [VaTree.Matches] at hm
    obtain ⟨hholds, hall⟩ := hm
    rw [VaTree.ty] at hready hfit
    rw [VaTree.args, List.append_assoc] at hap
    rw [VaTree.depth] at hdepth
    have hxs : ∀ x ∈ xs, c.Follows x := fun x hx =>
      ih x hx (hholds.fits hfit x.ty (List.mem_map_of_mem hx)) (VaTree.allMatch_iff.mp hall x hx)
    have hcount : k.isArray = true → xs.length < 2 ^ 32 := by
      cases k with
      | array t =>
        have hlen : xs.length < noArray := by simpa [VaTree.tys] using hholds.2
        exact fun _ => hlen.trans (by decide)
      | _ => exact fun h => absurd h (by simp [Kind.isArray])
    obtain ⟨hbehind, -, -, hstack⟩ := v.behind_fields k.ty (v.nLoop + 1)
    obtain ⟨htstate, htap, htstack, htloop⟩ :=
      ({ v with nLoop := v.nLoop + 1 } : Variadic σ).take_fields
    have hskip := ({ v with nLoop := v.nLoop + 1 } : Variadic σ).take_skip (u := k.ty) hready.count
    have hturns : VaTree.turnsAll xs + 2 + fuel = VaTree.turnsAll xs + (fuel + 1) + 1 := by omega
    rw [VaTree.turns, hturns, c.run_step hready, c.turn_open q hfit hcount (htap.trans hap)
      (by rw [htstack]; simp only; omega) htloop, htstate, hskip, hbehind, walk]
    cases (c.openContainer v.state k.enclosing k.contents).traversed (decide (v.nLoop = 0))
        (k.countArgs xs.length ++ (VaTree.argsAll xs ++ after)) with
    | stop r => rfl
    | go s =>
      simp only
      rw [c.run_inside hholds hxs s after q fuel (by rw [hstack]; omega) (by simp)]
      cases c.walkAll false s xs after with
      | none => rfl
      | some w =>
        cases w with
        | stop r => rfl
        | go s =>
          simp only [resume, Nat.add_assoc, Nat.add_comm 1]
          rfl

theorem Codec.run_values (c : Codec σ) {xs : List VaTree}
    (hfit : ∀ u ∈ VaTree.tys xs, u.Fits true 0 0) (hm : VaTree.AllMatch xs)
    (hdepth : VaTree.depthAll xs ≤ busContainerDepth) (s : σ) (after : List VaArg) {fuel : Nat}
    (hfuel : VaTree.turnsAll xs < fuel) :
    c.run fuel
        { state := s
          ap := VaTree.argsAll xs ++ after
          types := Ty.sigs (VaTree.tys xs)
          nStruct := (Ty.sigs (VaTree.tys xs)).length } =
      match c.walkAll true s xs after with
      | none => none
      | some (.stop r) => some r
      | some (.go s) => some (.ok 1, s, after) := by
  obtain ⟨n, rfl⟩ := Nat.exists_eq_add_of_lt hfuel
  have hxs : ∀ x ∈ xs, c.Follows x := fun x hx =>
    c.follows x (hfit x.ty (List.mem_map_of_mem hx)) (VaTree.allMatch_iff.mp hm x hx)
  rw [Nat.add_assoc, c.run_struct xs hxs _ [] 0 after (n + 1) (List.append_nil _).symm rfl rfl rfl
    (by simpa using hdepth)]
  simp only [decide_true]
  cases c.walkAll true s xs after with
  | none => rfl
  | some w => cases w <;> rfl

end

mutual

def VaTree.Typed : VaTree → Prop
  | .basic b a => (b.arg a).isSome
  | .container _ xs => VaTree.AllTyped xs

def VaTree.AllTyped : List VaTree → Prop
  | [] => True
  | x :: xs => x.Typed ∧ VaTree.AllTyped xs

end

mutual

def VaTree.ops : VaTree → List Op
  | .basic b a => ((b.arg a).map Op.appendBasic).toList
  | .container k xs =>
    .openContainer k.enclosing ⟨k.contents, k.zero_notMem_contents⟩ ::
      (VaTree.opsAll xs ++ [.closeContainer])

def VaTree.opsAll : List VaTree → List Op
  | [] => []
  | x :: xs => x.ops ++ VaTree.opsAll xs

end

theorem execAll_append (m : Message) (ops more : List Op) :
    execAll m (ops ++ more) =
      match execAll m ops with
      | (.error r, m) => (.error r, m)
      | (.ok (), m) => execAll m more := by
  induction ops generalizing m with
  | nil => rfl
  | cons op ops ih =>
    rw [List.cons_append, execAll, execAll]
    split
    · rfl
    · exact ih _

def Traversed.Made (w : Option (Traversed Message)) (e : Except Errno Unit × Message) : Prop :=
  match e with
  | (.ok (), m) => w = some (.go m)
  | (.error r, m) => ∃ ap, w = some (.stop (.error r, m, ap))

theorem CallResult.traversed_ofCall (first : Bool) (ap : List VaArg) (e : Except Errno Unit × Message) :
    Traversed.Made (some ((CallResult.ofCall e).traversed first ap)) e := by
  obtain ⟨r | ⟨⟩, m⟩ := e
  · exact ⟨ap, rfl⟩
  · rfl

theorem walkAll_made {xs : List VaTree}
    (hxs : ∀ x ∈ xs, x.Typed → ∀ first m after,
      Traversed.Made (appendCodec.walk first m x after) (execAll m x.ops))
    (h : VaTree.AllTyped xs) (first : Bool) (m : Message) (after : List VaArg) :
    Traversed.Made (appendCodec.walkAll first m xs after) (execAll m (VaTree.opsAll xs)) := by
  induction xs generalizing first m with
  | nil =>
    rw [Codec.walkAll, VaTree.opsAll, execAll]
    rfl
  | cons x xs ih =>
    rw [VaTree.AllTyped] at h
    have hx := hxs x List.mem_cons_self h.1 first m (VaTree.argsAll xs ++ after)
    rw [Codec.walkAll, VaTree.opsAll, execAll_append]
    generalize execAll m x.ops = e at hx
    obtain ⟨r | ⟨⟩, m'⟩ := e
    · obtain ⟨ap, hx⟩ := hx
      rw [hx]
      exact ⟨ap, rfl⟩
    · rw [show appendCodec.walk first m x (VaTree.argsAll xs ++ after) = some (.go m') from hx]
      exact ih (fun y hy => hxs y (List.mem_cons_of_mem _ hy)) h.2 false m'

theorem walk_made (x : VaTree) (h : x.Typed) (first : Bool) (m : Message) (after : List VaArg) :
    Traversed.Made (appendCodec.walk first m x after) (execAll m x.ops) := by
  induction x using VaTree.induct generalizing first m after with
  | basic b a =>
    rw [VaTree.Typed] at h
    obtain ⟨p, hp⟩ := Option.isSome_iff_exists.mp h
    rw [Codec.walk, VaTree.ops, hp]
    simp only [appendCodec, hp, Option.map_some, Option.toList_some, execAll, Op.exec]
    have hcall := CallResult.traversed_ofCall first after (messageAppendBasic m p)
    generalize messageAppendBasic m p = e at hcall
    obtain ⟨r | ⟨⟩, m'⟩ := e <;> exact hcall
  | container k xs ih =>
    rw [VaTree.Typed] at h
    have hopen := CallResult.traversed_ofCall first
      (k.countArgs xs.length ++ (VaTree.argsAll xs ++ after))
      (sdBusMessageOpenContainer m k.enclosing k.contents)
    have hwalk : ∀ m, appendCodec.openContainer m k.enclosing k.contents =
        CallResult.ofCall (sdBusMessageOpenContainer m k.enclosing k.contents) := fun _ => rfl
    rw [Codec.walk, VaTree.ops, hwalk]
    simp only [execAll, Op.exec]
    generalize sdBusMessageOpenContainer m k.enclosing k.contents = e at hopen
    obtain ⟨r | ⟨⟩, m₁⟩ := e
    · exact ⟨_, rfl⟩
    · have hin := walkAll_made ih h false m₁ after
      simp only [CallResult.ofCall, CallResult.traversed]
      rw [execAll_append]
      generalize execAll m₁ (VaTree.opsAll xs) = e at hin
      obtain ⟨r | ⟨⟩, m₂⟩ := e
      · obtain ⟨ap, hin⟩ := hin
        rw [hin]
        exact ⟨ap, rfl⟩
      · rw [show appendCodec.walkAll false m₁ xs after = some (.go m₂) from hin]
        have hclose := CallResult.traversed_ofCall false after (sdBusMessageCloseContainer m₂)
        simp only [execAll, Op.exec]
        generalize hc : sdBusMessageCloseContainer m₂ = e at hclose
        obtain ⟨r | ⟨⟩, m₃⟩ := e
        · exact ⟨after, by simp only [appendCodec, hc]; rfl⟩
        · simp only [appendCodec, hc]
          rfl

theorem appendCodec_run {xs : List VaTree} (hfit : ∀ u ∈ VaTree.tys xs, u.Fits true 0 0)
    (hm : VaTree.AllMatch xs) (ht : VaTree.AllTyped xs)
    (hdepth : VaTree.depthAll xs ≤ busContainerDepth) (m : Message) (after : List VaArg)
    {fuel : Nat} (hfuel : VaTree.turnsAll xs < fuel) :
    ∃ ap, appendCodec.run fuel
        { state := m
          ap := VaTree.argsAll xs ++ after
          types := Ty.sigs (VaTree.tys xs)
          nStruct := (Ty.sigs (VaTree.tys xs)).length } =
      some ((execAll m (VaTree.opsAll xs)).1.map (fun _ => 1), (execAll m (VaTree.opsAll xs)).2,
        ap) ∧ ((execAll m (VaTree.opsAll xs)).1 = .ok () → ap = after) := by
  rw [appendCodec.run_values hfit hm hdepth m after hfuel]
  have hmade := walkAll_made (fun x _ h first m after => walk_made x h first m after) ht true m after
  generalize execAll m (VaTree.opsAll xs) = e at hmade
  obtain ⟨r | ⟨⟩, m'⟩ := e
  · obtain ⟨ap, hmade⟩ := hmade
    rw [hmade]
    exact ⟨ap, rfl, fun h => absurd h (by simp)⟩
  · rw [show appendCodec.walkAll true m xs after = some (.go m') from hmade]
    exact ⟨after, rfl, fun _ => rfl⟩

end Basu
