import Basu.Signature

/-! Values and their wire format. `Val.enc` is the marshalling rule of the protocol: a value is laid
out at an absolute position of the body, after the padding its alignment asks for. `Stack` is the
same for a tree whose innermost containers are still open. -/

namespace Basu
open Lib

inductive BasicVal
  | num (t : Num) (x : BitVec (8 * t.size))
  | boolean (x : Bool)
  | string (s : Str)
  | objectPath (s : Str)
  | signature (s : Str)
  /-- An index into the file descriptors that travel with the message. -/
  | unixFd (i : Nat)
  deriving DecidableEq

inductive Val
  | basic (v : BasicVal)
  | variant (v : Val)
  | array (t : Ty) (vs : List Val)
  | struct (vs : List Val)
  | dictEntry (k : BasicVal) (v : Val)

def BasicVal.type : BasicVal → Basic
  | .num t _ => .num t
  | .boolean _ => .boolean
  | .string _ => .string
  | .objectPath _ => .objectPath
  | .signature _ => .signature
  | .unixFd _ => .unixFd

mutual

def Val.ty : Val → Ty
  | .basic v => .basic v.type
  | .variant _ => .variant
  | .array t _ => .array t
  | .struct vs => .struct (Val.tys vs)
  | .dictEntry k v => .dictEntry k.type v.ty

def Val.tys : List Val → List Ty
  | [] => []
  | v :: vs => v.ty :: Val.tys vs

end

theorem Val.tys_eq_map (vs : List Val) : Val.tys vs = vs.map Val.ty := by
  induction vs with
  | nil => rfl
  | cons v vs ih => rw [Val.tys, ih, List.map_cons]

def sigBytes (s : Str) : Bytes := UInt8.ofNat s.length :: (s ++ [0])

def strBytes (e : Endian) (s : Str) : Bytes := putWord e 4 s.length ++ (s ++ [0])

def BasicVal.payload (e : Endian) : BasicVal → Bytes
  | .num t x => putWord e t.size x.toNat
  | .boolean x => putWord e 4 x.toNat
  | .string s | .objectPath s => strBytes e s
  | .signature s => sigBytes s
  | .unixFd i => putWord e 4 i

def BasicVal.enc (e : Endian) (v : BasicVal) (p : Nat) : Bytes :=
  zeros (padTo p v.type.align) ++ v.payload e

def arrayStart (t : Ty) (p : Nat) : Nat := alignUp (alignUp p 4 + 4) t.align

def arrayHead (e : Endian) (t : Ty) (p n : Nat) : Bytes :=
  zeros (padTo p 4) ++ (putWord e 4 n ++ zeros (padTo (alignUp p 4 + 4) t.align))

mutual

def Val.enc (e : Endian) : Val → Nat → Bytes
  | .basic v, p => v.enc e p
  | .variant v, p => sigBytes v.ty.sig ++ v.enc e (p + (sigBytes v.ty.sig).length)
  | .array t vs, p =>
    arrayHead e t p (Val.encs e vs (arrayStart t p)).length ++ Val.encs e vs (arrayStart t p)
  | .struct vs, p => zeros (padTo p 8) ++ Val.encs e vs (alignUp p 8)
  | .dictEntry k v, p =>
    zeros (padTo p 8) ++ (k.enc e (alignUp p 8) ++
      v.enc e (alignUp p 8 + (k.enc e (alignUp p 8)).length))

def Val.encs (e : Endian) : List Val → Nat → Bytes
  | [], _ => []
  | v :: vs, p => v.enc e p ++ Val.encs e vs (p + (v.enc e p).length)

end

theorem Val.encs_append (e : Endian) (vs ws : List Val) (p : Nat) :
    Val.encs e (vs ++ ws) p = Val.encs e vs p ++ Val.encs e ws (p + (Val.encs e vs p).length) := by
  induction vs generalizing p with
  | nil => simp [Val.encs]
  | cons v vs ih =>
    simp only [List.cons_append, Val.encs, ih, List.append_assoc, List.length_append,
      Nat.add_assoc]

theorem Val.encs_singleton (e : Endian) (v : Val) (p : Nat) : Val.encs e [v] p = v.enc e p := by
  simp [Val.encs]

theorem length_sigBytes (s : Str) : (sigBytes s).length = s.length + 2 := by simp [sigBytes]

theorem length_arrayHead (e : Endian) (t : Ty) (p n : Nat) :
    p + (arrayHead e t p n).length = arrayStart t p := by
  have h4 := add_padTo p (a := 4) (by decide)
  have ht := add_padTo (alignUp p 4 + 4) t.align_pos
  simp only [arrayHead, arrayStart, List.length_append, length_zeros, length_putWord]
  omega

/-- A container together with the types of its contents. -/
inductive Kind
  | array (t : Ty)
  | variant (t : Ty)
  | struct (ts : List Ty)
  | dictEntry (k : Basic) (v : Ty)

/-- The type code `open_container` and `enter_container` take for it. -/
def Kind.enclosing : Kind → UInt8
  | .array _ => sdBusTypeArray
  | .variant _ => sdBusTypeVariant
  | .struct _ => sdBusTypeStruct
  | .dictEntry _ _ => sdBusTypeDictEntry

def Kind.contents : Kind → Str
  | .array t => t.sig
  | .variant t => t.sig
  | .struct ts => Ty.sigs ts
  | .dictEntry k v => k.code :: v.sig

def Kind.ty : Kind → Ty
  | .array t => .array t
  | .variant _ => .variant
  | .struct ts => .struct ts
  | .dictEntry k v => .dictEntry k v

def Kind.isArray : Kind → Bool
  | .array _ => true
  | _ => false

def Kind.members : Kind → List Ty
  | .array _ => []
  | .variant t => [t]
  | .struct ts => ts
  | .dictEntry k v => [.basic k, v]

theorem Kind.zero_notMem_contents (k : Kind) : (0 : UInt8) ∉ k.contents := by
  cases k with
  | array t => exact t.zero_notMem_sig
  | variant t => exact t.zero_notMem_sig
  | struct ts => exact Ty.zero_notMem_sigs ts
  | dictEntry b v => simpa [Kind.contents] using ⟨b.code_ne_zero.symm, v.zero_notMem_sig⟩

/-- What stands on the wire before the contents of a container at `p`; `n` is the size of the
contents, which only an array states. -/
def Kind.head (e : Endian) : Kind → Nat → Nat → Bytes
  | .array t, p, n => arrayHead e t p n
  | .variant t, _, _ => sigBytes t.sig
  | .struct _, p, _ | .dictEntry _ _, p, _ => zeros (padTo p 8)

def Kind.start : Kind → Nat → Nat
  | .array t, p => arrayStart t p
  | .variant t, p => p + (sigBytes t.sig).length
  | .struct _, p | .dictEntry _ _, p => alignUp p 8

theorem Kind.length_head (e : Endian) (k : Kind) (p n : Nat) :
    p + (k.head e p n).length = k.start p := by
  cases k with
  | array t => exact length_arrayHead e t p n
  | variant t => rfl
  | struct ts | dictEntry k v =>
    simpa only [Kind.head, Kind.start, length_zeros] using add_padTo p (a := 8) (by decide)

/-- What `open_container` checks of the contents. -/
def Kind.Valid : Kind → Prop
  | .array t => t.Fits true 0 0
  | .variant t => t.Fits false 0 0
  | .struct ts => (∀ t ∈ ts, t.Fits false 0 0) ∧ (Ty.sigs ts).length ≤ 255
  | .dictEntry _ v => v.Fits false 0 0

mutual

def Val.Made : Val → Prop
  | .basic _ => True
  | .variant v => (Kind.variant v.ty).Valid ∧ v.Made
  | .array t vs => (Kind.array t).Valid ∧ (∀ u ∈ Val.tys vs, u = t) ∧ Val.AllMade vs
  | .struct vs => (Kind.struct (Val.tys vs)).Valid ∧ Val.AllMade vs
  | .dictEntry k v => (Kind.dictEntry k.type v.ty).Valid ∧ v.Made

def Val.AllMade : List Val → Prop
  | [] => True
  | v :: vs => v.Made ∧ Val.AllMade vs

end

theorem Val.allMade_iff {vs : List Val} : Val.AllMade vs ↔ ∀ v ∈ vs, v.Made := by
  induction vs with
  | nil => simp [Val.AllMade]
  | cons v vs ih => simp [Val.AllMade, ih]

/-- The value is a container of this kind with these contents. -/
inductive Val.Holds : Val → Kind → List Val → Prop
  | variant (v : Val) : Holds (.variant v) (.variant v.ty) [v]
  | array (t : Ty) (vs : List Val) : Holds (.array t vs) (.array t) vs
  | struct (vs : List Val) : Holds (.struct vs) (.struct (Val.tys vs)) vs
  | dictEntry (k : BasicVal) (v : Val) :
      Holds (.dictEntry k v) (.dictEntry k.type v.ty) [.basic k, v]

mutual

theorem Val.induct_val {P : Val → Prop} (basic : ∀ b, P (.basic b))
    (container : ∀ v k vs, v.Holds k vs → (∀ w ∈ vs, P w) → P v) : ∀ v, P v
  | .basic b => basic b
  | .variant v => container _ _ _ (.variant v) (by
      simpa using Val.induct_val basic container v)
  | .array t vs => container _ _ _ (.array t vs) (Val.induct_vals basic container vs)
  | .struct vs => container _ _ _ (.struct vs) (Val.induct_vals basic container vs)
  | .dictEntry k v => container _ _ _ (.dictEntry k v) (by
      simpa using ⟨basic k, Val.induct_val basic container v⟩)

theorem Val.induct_vals {P : Val → Prop} (basic : ∀ b, P (.basic b))
    (container : ∀ v k vs, v.Holds k vs → (∀ w ∈ vs, P w) → P v) :
    ∀ vs : List Val, ∀ w ∈ vs, P w
  | [] => by simp
  | v :: vs => by
    simpa using ⟨Val.induct_val basic container v, Val.induct_vals basic container vs⟩

end

@[elab_as_elim]
theorem Val.induct {P : Val → Prop} (v : Val) (basic : ∀ b, P (.basic b))
    (container : ∀ v k vs, v.Holds k vs → (∀ w ∈ vs, P w) → P v) : P v :=
  Val.induct_val basic container v

theorem Val.Holds.ty {v : Val} {k : Kind} {vs : List Val} (h : v.Holds k vs) : v.ty = k.ty := by
  cases h <;> simp [Val.ty, Kind.ty]

theorem Val.Holds.enc {v : Val} {k : Kind} {vs : List Val} (h : v.Holds k vs) (e : Endian)
    (p : Nat) : v.enc e p = k.head e p (Val.encs e vs (k.start p)).length ++
      Val.encs e vs (k.start p) := by
  cases h with
  | variant v => simp only [Val.enc, Kind.head, Kind.start, Val.encs_singleton]
  | array t vs => simp only [Val.enc, Kind.head, Kind.start]
  | struct vs => simp only [Val.enc, Kind.head, Kind.start]
  | dictEntry k v =>
    simp only [Val.enc, Kind.head, Kind.start, Val.encs, List.append_nil]

theorem Val.Holds.made {v : Val} {k : Kind} {vs : List Val} (h : v.Holds k vs) (hm : v.Made) :
    k.Valid ∧ (k.isArray = false → Val.tys vs = k.members) ∧
      (∀ t, k = .array t → ∀ u ∈ Val.tys vs, u = t) ∧ ∀ w ∈ vs, w.Made := by
  cases h with
  | variant v =>
    rw [Val.Made] at hm
    exact ⟨hm.1, fun _ => rfl, by simp, by simpa using hm.2⟩
  | array t vs =>
    rw [Val.Made] at hm
    refine ⟨hm.1, fun h => absurd h (by simp [Kind.isArray]), ?_, Val.allMade_iff.mp hm.2.2⟩
    rintro t' ⟨⟩
    exact hm.2.1
  | struct vs =>
    rw [Val.Made] at hm
    exact ⟨hm.1, fun _ => rfl, by simp, Val.allMade_iff.mp hm.2⟩
  | dictEntry k v =>
    rw [Val.Made] at hm
    exact ⟨hm.1, fun _ => rfl, by simp, by simpa [Val.Made] using hm.2⟩

structure Frame where
  kind : Kind
  done : List Val

/-! ## What has a serialisation

A signature states its length in one byte: a longer one cannot be written. -/

def sigFits (s : Str) : Bool := s.length ≤ 255

def BasicVal.sigsFit : BasicVal → Bool
  | .signature s => sigFits s
  | _ => true

mutual

def Val.sigsFit : Val → Bool
  | .basic v => v.sigsFit
  | .variant v => sigFits v.ty.sig && v.sigsFit
  | .array _ vs => Val.allSigsFit vs
  | .struct vs => Val.allSigsFit vs
  | .dictEntry k v => k.sigsFit && v.sigsFit

def Val.allSigsFit : List Val → Bool
  | [] => true
  | v :: vs => v.sigsFit && Val.allSigsFit vs

end

theorem Val.allSigsFit_append (vs ws : List Val) :
    Val.allSigsFit (vs ++ ws) = (Val.allSigsFit vs && Val.allSigsFit ws) := by
  induction vs with
  | nil => simp [Val.allSigsFit]
  | cons v vs ih => simp [Val.allSigsFit, ih, Bool.and_assoc]

def Kind.sigsFit : Kind → Bool
  | .variant t => sigFits t.sig
  | _ => true

def Frame.sigsFit (f : Frame) : Bool := f.kind.sigsFit && Val.allSigsFit f.done

def Frame.close (f : Frame) : Val :=
  match f.kind, f.done with
  | .array t, vs => .array t vs
  | .variant _, [v] => .variant v
  | .dictEntry _ _, [.basic k, v] => .dictEntry k v
  | _, vs => .struct vs

/-- The finished top-level values, the open containers from the innermost out, and the file
descriptors that were attached. -/
structure Tree where
  root : List Val
  frames : List Frame
  fds : List Nat

def Tree.sigsFit (T : Tree) : Bool := Val.allSigsFit T.root && T.frames.all Frame.sigsFit

def Tree.Made (T : Tree) : Prop :=
  Val.AllMade T.root ∧ ∀ f ∈ T.frames, f.kind.Valid ∧ Val.AllMade f.done

/-- The body of a tree, when it ends at `stop`: the length word of an open array counts the
bytes between its first element and `stop`. -/
def encStack (e : Endian) (stop : Nat) (root : List Val) : List Frame → Bytes
  | [] => Val.encs e root 0
  | f :: fs =>
    let b := encStack e stop root fs
    b ++ (f.kind.head e b.length (stop - f.kind.start b.length) ++
      Val.encs e f.done (f.kind.start b.length))

theorem length_head_indep (e : Endian) (k : Kind) (p n n' : Nat) :
    (k.head e p n).length = (k.head e p n').length := by
  have h := k.length_head e p n
  have h' := k.length_head e p n'
  omega

theorem length_encStack (e : Endian) (stop stop' : Nat) (root : List Val) (fs : List Frame) :
    (encStack e stop root fs).length = (encStack e stop' root fs).length := by
  induction fs with
  | nil => rfl
  | cons f fs ih =>
    simp only [encStack, List.length_append, ih]
    rw [length_head_indep e f.kind _ _ (stop' - f.kind.start (encStack e stop' root fs).length)]

def stackPos (e : Endian) (root : List Val) (fs : List Frame) : Nat :=
  (encStack e 0 root fs).length

theorem length_encStack_eq (e : Endian) (stop : Nat) (root : List Val) (fs : List Frame) :
    (encStack e stop root fs).length = stackPos e root fs := length_encStack e stop 0 root fs

theorem stackPos_cons (e : Endian) (root : List Val) (f : Frame) (fs : List Frame) :
    stackPos e root (f :: fs) = f.kind.start (stackPos e root fs) +
      (Val.encs e f.done (f.kind.start (stackPos e root fs))).length := by
  have h := f.kind.length_head e (stackPos e root fs) (0 - f.kind.start (stackPos e root fs))
  unfold stackPos at h ⊢
  simp only [encStack, List.length_append]
  omega

def Tree.push (T : Tree) (v : Val) : Tree :=
  match T.frames with
  | [] => { T with root := T.root ++ [v] }
  | f :: fs => { T with frames := { f with done := f.done ++ [v] } :: fs }

def Tree.enc (e : Endian) (T : Tree) : Bytes :=
  encStack e (stackPos e T.root T.frames) T.root T.frames

def Tree.wire (e : Endian) (T : Tree) : Option Bytes :=
  if T.sigsFit then some (T.enc e) else none

theorem Tree.sigsFit_push (T : Tree) (v : Val) : (T.push v).sigsFit = (T.sigsFit && v.sigsFit) := by
  cases hf : T.frames with
  | nil =>
    simp [Tree.push, Tree.sigsFit, hf, Val.allSigsFit_append, Val.allSigsFit]
  | cons f fs =>
    simp only [Tree.push, Tree.sigsFit, hf, List.all_cons, Frame.sigsFit, Val.allSigsFit_append,
      Val.allSigsFit, Bool.and_true]
    ac_rfl

theorem Tree.encStack_push (e : Endian) (stop : Nat) (T : Tree) (v : Val) :
    encStack e stop (T.push v).root (T.push v).frames =
      encStack e stop T.root T.frames ++ v.enc e (stackPos e T.root T.frames) := by
  cases hf : T.frames with
  | nil =>
    simp only [Tree.push, hf, encStack, Val.encs_append, Val.encs_singleton, Nat.zero_add]
    rfl
  | cons f fs =>
    simp only [Tree.push, hf, encStack, Val.encs_append, Val.encs_singleton,
      length_encStack_eq, stackPos_cons, List.append_assoc]

end Basu
