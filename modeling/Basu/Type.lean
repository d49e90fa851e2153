import Basu.Lib.Bytes

/-! The type codes of the bus protocol (`bus-type.c`) and the error numbers and C strings the
functions of `sd-bus` pass around. A C string is the list of its bytes before the terminating
NUL; reading the terminator is reading the default `0` past the end. -/

namespace Basu
open Lib

inductive Errno
  | einval | enxio | eperm | estale | enomem | ebadmsg | eopnotsupp | enomsg | ebadf | emfile
  | eexist | ebusy | enobufs | econnreset | eio | enotconn | etimedout | epipe | eshutdown
  | eprototype | eoverflow | eunatch | etoobig | eaddrnotavail | econnrefused
  deriving DecidableEq, Repr

theorem exists_of_map {ε α β : Type} {x : Except ε α} {f : α → β} {y : β}
    (h : x.map f = .ok y) : ∃ a, x = .ok a ∧ f a = y := by
  cases x with
  | error r => exact absurd h nofun
  | ok a => exact ⟨a, rfl, Except.ok.inj h⟩

theorem forall_mem_of_all {α : Type} {p : α → Prop} [DecidablePred p] {l : List α}
    (h : (l.all fun x => decide (p x)) = true) : ∀ x ∈ l, p x :=
  fun x hx => of_decide_eq_true (List.all_eq_true.mp h x hx)

theorem ok_of_guard {ε α : Type} {c : Prop} [Decidable c] {e : ε} {x : Except ε α} {a : α}
    (h : (if c then .error e else x) = .ok a) : ¬c ∧ x = .ok a := by
  by_cases hc : c
  · rw [if_pos hc] at h
    exact absurd h nofun
  · rw [if_neg hc] at h
    exact ⟨hc, h⟩

theorem ok_of_bind {ε α β : Type} {x : Except ε α} {f : α → Except ε β} {b : β}
    (h : x >>= f = .ok b) : ∃ a, x = .ok a ∧ f a = .ok b := by
  cases x with
  | error e => exact absurd h nofun
  | ok a => exact ⟨a, rfl, h⟩

abbrev Str := Bytes

instance : LawfulBEq Str := List.instLawfulBEq

def uint32Max : Nat := 0xffffffff

/-- `s[i]`, the terminating NUL included. -/
def charAt (s : Str) (i : Nat) : UInt8 := s.getD i 0

def sdBusTypeByte : UInt8 := 121
def sdBusTypeBoolean : UInt8 := 98
def sdBusTypeInt16 : UInt8 := 110
def sdBusTypeUint16 : UInt8 := 113
def sdBusTypeInt32 : UInt8 := 105
def sdBusTypeUint32 : UInt8 := 117
def sdBusTypeInt64 : UInt8 := 120
def sdBusTypeUint64 : UInt8 := 116
def sdBusTypeDouble : UInt8 := 100
def sdBusTypeString : UInt8 := 115
def sdBusTypeObjectPath : UInt8 := 111
def sdBusTypeSignature : UInt8 := 103
def sdBusTypeUnixFd : UInt8 := 104
def sdBusTypeArray : UInt8 := 97
def sdBusTypeVariant : UInt8 := 118
def sdBusTypeStruct : UInt8 := 114
def sdBusTypeStructBegin : UInt8 := 40
def sdBusTypeStructEnd : UInt8 := 41
def sdBusTypeDictEntry : UInt8 := 101
def sdBusTypeDictEntryBegin : UInt8 := 123
def sdBusTypeDictEntryEnd : UInt8 := 125

def busTypeIsBasic (c : UInt8) : Bool :=
  c ∈ [sdBusTypeByte, sdBusTypeBoolean, sdBusTypeInt16, sdBusTypeUint16, sdBusTypeInt32,
    sdBusTypeUint32, sdBusTypeInt64, sdBusTypeUint64, sdBusTypeDouble, sdBusTypeString,
    sdBusTypeObjectPath, sdBusTypeSignature, sdBusTypeUnixFd]

def busTypeIsTrivial (c : UInt8) : Bool :=
  c ∈ [sdBusTypeByte, sdBusTypeBoolean, sdBusTypeInt16, sdBusTypeUint16, sdBusTypeInt32,
    sdBusTypeUint32, sdBusTypeInt64, sdBusTypeUint64, sdBusTypeDouble]

def busTypeIsContainer (c : UInt8) : Bool :=
  c ∈ [sdBusTypeArray, sdBusTypeVariant, sdBusTypeStruct, sdBusTypeDictEntry]

def busTypeGetAlignment (c : UInt8) : Option Nat :=
  if c ∈ [sdBusTypeByte, sdBusTypeSignature, sdBusTypeVariant] then some 1
  else if c ∈ [sdBusTypeInt16, sdBusTypeUint16] then some 2
  else if c ∈ [sdBusTypeBoolean, sdBusTypeInt32, sdBusTypeUint32, sdBusTypeString,
    sdBusTypeObjectPath, sdBusTypeArray, sdBusTypeUnixFd] then some 4
  else if c ∈ [sdBusTypeInt64, sdBusTypeUint64, sdBusTypeDouble, sdBusTypeStruct,
    sdBusTypeStructBegin, sdBusTypeDictEntry, sdBusTypeDictEntryBegin] then some 8
  else none

def busTypeGetSize (c : UInt8) : Option Nat :=
  if c = sdBusTypeByte then some 1
  else if c ∈ [sdBusTypeInt16, sdBusTypeUint16] then some 2
  else if c ∈ [sdBusTypeBoolean, sdBusTypeInt32, sdBusTypeUint32, sdBusTypeUnixFd] then some 4
  else if c ∈ [sdBusTypeInt64, sdBusTypeUint64, sdBusTypeDouble] then some 8
  else none

inductive Num
  | byte | int16 | uint16 | int32 | uint32 | int64 | uint64 | double
  deriving DecidableEq, Repr

inductive Basic
  | num (t : Num)
  | boolean
  | string
  | objectPath
  | signature
  | unixFd
  deriving DecidableEq, Repr

inductive Ty
  | basic (b : Basic)
  | variant
  | array (t : Ty)
  | struct (ts : List Ty)
  | dictEntry (k : Basic) (v : Ty)

def Num.code : Num → UInt8
  | .byte => sdBusTypeByte
  | .int16 => sdBusTypeInt16
  | .uint16 => sdBusTypeUint16
  | .int32 => sdBusTypeInt32
  | .uint32 => sdBusTypeUint32
  | .int64 => sdBusTypeInt64
  | .uint64 => sdBusTypeUint64
  | .double => sdBusTypeDouble

def Num.size : Num → Nat
  | .byte => 1
  | .int16 | .uint16 => 2
  | .int32 | .uint32 => 4
  | .int64 | .uint64 | .double => 8

def Basic.code : Basic → UInt8
  | .num t => t.code
  | .boolean => sdBusTypeBoolean
  | .string => sdBusTypeString
  | .objectPath => sdBusTypeObjectPath
  | .signature => sdBusTypeSignature
  | .unixFd => sdBusTypeUnixFd

def Basic.align : Basic → Nat
  | .num t => t.size
  | .boolean | .string | .objectPath | .unixFd => 4
  | .signature => 1

def Ty.align : Ty → Nat
  | .basic b => b.align
  | .variant => 1
  | .array _ => 4
  | .struct _ | .dictEntry _ _ => 8

theorem Num.size_pos (t : Num) : 0 < t.size := by cases t <;> decide

theorem Basic.align_pos (b : Basic) : 0 < b.align := by
  rcases b with (t | _) <;> first | exact Num.size_pos t | decide

theorem Ty.align_pos (t : Ty) : 0 < t.align := by
  cases t with
  | basic b => exact b.align_pos
  | _ => simp [Ty.align]

theorem busTypeIsBasic_code (b : Basic) : busTypeIsBasic b.code = true := by
  rcases b with (t | _) <;> first | (cases t <;> decide) | decide

theorem exists_basic_of_code {c : UInt8} (h : busTypeIsBasic c = true) :
    ∃ b : Basic, b.code = c := by
  simp only [busTypeIsBasic, List.mem_cons, List.not_mem_nil, or_false, decide_eq_true_eq] at h
  rcases h with rfl | rfl | rfl | rfl | rfl | rfl | rfl | rfl | rfl | rfl | rfl | rfl | rfl
  · exact ⟨.num .byte, rfl⟩
  · exact ⟨.boolean, rfl⟩
  · exact ⟨.num .int16, rfl⟩
  · exact ⟨.num .uint16, rfl⟩
  · exact ⟨.num .int32, rfl⟩
  · exact ⟨.num .uint32, rfl⟩
  · exact ⟨.num .int64, rfl⟩
  · exact ⟨.num .uint64, rfl⟩
  · exact ⟨.num .double, rfl⟩
  · exact ⟨.string, rfl⟩
  · exact ⟨.objectPath, rfl⟩
  · exact ⟨.signature, rfl⟩
  · exact ⟨.unixFd, rfl⟩

theorem Num.code_injective : Function.Injective Num.code := by
  intro a b h
  cases a <;> cases b <;> first | rfl | exact absurd h (by decide)

theorem Basic.code_injective : Function.Injective Basic.code := by
  intro a b h
  rcases a with (a | _) <;> rcases b with (b | _)
  case num.num => exact congrArg Basic.num (Num.code_injective h)
  all_goals first
    | rfl
    | (cases a <;> exact absurd h (by decide))
    | (cases b <;> exact absurd h (by decide))
    | exact absurd h (by decide)

theorem Basic.code_ne_zero (b : Basic) : b.code ≠ 0 := by
  rcases b with (t | _) <;> first | (cases t <;> decide) | decide

theorem Basic.code_ne {b : Basic} {c : UInt8} (h : busTypeIsBasic c = false) : b.code ≠ c := by
  rintro rfl
  rw [busTypeIsBasic_code] at h
  exact absurd h (by decide)

theorem busTypeGetAlignment_code (b : Basic) : busTypeGetAlignment b.code = some b.align := by
  rcases b with (t | _) <;> first | (cases t <;> decide) | decide

theorem busTypeGetSize_num (t : Num) : busTypeGetSize t.code = some t.size := by
  cases t <;> decide

theorem isPrefixOf_append_self (w rest : Str) : w.isPrefixOf (w ++ rest) = true :=
  List.isPrefixOf_iff_prefix.mpr (List.prefix_append w rest)

theorem charAt_cons_zero (c : UInt8) (s : Str) : charAt (c :: s) 0 = c := rfl

theorem charAt_append_length (s r : Str) : charAt (s ++ r) s.length = charAt r 0 := by
  simp [charAt, List.getElem?_append_right]

theorem charAt_length (s : Str) : charAt s s.length = 0 := by simp [charAt]

theorem charAt_of_le {s : Str} {i : Nat} (h : s.length ≤ i) : charAt s i = 0 := by
  rw [charAt, List.getD_eq_getElem?_getD, List.getElem?_eq_none h, Option.getD_none]

theorem lt_length_of_charAt_ne {s : Str} {i : Nat} (h : charAt s i ≠ 0) : i < s.length :=
  Nat.lt_of_not_le fun hge => h (charAt_of_le hge)

theorem charAt_drop_add (s : Str) (p i : Nat) : charAt (s.drop p) i = charAt s (p + i) := by
  rw [charAt, charAt, List.getD_eq_getElem?_getD, List.getD_eq_getElem?_getD, List.getElem?_drop]

theorem charAt_drop (s : Str) (i : Nat) : charAt s i = charAt (s.drop i) 0 :=
  (charAt_drop_add s i 0).symm

end Basu
