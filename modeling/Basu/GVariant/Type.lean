import Basu.Signature
import Mathlib.Order.Lattice

/-! Sizes and alignments of the GVariant format (`bus-gvariant.c`). The functions work on signature
strings; on what the scanner accepts they compute the alignment and the size of the type. -/

namespace Basu.GVariant
open Lib

/-! ## `bus-gvariant.c` -/

def leafAlignment (c : UInt8) : Nat :=
  if c ∈ [sdBusTypeInt16, sdBusTypeUint16] then 2
  else if c ∈ [sdBusTypeInt32, sdBusTypeUint32, sdBusTypeUnixFd] then 4
  else if c ∈ [sdBusTypeInt64, sdBusTypeUint64, sdBusTypeDouble, sdBusTypeVariant] then 8
  else 1

def leafSize (c : UInt8) : Option Nat :=
  if c ∈ [sdBusTypeByte, sdBusTypeBoolean] then some 1
  else if c ∈ [sdBusTypeInt16, sdBusTypeUint16] then some 2
  else if c ∈ [sdBusTypeInt32, sdBusTypeUint32, sdBusTypeUnixFd] then some 4
  else if c ∈ [sdBusTypeInt64, sdBusTypeUint64, sdBusTypeDouble] then some 8
  else none

def opensMembers (c : UInt8) : Bool := c = sdBusTypeStructBegin || c = sdBusTypeDictEntryBegin

/-- What stands between the brackets of a type of `n` characters. -/
def membersOf (p : Str) (n : Nat) : Str := (p.drop 1).take (n - 2)

/-- The loop of `bus_gvariant_get_alignment`. Every turn consumes a character. -/
def getAlignmentLoop : Nat → Str → Nat → Option Nat
  | 0, _, _ => none
  | fuel + 1, p, alignment =>
    let c := charAt p 0
    if c = 0 ∨ 8 ≤ alignment then some alignment
    else match signatureElementLength p with
      | none => none
      | some n =>
        match if c = sdBusTypeArray then getAlignmentLoop fuel ((p.drop 1).take (n - 1)) 1
          else if opensMembers c then getAlignmentLoop fuel (membersOf p n) 1
          else some (leafAlignment c) with
        | none => none
        | some a => getAlignmentLoop fuel (p.drop n) (max alignment a)

def busGvariantGetAlignment (signature : Str) : Option Nat :=
  getAlignmentLoop (signature.length + 1) signature 1

def getSizeLoop : Nat → Str → Nat → Option Nat
  | 0, _, _ => none
  | fuel + 1, p, sum =>
    let c := charAt p 0
    if c = 0 then some sum
    else match signatureElementLength p with
      | none => none
      | some n =>
        match busGvariantGetAlignment (p.take n) with
        | none => none
        | some a =>
          match if opensMembers c then
              if n = 2 then some 1
              else (getSizeLoop fuel (membersOf p n) 0).bind fun k =>
                (busGvariantGetAlignment (membersOf p n)).map (alignUp k)
            else leafSize c with
          | none => none
          | some k => getSizeLoop fuel (p.drop n) (alignUp sum a + k)

def busGvariantGetSize (signature : Str) : Option Nat :=
  (getSizeLoop (signature.length + 1) signature 0).bind fun k =>
    (busGvariantGetAlignment signature).map (alignUp k)

def isFixedSizeLoop : Nat → Str → Option Bool
  | 0, _ => none
  | fuel + 1, p =>
    let c := charAt p 0
    if c = 0 then some true
    else match signatureElementLength p with
      | none => none
      | some n =>
        if c ∈ [sdBusTypeString, sdBusTypeObjectPath, sdBusTypeSignature, sdBusTypeArray,
          sdBusTypeVariant] then some false
        else if opensMembers c then
          match isFixedSizeLoop fuel (membersOf p n) with
          | some true => isFixedSizeLoop fuel (p.drop n)
          | r => r
        else isFixedSizeLoop fuel (p.drop n)

def busGvariantIsFixedSize (signature : Str) : Option Bool :=
  isFixedSizeLoop (signature.length + 1) signature

def basicAlign (b : Basic) : Nat := leafAlignment b.code

def basicSize (b : Basic) : Option Nat := leafSize b.code

mutual

def align : Ty → Nat
  | .basic b => basicAlign b
  | .variant => 8
  | .array t => align t
  | .struct ts => aligns ts
  | .dictEntry k v => max (basicAlign k) (max (align v) 1)

def aligns : List Ty → Nat
  | [] => 1
  | t :: ts => max (align t) (aligns ts)

end

mutual

def size : Ty → Option Nat
  | .basic b => basicSize b
  | .variant | .array _ => none
  | .struct ts => (sizes ts 0).map (alignUp · (aligns ts))
  | .dictEntry k v =>
    ((basicSize k).bind fun n => (size v).bind fun m =>
      some (alignUp (alignUp 0 (basicAlign k) + n) (align v) + m)).map
      (alignUp · (max (basicAlign k) (max (align v) 1)))

def sizes : List Ty → Nat → Option Nat
  | [], sum => some sum
  | t :: ts, sum => (size t).bind fun k => sizes ts (alignUp sum (align t) + k)

end

theorem align_dictEntry (k : Basic) (v : Ty) : align (.dictEntry k v) = aligns [.basic k, v] := by
  simp only [align, aligns]

theorem size_dictEntry (k : Basic) (v : Ty) :
    size (.dictEntry k v) = (sizes [.basic k, v] 0).map (alignUp · (aligns [.basic k, v])) := by
  simp only [size, sizes, align, aligns]

/-! ## Alignments are powers of two -/

def IsAlign (a : Nat) : Prop := a = 1 ∨ a = 2 ∨ a = 4 ∨ a = 8

theorem IsAlign.pos {a : Nat} (h : IsAlign a) : 0 < a := by
  rcases h with rfl | rfl | rfl | rfl <;> decide

theorem IsAlign.le {a : Nat} (h : IsAlign a) : a ≤ 8 := by
  rcases h with rfl | rfl | rfl | rfl <;> decide

theorem IsAlign.dvd {a b : Nat} (ha : IsAlign a) (hb : IsAlign b) (h : a ≤ b) : a ∣ b := by
  rcases ha with rfl | rfl | rfl | rfl <;> rcases hb with rfl | rfl | rfl | rfl <;>
    first | decide | omega

theorem IsAlign.max {a b : Nat} (ha : IsAlign a) (hb : IsAlign b) : IsAlign (max a b) := by
  rcases max_choice a b with h | h
  · rw [h]
    exact ha
  · rw [h]
    exact hb

theorem isAlign_leaf (c : UInt8) : IsAlign (leafAlignment c) := by
  unfold leafAlignment IsAlign
  split_ifs
  · exact .inr (.inl rfl)
  · exact .inr (.inr (.inl rfl))
  · exact .inr (.inr (.inr rfl))
  · exact .inl rfl

mutual

theorem isAlign_align : ∀ t : Ty, IsAlign (align t)
  | .basic b => by
    rw [align]
    exact isAlign_leaf b.code
  | .variant => by
    rw [align]
    exact .inr (.inr (.inr rfl))
  | .array t => by
    rw [align]
    exact isAlign_align t
  | .struct ts => by
    rw [align]
    exact isAlign_aligns ts
  | .dictEntry k v => by
    rw [align]
    exact (isAlign_leaf k.code).max ((isAlign_align v).max (.inl rfl))

theorem isAlign_aligns : ∀ ts : List Ty, IsAlign (aligns ts)
  | [] => by
    rw [aligns]
    exact .inl rfl
  | t :: ts => by
    rw [aligns]
    exact (isAlign_align t).max (isAlign_aligns ts)

end

theorem align_pos (t : Ty) : 0 < align t := (isAlign_align t).pos

theorem align_le_aligns {ts : List Ty} {t : Ty} (h : t ∈ ts) : align t ≤ aligns ts := by
  induction ts with
  | nil => exact absurd h List.not_mem_nil
  | cons u ts ih =>
    rw [aligns]
    rcases List.mem_cons.mp h with rfl | h
    · exact le_max_left _ _
    · exact (ih h).trans (le_max_right _ _)

theorem align_dvd_aligns {ts : List Ty} {t : Ty} (h : t ∈ ts) : align t ∣ aligns ts :=
  (isAlign_align t).dvd (isAlign_aligns ts) (align_le_aligns h)

/-! ## What the functions compute -/

def Scannable (ts : List Ty) : Prop := ∀ t ∈ ts, t.Fits true 0 0

theorem Scannable.head {t : Ty} {ts : List Ty} (h : Scannable (t :: ts)) : t.Fits true 0 0 :=
  h t List.mem_cons_self

theorem Scannable.tail {t : Ty} {ts : List Ty} (h : Scannable (t :: ts)) : Scannable ts :=
  fun u hu => h u (List.mem_cons_of_mem _ hu)

theorem scannable_array {t : Ty} (h : (Ty.array t).Fits true 0 0) : Scannable [t] := by
  rw [Ty.Fits] at h
  intro u hu
  obtain rfl := List.mem_singleton.mp hu
  exact h.2.mono id (Nat.zero_le _) le_rfl

theorem scannable_struct {ts : List Ty} (h : (Ty.struct ts).Fits true 0 0) :
    Scannable ts ∧ ts ≠ [] := by
  rw [Ty.Fits, Ty.allFit_iff] at h
  exact ⟨fun t ht => (h.2.2 t ht).mono (fun _ => rfl) le_rfl (Nat.zero_le _), h.2.1⟩

theorem scannable_dictEntry {k : Basic} {v : Ty} (h : (Ty.dictEntry k v).Fits true 0 0) :
    Scannable [.basic k, v] := by
  rw [Ty.Fits] at h
  intro u hu
  rcases List.mem_cons.mp hu with rfl | hu
  · rw [Ty.Fits]
    trivial
  · obtain rfl := List.mem_singleton.mp hu
    exact h.2.2.mono (fun _ => rfl) le_rfl (Nat.zero_le _)

theorem membersOf_struct (ts : List Ty) (r : Str) :
    membersOf ((Ty.struct ts).sig ++ r) (Ty.struct ts).sig.length = Ty.sigs ts := by
  simp only [membersOf, Ty.sig, List.cons_append, List.drop_succ_cons, List.drop_zero,
    List.length_cons, List.length_append, List.length_nil, List.append_assoc]
  exact List.take_left' (by omega)

theorem membersOf_dictEntry (k : Basic) (v : Ty) (r : Str) :
    membersOf ((Ty.dictEntry k v).sig ++ r) (Ty.dictEntry k v).sig.length =
      Ty.sigs [.basic k, v] := by
  simp only [membersOf, Ty.sig, Ty.sigs, List.cons_append, List.drop_succ_cons, List.drop_zero,
    List.length_cons, List.length_append, List.length_nil, List.append_assoc, List.append_nil,
    List.nil_append]
  have hlen : (k.code :: v.sig).length = v.sig.length + 1 + 1 + 1 - 2 := by
    rw [List.length_cons]
    omega
  exact List.take_left' hlen

structure Opens (t : Ty) (ts : List Ty) : Prop where
  head : opensMembers t.head = true
  sig : ∀ r, membersOf (t.sig ++ r) t.sig.length = Ty.sigs ts
  length : t.sig.length = (Ty.sigs ts).length + 2
  scannable : Scannable ts
  ne : ts ≠ []
  align : align t = aligns ts
  size : size t = (sizes ts 0).map (alignUp · (aligns ts))

theorem opens_struct {ts : List Ty} (h : (Ty.struct ts).Fits true 0 0) : Opens (.struct ts) ts where
  head := rfl
  sig := membersOf_struct ts
  length := by simp only [Ty.sig, List.length_cons, List.length_append, List.length_nil]
  scannable := (scannable_struct h).1
  ne := (scannable_struct h).2
  align := by rw [align]
  size := by rw [size]

theorem opens_dictEntry {k : Basic} {v : Ty} (h : (Ty.dictEntry k v).Fits true 0 0) :
    Opens (.dictEntry k v) [.basic k, v] where
  head := rfl
  sig := membersOf_dictEntry k v
  length := by
    simp only [Ty.sig, Ty.sigs, List.length_cons, List.length_append, List.length_nil,
      List.append_nil]
    omega
  scannable := scannable_dictEntry h
  ne := List.cons_ne_nil _ _
  align := align_dictEntry k v
  size := size_dictEntry k v

theorem opensMembers_code (b : Basic) : opensMembers b.code = false := by
  rcases b with (_ | _ | _ | _ | _ | _ | _ | _) | _ <;> rfl

theorem take_array (t : Ty) (r : Str) :
    (((Ty.array t).sig ++ r).drop 1).take ((Ty.array t).sig.length - 1) = t.sig := by
  simp only [Ty.sig, List.cons_append, List.drop_succ_cons, List.drop_zero, List.length_cons,
    Nat.add_sub_cancel]
  exact List.take_left' rfl

theorem scan_cons {t : Ty} (ts : List Ty) (h : t.Fits true 0 0) :
    charAt (Ty.sigs (t :: ts)) 0 = t.head ∧
      signatureElementLength (Ty.sigs (t :: ts)) = some t.sig.length ∧
      (Ty.sigs (t :: ts)).drop t.sig.length = Ty.sigs ts ∧
      (Ty.sigs (t :: ts)).take t.sig.length = t.sig := by
  rw [Ty.sigs]
  exact ⟨t.charAt_sig_append _, signatureElementLength_sig _ h, List.drop_left, List.take_left⟩

theorem sigs_cons (t : Ty) (ts : List Ty) : Ty.sigs (t :: ts) = t.sig ++ Ty.sigs ts := by
  rw [Ty.sigs]

theorem length_sigs_cons (t : Ty) (ts : List Ty) :
    (Ty.sigs (t :: ts)).length = t.sig.length + (Ty.sigs ts).length := by
  rw [Ty.sigs, List.length_append]

theorem alignment_head {fuel : Nat} {t : Ty} (r : Str) (h : t.Fits true 0 0)
    (hf : t.sig.length ≤ fuel)
    (ih : ∀ {us : List Ty}, (Ty.sigs us).length < fuel → Scannable us →
      getAlignmentLoop fuel (Ty.sigs us) 1 = some (aligns us)) :
    (if t.head = sdBusTypeArray then
        getAlignmentLoop fuel (((t.sig ++ r).drop 1).take (t.sig.length - 1)) 1
      else if opensMembers t.head then
        getAlignmentLoop fuel (membersOf (t.sig ++ r) t.sig.length) 1
      else some (leafAlignment t.head)) = some (align t) := by
  have hopens : ∀ {us : List Ty}, Opens t us → t.head ≠ sdBusTypeArray →
      (if t.head = sdBusTypeArray then
        getAlignmentLoop fuel (((t.sig ++ r).drop 1).take (t.sig.length - 1)) 1
      else if opensMembers t.head then
        getAlignmentLoop fuel (membersOf (t.sig ++ r) t.sig.length) 1
      else some (leafAlignment t.head)) = some (align t) := fun {us} ho hne => by
    have hlen := ho.length
    rw [if_neg hne, if_pos ho.head, ho.sig, ih (by omega) ho.scannable, ho.align]
  cases t with
  | basic b =>
    rw [Ty.head, if_neg b.code_ne_array, if_neg (by rw [opensMembers_code]; decide), align,
      basicAlign]
  | variant =>
    rw [Ty.head, if_neg (by decide), if_neg (by decide), align]
    rfl
  | array t =>
    have hlen : (Ty.sigs [t]).length < fuel := by
      rw [Ty.sigs_singleton]
      rw [Ty.sig, List.length_cons] at hf
      omega
    rw [Ty.head, if_pos rfl, take_array, ← Ty.sigs_singleton, ih hlen (scannable_array h), aligns,
      aligns, align, max_eq_left (align_pos t)]
  | struct us => exact hopens (opens_struct h) (by rw [Ty.head]; decide)
  | dictEntry k v => exact hopens (opens_dictEntry h) (by rw [Ty.head]; decide)

theorem getAlignmentLoop_sigs (fuel : Nat) : ∀ {ts : List Ty} {a : Nat},
    (Ty.sigs ts).length < fuel → Scannable ts → 1 ≤ a → a ≤ 8 →
    getAlignmentLoop fuel (Ty.sigs ts) a = some (max a (aligns ts)) := by
  induction fuel with
  | zero => exact fun h => absurd h (Nat.not_lt_zero _)
  | succ fuel ih =>
    intro ts a hf hs h1 h8
    have hle := (isAlign_aligns ts).le
    rw [getAlignmentLoop]
    cases ts with
    | nil =>
      rw [if_pos (show charAt (Ty.sigs []) 0 = 0 ∨ 8 ≤ a from .inl rfl), aligns, max_eq_left h1]
    | cons t ts =>
      obtain ⟨hc, hn, hd, -⟩ := scan_cons ts hs.head
      rw [length_sigs_cons] at hf
      have hpos := t.sig_pos
      have hhead := alignment_head (Ty.sigs ts) hs.head (by omega : t.sig.length ≤ fuel)
        fun hl hu => (ih hl hu le_rfl (by decide)).trans
          (congrArg some (max_eq_right (isAlign_aligns _).pos))
      rw [hc, hn]
      by_cases ha : 8 ≤ a
      · rw [if_pos (.inr ha), max_eq_left (by omega)]
      rw [if_neg (by rintro (h | h); exacts [t.head_ne_zero h, ha h])]
      dsimp only
      rw [hd, sigs_cons, hhead]
      dsimp only
      rw [ih (by omega) hs.tail (le_max_of_le_left h1)
        (max_le (by omega) (isAlign_align t).le), aligns, max_assoc]

theorem getAlignment_sigs {ts : List Ty} (h : Scannable ts) :
    busGvariantGetAlignment (Ty.sigs ts) = some (aligns ts) := by
  rw [busGvariantGetAlignment, getAlignmentLoop_sigs _ (Nat.lt_succ_self _) h le_rfl (by decide),
    max_eq_right (isAlign_aligns ts).pos]

theorem scannable_singleton {t : Ty} (h : t.Fits true 0 0) : Scannable [t] := fun u hu => by
  obtain rfl := List.mem_singleton.mp hu
  exact h

theorem getAlignment_sig {t : Ty} (h : t.Fits true 0 0) :
    busGvariantGetAlignment t.sig = some (align t) := by
  rw [← Ty.sigs_singleton, getAlignment_sigs (scannable_singleton h), aligns, aligns,
    max_eq_left (align_pos t)]

theorem size_head {fuel : Nat} {t : Ty} (r : Str) (h : t.Fits true 0 0) (hf : t.sig.length ≤ fuel)
    (ih : ∀ {us : List Ty}, (Ty.sigs us).length < fuel → Scannable us →
      getSizeLoop fuel (Ty.sigs us) 0 = sizes us 0) :
    (if opensMembers t.head then
        if t.sig.length = 2 then some 1
        else (getSizeLoop fuel (membersOf (t.sig ++ r) t.sig.length) 0).bind fun k =>
          (busGvariantGetAlignment (membersOf (t.sig ++ r) t.sig.length)).map (alignUp k)
      else leafSize t.head) = size t := by
  have hopens : ∀ {us : List Ty}, Opens t us → (if opensMembers t.head then
        if t.sig.length = 2 then some 1
        else (getSizeLoop fuel (membersOf (t.sig ++ r) t.sig.length) 0).bind fun k =>
          (busGvariantGetAlignment (membersOf (t.sig ++ r) t.sig.length)).map (alignUp k)
      else leafSize t.head) = size t := fun {us} ho => by
    have hlen := ho.length
    have hpos := Ty.sigs_pos ho.ne
    rw [if_pos ho.head, if_neg (by omega), ho.sig, ih (by omega) ho.scannable,
      getAlignment_sigs ho.scannable, ho.size]
    cases sizes us 0 <;> rfl
  cases t with
  | basic b =>
    rw [Ty.head, if_neg (by rw [opensMembers_code]; decide), size, basicSize]
  | variant =>
    rw [Ty.head, if_neg (by decide), size]
    rfl
  | array t =>
    rw [Ty.head, if_neg (by decide), size]
    rfl
  | struct us => exact hopens (opens_struct h)
  | dictEntry k v => exact hopens (opens_dictEntry h)

theorem getSizeLoop_sigs (fuel : Nat) : ∀ {ts : List Ty} {sum : Nat},
    (Ty.sigs ts).length < fuel → Scannable ts →
    getSizeLoop fuel (Ty.sigs ts) sum = sizes ts sum := by
  induction fuel with
  | zero => exact fun h => absurd h (Nat.not_lt_zero _)
  | succ fuel ih =>
    intro ts sum hf hs
    rw [getSizeLoop]
    cases ts with
    | nil => rw [if_pos (show charAt (Ty.sigs []) 0 = 0 from rfl), sizes]
    | cons t ts =>
      obtain ⟨hc, hn, hd, ht⟩ := scan_cons ts hs.head
      rw [length_sigs_cons] at hf
      have hpos := t.sig_pos
      have hhead := size_head (Ty.sigs ts) hs.head (by omega : t.sig.length ≤ fuel) fun hl hu => ih hl hu
      rw [hc, hn, if_neg t.head_ne_zero]
      dsimp only
      rw [ht, getAlignment_sig hs.head]
      dsimp only
      rw [hd, sigs_cons, hhead, sizes]
      cases size t with
      | none => rfl
      | some k => exact ih (by omega) hs.tail

theorem getSize_sigs {ts : List Ty} (h : Scannable ts) :
    busGvariantGetSize (Ty.sigs ts) = (sizes ts 0).map (alignUp · (aligns ts)) := by
  rw [busGvariantGetSize, getSizeLoop_sigs _ (Nat.lt_succ_self _) h, getAlignment_sigs h]
  cases sizes ts 0 <;> rfl

theorem isSome_sizes : ∀ (ts : List Ty) (sum : Nat),
    (sizes ts sum).isSome = ts.all fun t => (size t).isSome
  | [], sum => by
    rw [sizes]
    rfl
  | t :: ts, sum => by
    rw [sizes, List.all_cons]
    cases h : size t with
    | none => rfl
    | some k => exact isSome_sizes ts _

theorem isFixedSizeLoop_sigs (fuel : Nat) : ∀ {ts : List Ty},
    (Ty.sigs ts).length < fuel → Scannable ts →
    isFixedSizeLoop fuel (Ty.sigs ts) = some (ts.all fun t => (size t).isSome) := by
  induction fuel with
  | zero => exact fun h => absurd h (Nat.not_lt_zero _)
  | succ fuel ih =>
    intro ts hf hs
    rw [isFixedSizeLoop]
    cases ts with
    | nil => rw [if_pos (show charAt (Ty.sigs []) 0 = 0 from rfl), List.all_nil]
    | cons t ts =>
      obtain ⟨hc, hn, hd, -⟩ := scan_cons ts hs.head
      rw [length_sigs_cons] at hf
      have hpos := t.sig_pos
      have htail := ih (by omega) hs.tail
      -- the members of what opens here are all of fixed size, or the answer is known
      have hopens : ∀ {us : List Ty}, Opens t us →
          (match isFixedSizeLoop fuel (membersOf (Ty.sigs (t :: ts)) t.sig.length) with
            | some true => isFixedSizeLoop fuel (Ty.sigs ts)
            | r => r) = some ((size t).isSome && ts.all fun u => (size u).isSome) :=
        fun {us} ho => by
          have hlen := ho.length
          rw [sigs_cons, ho.sig, ih (by omega) ho.scannable, ho.size, Option.isSome_map,
            isSome_sizes, htail]
          cases us.all fun u => (size u).isSome <;> rfl
      rw [hc, hn, if_neg t.head_ne_zero, List.all_cons]
      dsimp only
      rw [hd]
      cases t with
      | basic b =>
        rw [Ty.head, opensMembers_code, htail, size, basicSize]
        rcases b with (_ | _ | _ | _ | _ | _ | _ | _) | _ <;> rfl
      | variant => rfl
      | array t => rfl
      | struct us =>
        rw [Ty.head, if_neg (by decide), if_pos (by decide)]
        exact hopens (opens_struct hs.head)
      | dictEntry k v =>
        rw [Ty.head, if_neg (by decide), if_pos (by decide)]
        exact hopens (opens_dictEntry hs.head)

theorem isFixedSize_sigs {ts : List Ty} (h : Scannable ts) :
    busGvariantIsFixedSize (Ty.sigs ts) = some (ts.all fun t => (size t).isSome) :=
  isFixedSizeLoop_sigs _ (Nat.lt_succ_self _) h

theorem isFixedSize_sig {t : Ty} (h : t.Fits true 0 0) :
    busGvariantIsFixedSize t.sig = some (size t).isSome := by
  rw [← Ty.sigs_singleton, isFixedSize_sigs (scannable_singleton h), List.all_cons, List.all_nil,
    Bool.and_true]

theorem basicSize_eq {b : Basic} {k : Nat} (h : basicSize b = some k) : k = basicAlign b := by
  rcases b with (_ | _ | _ | _ | _ | _ | _ | _) | _ <;> cases h <;> rfl

theorem align_dvd_size {t : Ty} {k : Nat} (h : size t = some k) : align t ∣ k := by
  cases t with
  | basic b =>
    rw [size] at h
    rw [align, basicSize_eq h]
  | variant => cases h
  | array t => cases h
  | struct ts =>
    rw [size] at h
    obtain ⟨s, -, rfl⟩ := Option.map_eq_some_iff.mp h
    rw [align]
    exact dvd_alignUp _ _
  | dictEntry k v =>
    rw [size_dictEntry] at h
    obtain ⟨s, -, rfl⟩ := Option.map_eq_some_iff.mp h
    rw [align_dictEntry]
    exact dvd_alignUp _ _

theorem le_sizes : ∀ {ts : List Ty} {sum n : Nat}, sizes ts sum = some n → sum ≤ n
  | [], sum, n, h => by
    rw [sizes] at h
    exact (Option.some.inj h).le
  | t :: ts, sum, n, h => by
    rw [sizes] at h
    obtain ⟨k, -, h⟩ := Option.bind_eq_some_iff.mp h
    have := le_alignUp sum (align_pos t)
    have := le_sizes h
    omega

mutual

theorem size_pos : ∀ {t : Ty} {k : Nat}, t.Fits true 0 0 → size t = some k → 0 < k
  | .basic b, k, _, h => by
    rw [size] at h
    rw [basicSize_eq h]
    exact (isAlign_leaf b.code).pos
  | .variant, _, _, h => by cases h
  | .array _, _, _, h => by cases h
  | .struct ts, k, hf, h => by
    rw [size] at h
    obtain ⟨s, hs, rfl⟩ := Option.map_eq_some_iff.mp h
    obtain ⟨hscan, hne⟩ := scannable_struct hf
    exact (sizes_pos hscan hne hs).trans_le (le_alignUp _ (isAlign_aligns ts).pos)
  | .dictEntry k v, _, _, h => by
    rw [size] at h
    obtain ⟨s, hs, rfl⟩ := Option.map_eq_some_iff.mp h
    obtain ⟨n, hn, hs⟩ := Option.bind_eq_some_iff.mp hs
    obtain ⟨m, -, hs⟩ := Option.bind_eq_some_iff.mp hs
    have hpos : 0 < n := by
      rw [basicSize_eq hn]
      exact (isAlign_leaf k.code).pos
    have hle := le_alignUp (alignUp 0 (basicAlign k) + n) (align_pos v)
    refine lt_of_lt_of_le ?_ (le_alignUp _ ((isAlign_leaf k.code).max
      ((isAlign_align v).max (.inl rfl))).pos)
    rw [← Option.some.inj hs]
    omega

theorem sizes_pos : ∀ {ts : List Ty} {sum n : Nat}, Scannable ts → ts ≠ [] →
    sizes ts sum = some n → 0 < n
  | [], _, _, _, hne, _ => absurd rfl hne
  | t :: ts, sum, n, hscan, _, h => by
    rw [sizes] at h
    obtain ⟨k, hk, h⟩ := Option.bind_eq_some_iff.mp h
    have := size_pos hscan.head hk
    have := le_sizes h
    omega

end

theorem getSize_sig {t : Ty} (h : t.Fits true 0 0) : busGvariantGetSize t.sig = size t := by
  rw [← Ty.sigs_singleton, getSize_sigs (scannable_singleton h), aligns, aligns,
    max_eq_left (align_pos t)]
  cases hk : size t with
  | none =>
    rw [sizes, hk]
    rfl
  | some k =>
    have hd := align_dvd_size hk
    rw [sizes, hk]
    simp only [Option.bind_some, sizes, Option.map_some,
      alignUp_of_dvd (align_pos t) (Nat.dvd_zero _), Nat.zero_add,
      alignUp_of_dvd (align_pos t) hd]

end Basu.GVariant
