import Basu.GVariant.Type
import Basu.Lib.Layout

/-! What the three scans of `bus-gvariant.c` over a signature are for: its types are laid out one
behind the other, each at its own alignment. -/

namespace Basu.GVariant
open Lib

def width : Basic → Option Nat
  | .num .byte | .boolean => some 1
  | .num .int16 | .num .uint16 => some 2
  | .num .int32 | .num .uint32 | .unixFd => some 4
  | .num .int64 | .num .uint64 | .num .double => some 8
  | .string | .objectPath | .signature => none

mutual

def typeAlignment : Ty → Nat
  | .basic b => (width b).getD 1
  | .variant => 8
  | .array t => typeAlignment t
  | .struct ts => typesAlignment ts
  | .dictEntry k v => max ((width k).getD 1) (typeAlignment v)

def typesAlignment : List Ty → Nat
  | [] => 1
  | t :: ts => max (typeAlignment t) (typesAlignment ts)

end

mutual

/-- All values of the type take so many bytes: the members lie at their own alignments, and padding
follows the last one. -/
inductive HasSize : Ty → Nat → Prop
  | basic {b : Basic} {k : Nat} : width b = some k → HasSize (.basic b) k
  | struct {ts : List Ty} {ms : List (Nat × Nat)} {e k : Nat} : Members ts ms → LaidOut 0 ms e →
      NextAligned e (typesAlignment ts) k → HasSize (.struct ts) k
  | dictEntry {b : Basic} {v : Ty} {ms : List (Nat × Nat)} {e k : Nat} :
      Members [.basic b, v] ms → LaidOut 0 ms e → NextAligned e (typesAlignment [.basic b, v]) k →
        HasSize (.dictEntry b v) k

inductive Members : List Ty → List (Nat × Nat) → Prop
  | nil : Members [] []
  | cons {t : Ty} {ts : List Ty} {k : Nat} {ms : List (Nat × Nat)} : HasSize t k →
      Members ts ms → Members (t :: ts) ((k, typeAlignment t) :: ms)

end

/-- The types of a signature take so many bytes, padding included. -/
def Takes (ts : List Ty) (k : Nat) : Prop :=
  ∃ ms e, Members ts ms ∧ LaidOut 0 ms e ∧ NextAligned e (typesAlignment ts) k

theorem hasSize_struct {ts : List Ty} {k : Nat} : HasSize (.struct ts) k ↔ Takes ts k := by
  constructor
  · rintro (_ | ⟨hm, hl, hk⟩)
    exact ⟨_, _, hm, hl, hk⟩
  · rintro ⟨ms, e, hm, hl, hk⟩
    exact .struct hm hl hk

theorem hasSize_dictEntry {b : Basic} {v : Ty} {k : Nat} :
    HasSize (.dictEntry b v) k ↔ Takes [.basic b, v] k := by
  constructor
  · rintro (_ | _ | ⟨hm, hl, hk⟩)
    exact ⟨_, _, hm, hl, hk⟩
  · rintro ⟨ms, e, hm, hl, hk⟩
    exact .dictEntry hm hl hk

theorem typesAlignment_eq_foldr (ts : List Ty) :
    typesAlignment ts = (ts.map typeAlignment).foldr max 1 := by
  induction ts with
  | nil => rw [typesAlignment, List.map_nil, List.foldr_nil]
  | cons t ts ih => rw [typesAlignment, ih, List.map_cons, List.foldr_cons]

theorem width_alignment (b : Basic) : (width b).getD 1 = basicAlign b := by
  rcases b with (_ | _ | _ | _ | _ | _ | _ | _) | _ <;> rfl

theorem width_eq (b : Basic) : width b = basicSize b := by
  rcases b with (_ | _ | _ | _ | _ | _ | _ | _) | _ <;> rfl

mutual

theorem typeAlignment_eq : ∀ t : Ty, typeAlignment t = align t
  | .basic b => by rw [typeAlignment, align, width_alignment]
  | .variant => by rw [typeAlignment, align]
  | .array t => by rw [typeAlignment, align, typeAlignment_eq t]
  | .struct ts => by rw [typeAlignment, align, typesAlignment_eq ts]
  | .dictEntry k v => by
    rw [typeAlignment, align, width_alignment, typeAlignment_eq v, Nat.max_eq_left (align_pos v)]

theorem typesAlignment_eq : ∀ ts : List Ty, typesAlignment ts = aligns ts
  | [] => by rw [typesAlignment, aligns]
  | t :: ts => by rw [typesAlignment, aligns, typeAlignment_eq t, typesAlignment_eq ts]

end

def SizesExact (ts : List Ty) : Prop :=
  ∀ n e, sizes ts n = some e ↔ ∃ ms, Members ts ms ∧ LaidOut n ms e

theorem sizesExact_nil : SizesExact [] := by
  intro n e
  rw [sizes, Option.some_inj]
  constructor
  · rintro rfl
    exact ⟨[], .nil, .nil n⟩
  · rintro ⟨_, ⟨⟩, ⟨⟩⟩
    rfl

theorem sizesExact_cons {t : Ty} {ts : List Ty} (hhead : ∀ k, size t = some k ↔ HasSize t k)
    (htail : SizesExact ts) : SizesExact (t :: ts) := by
  intro n e
  rw [sizes, Option.bind_eq_some_iff]
  constructor
  · rintro ⟨k, hk, hrest⟩
    obtain ⟨ms, hms, hlaid⟩ := (htail _ _).mp hrest
    refine ⟨_, .cons ((hhead k).mp hk) hms, .cons ?_ hlaid⟩
    rw [typeAlignment_eq]
    exact nextAligned_alignUp n (align_pos t)
  · rintro ⟨_, hmembers, hlaid⟩
    cases hmembers with
    | cons hk hms =>
      cases hlaid with
      | cons hx hlaid =>
        rw [typeAlignment_eq, nextAligned_iff (align_pos t)] at hx
        subst hx
        exact ⟨_, (hhead _).mpr hk, (htail _ _).mpr ⟨_, hms, hlaid⟩⟩

theorem takes_iff {ts : List Ty} (h : SizesExact ts) {k : Nat} :
    (sizes ts 0).map (alignUp · (aligns ts)) = some k ↔ Takes ts k := by
  rw [Option.map_eq_some_iff]
  constructor
  · rintro ⟨e, he, rfl⟩
    obtain ⟨ms, hms, hlaid⟩ := (h _ _).mp he
    refine ⟨ms, e, hms, hlaid, ?_⟩
    rw [typesAlignment_eq]
    exact nextAligned_alignUp e (isAlign_aligns ts).pos
  · rintro ⟨ms, e, hms, hlaid, hk⟩
    rw [typesAlignment_eq, nextAligned_iff (isAlign_aligns ts).pos] at hk
    exact ⟨e, (h _ _).mpr ⟨ms, hms, hlaid⟩, hk⟩

theorem size_basic_iff {b : Basic} (k : Nat) :
    size (.basic b) = some k ↔ HasSize (.basic b) k := by
  rw [size, ← width_eq]
  constructor
  · exact .basic
  · rintro (h | _ | _)
    exact h

mutual

theorem size_iff : ∀ (t : Ty) (k : Nat), size t = some k ↔ HasSize t k
  | .basic _, k => size_basic_iff k
  | .variant, _ => by
    rw [size]
    exact ⟨nofun, nofun⟩
  | .array _, _ => by
    rw [size]
    exact ⟨nofun, nofun⟩
  | .struct ts, k => by rw [size, takes_iff (sizes_iff ts), hasSize_struct]
  | .dictEntry b v, k => by
    rw [size_dictEntry, hasSize_dictEntry,
      takes_iff (sizesExact_cons size_basic_iff (sizesExact_cons (size_iff v) sizesExact_nil))]

theorem sizes_iff : ∀ ts : List Ty, SizesExact ts
  | [] => sizesExact_nil
  | t :: ts => sizesExact_cons (size_iff t) (sizes_iff ts)

end

mutual

theorem size_le : ∀ (t : Ty) {k : Nat}, size t = some k → k + 8 ≤ 16 * t.sig.length
  | .basic b, k, h => by
    have hk := (isAlign_leaf b.code).le
    rw [size] at h
    rw [basicSize_eq h, Ty.sig, List.length_singleton]
    exact Nat.add_le_add_right hk 8
  | .variant, _, h => by cases h
  | .array _, _, h => by cases h
  | .struct ts, k, h => by
    rw [size] at h
    obtain ⟨e, he, rfl⟩ := Option.map_eq_some_iff.mp h
    have hle := sizes_le ts he
    have hlt := alignUp_lt e (isAlign_aligns ts).pos
    have h8 := (isAlign_aligns ts).le
    rw [Ty.sig, List.length_cons, List.length_append, List.length_singleton]
    omega
  | .dictEntry b v, k, h => by
    rw [size_dictEntry] at h
    obtain ⟨e, he, rfl⟩ := Option.map_eq_some_iff.mp h
    simp only [sizes, Option.bind_eq_some_iff, Option.some_inj] at he
    obtain ⟨n, hn, m, hm, rfl⟩ := he
    rw [size] at hn
    have hkey : basicAlign b ≤ 8 := (isAlign_leaf b.code).le
    rw [← basicSize_eq hn] at hkey
    have hvalue := size_le v hm
    have hstart := alignUp_lt 0 (align_pos (.basic b))
    have hbegin := alignUp_lt (alignUp 0 (align (.basic b)) + n) (align_pos v)
    have hend := alignUp_lt (alignUp (alignUp 0 (align (.basic b)) + n) (align v) + m)
      (isAlign_aligns [.basic b, v]).pos
    have h8 := (isAlign_align (.basic b)).le
    have h8' := (isAlign_align v).le
    have h8'' := (isAlign_aligns [.basic b, v]).le
    rw [Ty.sig, List.length_cons, List.length_cons, List.length_append, List.length_singleton]
    omega

theorem sizes_le : ∀ (ts : List Ty) {n e : Nat}, sizes ts n = some e →
    e ≤ n + 16 * (Ty.sigs ts).length
  | [], n, e, h => by
    rw [sizes, Option.some_inj] at h
    omega
  | t :: ts, n, e, h => by
    rw [sizes, Option.bind_eq_some_iff] at h
    obtain ⟨k, hk, h⟩ := h
    have hhead := size_le t hk
    have htail := sizes_le ts h
    have hlt := alignUp_lt n (align_pos t)
    have h8 := (isAlign_align t).le
    rw [length_sigs_cons]
    omega

end

/-- A valid signature: its alignment is the largest of its types, and where it has a size, its types
take that many bytes, so that equal elements lie one behind the other. The size fits an `int`. -/
theorem signature_layout {s : Str} (h0 : (0 : UInt8) ∉ s) (allow : Bool)
    (h : signatureIsValid s allow = true) :
    ∃ ts a, s = Ty.sigs ts ∧ busGvariantGetAlignment s = some a ∧
      (a = 1 ∨ a = 2 ∨ a = 4 ∨ a = 8) ∧ a = (ts.map typeAlignment).foldr max 1 ∧
      (busGvariantIsFixedSize s = some true ↔ (busGvariantGetSize s).isSome = true) ∧
      (∀ k, busGvariantGetSize s = some k ↔ Takes ts k) ∧
      ∀ k, busGvariantGetSize s = some k →
        a ∣ k ∧ (∀ i, LaidOut 0 (List.replicate i (k, a)) (i * k)) ∧ k < 2 ^ 31 := by
  obtain ⟨ts, hs, hfit, hlen⟩ := (signatureIsValid_iff h0 allow).mp h
  have hscan : Scannable ts := fun t ht => (hfit t ht).mono (fun _ => rfl) le_rfl le_rfl
  have hsize := getSize_sigs hscan
  refine ⟨ts, aligns ts, hs, ?_⟩
  rw [hs] at hlen ⊢
  refine ⟨getAlignment_sigs hscan, isAlign_aligns ts, ?_, ?_, ?_, ?_⟩
  · rw [← typesAlignment_eq, typesAlignment_eq_foldr]
  · rw [isFixedSize_sigs hscan, hsize, Option.isSome_map, isSome_sizes, Option.some_inj]
  · exact fun k => hsize ▸ takes_iff (sizes_iff ts)
  · intro k hk
    rw [hsize] at hk
    obtain ⟨e, he, rfl⟩ := Option.map_eq_some_iff.mp hk
    have hdvd := dvd_alignUp e (aligns ts)
    refine ⟨hdvd, fun i => ?_, ?_⟩
    · have hlaid := laidOut_replicate hdvd i (Nat.dvd_zero _)
      rwa [Nat.zero_add] at hlaid
    · have hle := sizes_le ts he
      have hlt := alignUp_lt e (isAlign_aligns ts).pos
      have h8 := (isAlign_aligns ts).le
      omega

theorem signature_layout_structure : ∃ ts a,
    [40, 121, 120, 41, 121] = Ty.sigs ts ∧
      busGvariantGetAlignment [40, 121, 120, 41, 121] = some a ∧
      (a = 1 ∨ a = 2 ∨ a = 4 ∨ a = 8) ∧ a = (ts.map typeAlignment).foldr max 1 ∧
      (busGvariantIsFixedSize [40, 121, 120, 41, 121] = some true ↔
        (busGvariantGetSize [40, 121, 120, 41, 121]).isSome = true) ∧
      (∀ k, busGvariantGetSize [40, 121, 120, 41, 121] = some k ↔ Takes ts k) ∧
      ∀ k, busGvariantGetSize [40, 121, 120, 41, 121] = some k →
        a ∣ k ∧ (∀ i, LaidOut 0 (List.replicate i (k, a)) (i * k)) ∧ k < 2 ^ 31 :=
  signature_layout (by decide) false
    (@signatureIsValid_sigs
      [.struct [.basic (.num .byte), .basic (.num .int64)], .basic (.num .byte)] false
      (by simp [Ty.Fits, Ty.AllFit, maxDepth]) (by decide))

end Basu.GVariant
