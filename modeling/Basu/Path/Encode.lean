import Basu.Path.Label

/-! `sd_bus_path_encode` and `sd_bus_path_decode`: a string of any kind as the last element of a path
below a prefix. The root is the one prefix below which no path comes out. -/

namespace Basu
open Lib

def sdBusPathEncode (pre : Str) (externalId : Str) : Except Errno Str :=
  if !objectPathIsValid pre then .error .einval
  else .ok (pre ++ [charSlash] ++ busLabelEscape externalId)

def sdBusPathDecode (path pre : Str) : Except Errno (Option Str) :=
  if !objectPathIsValid path then .error .einval
  else if !objectPathIsValid pre then .error .einval
  else .ok ((objectPathRemainder path pre).map busLabelUnescapeN)

def PathRoundTrips (p id : Str) : Prop :=
  ∃ path, sdBusPathEncode p id = .ok path ∧ objectPathIsValid path = true ∧
    sdBusPathDecode path p = .ok (some id)

section
variable {p : Str}

theorem sdBusPathEncode_ok (hp : objectPathIsValid p = true) (id : Str) :
    sdBusPathEncode p id = .ok (p ++ [charSlash] ++ busLabelEscape id) := by
  unfold sdBusPathEncode
  rw [hp, if_neg (by simp)]

theorem sdBusPathDecode_ok {path : Str} (hpath : objectPathIsValid path = true)
    (hp : objectPathIsValid p = true) :
    sdBusPathDecode path p = .ok ((objectPathRemainder path p).map busLabelUnescapeN) := by
  unfold sdBusPathDecode
  rw [hpath, hp, if_neg (by simp), if_neg (by simp)]

theorem not_valid_below_root (e : Str) :
    objectPathIsValid ([charSlash] ++ [charSlash] ++ e) = false := rfl

theorem zero_notMem_joinPath {es : List Str} (h : ∀ e ∈ es, NameElement isWordChar true e) :
    (0 : UInt8) ∉ joinPath es := by
  intro hmem
  obtain ⟨e, he, hx⟩ := List.mem_flatMap.mp hmem
  rcases List.mem_cons.mp hx with hx | hx
  · exact absurd hx (by decide)
  · exact (h e he).no_zero hx

theorem pathRoundTrips_of_ne_root (h0 : (0 : UInt8) ∉ p) (hp : objectPathIsValid p = true)
    (hroot : p ≠ [charSlash]) {id : Str} (hid : (0 : UInt8) ∉ id) : PathRoundTrips p id := by
  obtain ⟨-, hne, hes, hjoin⟩ := (objectPath_cases h0 hp).resolve_left hroot
  have helement := busLabelEscape_element id
  have hall : ∀ e ∈ pathElements p ++ [busLabelEscape id], NameElement isWordChar true e :=
    List.forall_mem_append.mpr ⟨hes, by simpa using helement⟩
  have hpath : p ++ [charSlash] ++ busLabelEscape id =
      joinPath (pathElements p ++ [busLabelEscape id]) := by
    rw [joinPath_append, ← hjoin, List.append_assoc]
    simp [joinPath]
  have hclean : (0 : UInt8) ∉ joinPath (pathElements p ++ [busLabelEscape id]) :=
    zero_notMem_joinPath hall
  have hvalid : objectPathIsValid (joinPath (pathElements p ++ [busLabelEscape id])) = true :=
    (objectPathIsValid_iff hclean).mpr (Or.inr ⟨_, by simp, hall, rfl⟩)
  have helements : pathElements (joinPath (pathElements p ++ [busLabelEscape id])) =
      pathElements p ++ [busLabelEscape id] := by
    rw [pathElements, if_neg (joinPath_ne_root hall), (splitOn_joinPath (by simp) hall).2]
  have hrest := (objectPathRemainder_iff hclean h0 hvalid hp (busLabelEscape id)).mpr
    ⟨[busLabelEscape id], helements, by simp⟩
  refine ⟨_, sdBusPathEncode_ok hp id, hpath ▸ hvalid, ?_⟩
  rw [hpath, sdBusPathDecode_ok hvalid hp, hrest, Option.map_some, busLabelUnescapeN_escape hid]

theorem not_pathRoundTrips_root (id : Str) : ¬PathRoundTrips [charSlash] id := by
  rintro ⟨path, hencode, hvalid, -⟩
  rw [sdBusPathEncode_ok (by decide)] at hencode
  obtain rfl := Except.ok.inj hencode
  rw [not_valid_below_root] at hvalid
  exact absurd hvalid (by simp)

/-- Every string goes into a path below the prefix and comes back from it unless the prefix is the
root; strings that differ are never encoded alike, and what is not below the prefix is no match. -/
theorem path_codec {p : Str} (h0 : (0 : UInt8) ∉ p) (hp : objectPathIsValid p = true) :
    (∀ id, (0 : UInt8) ∉ id → (PathRoundTrips p id ↔ p ≠ [charSlash])) ∧
    (∀ id id', (0 : UInt8) ∉ id → (0 : UInt8) ∉ id' →
      sdBusPathEncode p id = sdBusPathEncode p id' → id = id') ∧
    ∀ q, (0 : UInt8) ∉ q → objectPathIsValid q = true → ¬pathElements p <+: pathElements q →
      sdBusPathDecode q p = .ok none := by
  refine ⟨fun id hid => ?_, fun id id' hid hid' heq => ?_, fun q hq0 hq hno => ?_⟩
  · constructor
    · rintro h rfl
      exact not_pathRoundTrips_root id h
    · exact fun hroot => pathRoundTrips_of_ne_root h0 hp hroot hid
  · rw [sdBusPathEncode_ok hp, sdBusPathEncode_ok hp] at heq
    exact busLabelEscape_inj hid hid' (List.append_cancel_left (Except.ok.inj heq))
  · have hrest : objectPathRemainder q p = none := by
      rw [Option.eq_none_iff_forall_ne_some]
      intro r hr
      obtain ⟨es, hes, -⟩ := (objectPathRemainder_iff hq0 h0 hq hp r).mp hr
      exact hno ⟨es, hes.symm⟩
    rw [sdBusPathDecode_ok hq hp, hrest, Option.map_none]

theorem path_codec_dot : PathRoundTrips [47, 112] [97, 46, 98] :=
  ((path_codec (p := [47, 112]) (by decide) (by decide)).1 [97, 46, 98] (by decide)).mpr (by decide)

/-- Not every valid prefix and every string: the root and the string "a". -/
theorem not_path_codec_root : ¬∀ p id : Str, (0 : UInt8) ∉ p → objectPathIsValid p = true →
    (0 : UInt8) ∉ id → PathRoundTrips p id := fun h =>
  not_pathRoundTrips_root [97] (h [charSlash] [97] (by decide) (by decide) (by decide))

end

end Basu
