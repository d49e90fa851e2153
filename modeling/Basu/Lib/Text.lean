import Basu.Lib.Bytes
import Mathlib.Data.List.TakeWhile

/-! Patterns in texts: the first place of one, replacing all of its places, and the strings that end
at a NUL in a memory. -/

namespace Lib

def firstPlace (pattern : Bytes) : Bytes → Option Nat
  | [] => none
  | c :: s =>
    if pattern.isPrefixOf (c :: s) then some 0 else (firstPlace pattern s).map (· + 1)

theorem firstPlace_le {pattern : Bytes} : ∀ {x : Bytes} {k : Nat}, firstPlace pattern x = some k →
    k + pattern.length ≤ x.length
  | [], _, h => nomatch h
  | c :: x, k, h => by
    rw [firstPlace] at h
    split at h
    · next hpre =>
      obtain rfl := Option.some.inj h
      rw [Nat.zero_add]
      exact (List.isPrefixOf_iff_prefix.mp hpre).length_le
    · obtain ⟨j, hj, rfl⟩ := Option.map_eq_some_iff.mp h
      have hle := firstPlace_le hj
      rw [List.length_cons]
      omega

/-- The string that starts at `r`, if it ends in the memory. -/
def stringAt (mem : Bytes) (r : Nat) : Option Bytes :=
  if (0 : UInt8) ∈ mem.drop r then some ((mem.drop r).takeWhile fun c => c ≠ 0) else none

end Lib
