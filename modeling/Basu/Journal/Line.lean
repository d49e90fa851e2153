import Basu.Address.Parse
import Basu.Socket.Auth

/-! The numbers that the fields of a journal entry may hold, the line of an entry, and the buffer of
1024 bytes that it is put together in. -/

namespace Basu.Journal
open Lib

def behindSign (s : Str) : Str := if charAt s 0 = 45 ∨ charAt s 0 = 43 then s.drop 1 else s

/-- `strtol` in base ten, on 64 bits; nothing where no number starts. -/
def strtol (s : Str) : Option Int :=
  let t := s.dropWhile isSpace
  if (digitValue 10 (charAt (behindSign t) 0)).isNone then none
  else
    let value : Int := (strtoulDigits 10 0 (behindSign t)).1
    some (if charAt t 0 = 45 then max (-value) (-2 ^ 63) else min value (2 ^ 63 - 1))

/-- `strtoul` in base ten, on 64 bits. -/
def strtoul (s : Str) : Nat :=
  let t := s.dropWhile isSpace
  let value := (strtoulDigits 10 0 (behindSign t)).1
  if 2 ^ 64 ≤ value then 2 ^ 64 - 1
  else if charAt t 0 = 45 then (2 ^ 64 - value) % 2 ^ 64
  else value

def EndsNumeral (c : UInt8) : Prop :=
  isSpace c = false ∧ c ≠ 45 ∧ c ≠ 43 ∧ digitValue 10 c = none

def prioTag (prio : Nat) : Str :=
  match prio with
  | 0 => str "EMRG"
  | 1 => str "ALRT"
  | 2 => str "CRIT"
  | 3 => str "ERR "
  | 4 => str "WARN"
  | 5 => str "NOTE"
  | 6 => str "INFO"
  | 7 => str "DBG "
  | _ => str "INFO"

def lineSz : Nat := 1024

def bappendf (buf text : Str) : Str :=
  if buf.length + text.length < lineSz then buf ++ text
  else buf ++ text.take (lineSz - 1 - buf.length)

def bappendRaw (buf s : Str) : Str :=
  if lineSz - 1 ≤ buf.length then buf
  else if lineSz - 1 - buf.length < s.length then buf ++ s.take (lineSz - 1 - buf.length)
  else buf ++ s

def baseName (path : Str) : Str := (path.reverse.takeWhile fun c => c ≠ charSlash).reverse

def truncated (text : Str) : Str := text.take (lineSz - 1)

theorem truncated_append (text s : Str) :
    truncated (text ++ s) =
      truncated text ++ s.take (lineSz - 1 - (truncated text).length) := by
  have hlen : (truncated text).length = min (lineSz - 1) text.length := List.length_take
  rw [truncated, List.take_append]
  by_cases hle : text.length ≤ lineSz - 1
  · rw [hlen, min_eq_right hle]
    rfl
  · rw [hlen, min_eq_left (by omega), Nat.sub_self, show lineSz - 1 - text.length = 0 by omega]
    rfl

theorem bappendf_truncated (text s : Str) :
    bappendf (truncated text) s = truncated (text ++ s) := by
  rw [truncated_append, bappendf]
  split
  · next h => rw [List.take_of_length_le (by omega)]
  · rfl

theorem bappendf_nil (s : Str) : bappendf [] s = truncated s := bappendf_truncated [] s

theorem bappendRaw_truncated (text s : Str) :
    bappendRaw (truncated text) s = truncated (text ++ s) := by
  rw [truncated_append, bappendRaw]
  split
  · next h => rw [show lineSz - 1 - (truncated text).length = 0 by omega, List.take_zero,
      List.append_nil]
  · split
    · rfl
    · rw [List.take_of_length_le (by omega)]

end Basu.Journal
