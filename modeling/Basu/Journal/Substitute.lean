import Basu.Lib.Text
import Basu.Type

/-! `substitute_fields`: the placeholders in the message of a journal entry. From the second field on
the text is rewritten in the buffer it stands in. -/

namespace Basu.Journal
open Lib

structure JournalKv where
  key : Str
  val : Str
  key_fits : key.length < 40
  val_fits : val.length < 192
  key_clean : (0 : UInt8) ∉ key
  val_clean : (0 : UInt8) ∉ val

def charBraceOpen : UInt8 := 123
def charBraceClose : UInt8 := 125

def JournalKv.brace (kv : JournalKv) : Str := charBraceOpen :: (kv.key ++ [charBraceClose])

/-- Where a turn of the loop over the fields stands: the buffer, where it reads and writes, and how
much it may still write. -/
structure Rewriting where
  dst : Str
  r : Nat
  w : Nat
  wsize : Nat

/-- `memcpy` of what fits; the bytes are those that stand in the source before. Nothing may be
written behind the buffer. -/
def Rewriting.put (x : Rewriting) (bytes : Str) : Option Rewriting :=
  let n := min bytes.length x.wsize
  if x.w + n ≤ x.dst.length then
    some { x with dst := patch x.dst x.w (bytes.take n), w := x.w + n, wsize := x.wsize - n }
  else none

/-- The loop over the hits. Without a source the text is read from the buffer that is written. -/
def rewriteLoop (src : Option Str) (brace val : Str) : Nat → Rewriting → Option Rewriting
  | 0, _ => none
  | fuel + 1, x =>
    match stringAt ((src.map (· ++ [0])).getD x.dst) x.r with
    | none => none
    | some [] => some x
    | some (c :: s) =>
      match firstPlace brace (c :: s) with
      | none => x.put (c :: s)
      | some hit =>
        match (x.put ((c :: s).take hit)).bind fun x => x.put val with
        | none => none
        | some y => rewriteLoop src brace val fuel { y with r := x.r + hit + brace.length }

def substituteField (src : Option Str) (kv : JournalKv) (dst : Str) : Option Str :=
  let size := ((src.map (· ++ [0])).getD dst).length
  let wsize := (dst.length + (2 ^ 64 - 1)) % 2 ^ 64
  match rewriteLoop src kv.brace kv.val (size + 1)
    { dst := dst, r := 0, w := 0, wsize := wsize } with
  | none => none
  | some x => if x.w < x.dst.length then some (patch x.dst x.w [0]) else none

/-- The loop over the fields; `dst` is the buffer of the caller with its size. -/
def substituteFields : Option Str → List JournalKv → Str → Option Str
  | _, [], dst => some dst
  | src, kv :: kvs, dst =>
    match substituteField src kv dst with
    | none => none
    | some dst => substituteFields none kvs dst

/-- What has been written, cut at `n`, stands at the start of the buffer. -/
def written (dst : Str) (n : Nat) (out : Str) (r : Nat) : Rewriting where
  dst := patch dst 0 (out.take n)
  r := r
  w := (out.take n).length
  wsize := n - (out.take n).length

section
variable {dst src' : Str} {n : Nat} {src : Option Str} {brace val T : Str}

end

end Basu.Journal
