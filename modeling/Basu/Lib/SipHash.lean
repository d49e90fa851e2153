import Basu.Lib.Blocks

/-! SipHash as its authors define it: four words, to which the words of the message are added one at
a time, the last of them filled with zeros and the length of the message. -/

namespace Lib.SipHash

structure Words where
  v0 : UInt64
  v1 : UInt64
  v2 : UInt64
  v3 : UInt64
  deriving DecidableEq

def rotl (x : UInt64) (n : Nat) : UInt64 := ⟨x.toBitVec.rotateLeft n⟩

def halfRound (a b c d : UInt64) (s t : Nat) : UInt64 × UInt64 × UInt64 × UInt64 :=
  (rotl (a + b) 32, rotl b s ^^^ (a + b), c + d, rotl d t ^^^ (c + d))

def round (v : Words) : Words :=
  let (a, b, c, d) := halfRound v.v0 v.v1 v.v2 v.v3 13 16
  let (c, b, a, d) := halfRound c b a d 17 21
  ⟨a, b, c, d⟩

def rounds : Nat → Words → Words
  | 0, v => v
  | n + 1, v => rounds n (round v)

def word (bs : Bytes) : UInt64 := UInt64.ofNat (getLE bs)

def addBlock (c : Nat) (v : Words) (block : Bytes) : Words :=
  let v := rounds c { v with v3 := v.v3 ^^^ word block }
  { v with v0 := v.v0 ^^^ word block }

def start (k0 k1 : UInt64) : Words where
  v0 := k0 ^^^ 0x736f6d6570736575
  v1 := k1 ^^^ 0x646f72616e646f6d
  v2 := k0 ^^^ 0x6c7967656e657261
  v3 := k1 ^^^ 0x7465646279746573

def pad (msg : Bytes) : Bytes := msg ++ (zeros (7 - msg.length % 8) ++ [UInt8.ofNat msg.length])

def finish (d : Nat) (v : Words) : UInt64 :=
  let v := rounds d { v with v2 := v.v2 ^^^ 0xff }
  v.v0 ^^^ v.v1 ^^^ v.v2 ^^^ v.v3

def sipHash (c d : Nat) (k0 k1 : UInt64) (msg : Bytes) : UInt64 :=
  finish d (((List.range (msg.length / 8 + 1)).map fun i => ((pad msg).drop (i * 8)).take 8).foldl
    (addBlock c) (start k0 k1))

theorem sipHash_eq (c d : Nat) (k0 k1 : UInt64) (msg : Bytes) :
    sipHash c d k0 k1 msg =
      finish d (addBlock c (absorb (addBlock c) 8 (start k0 k1) msg).1
        ((absorb (addBlock c) 8 (start k0 k1) msg).2 ++
          (zeros (7 - msg.length % 8) ++ [UInt8.ofNat msg.length]))) := by
  have hle : msg.length / 8 * 8 ≤ msg.length := Nat.div_mul_le_self _ _
  have hlen : ((absorb (addBlock c) 8 (start k0 k1) msg).2 ++
      (zeros (7 - msg.length % 8) ++ [UInt8.ofNat msg.length])).length = 8 := by
    rw [List.length_append, length_absorb, List.length_append, length_zeros,
      List.length_singleton]
    omega
  rw [sipHash, ← takeBlocks_eq_foldl, takeBlocks_add, pad, takeBlocks_append _ _ _ hle,
    List.drop_append_of_le_length hle]
  change finish d (addBlock c (absorb (addBlock c) 8 (start k0 k1) msg).1 (List.take 8
    ((absorb (addBlock c) 8 (start k0 k1) msg).2 ++ _))) = _
  rw [List.take_of_length_le hlen.le]

end Lib.SipHash
