import Orchestration.Digest.Bytes

/-!
The keyed hash SipHash with one round for each word and three at the end, under the zero key.
-/

namespace Orchestration.Digest.SipHash

structure State where
  a : UInt64
  b : UInt64
  c : UInt64
  d : UInt64

def State.start : State :=
  ⟨0x736f6d6570736575, 0x646f72616e646f6d, 0x6c7967656e657261, 0x7465646279746573⟩

def rotate (x n : UInt64) : UInt64 := (x <<< n) ||| (x >>> (64 - n))

def round (s : State) : State :=
  let a := s.a + s.b
  let b := rotate s.b 13 ^^^ a
  let a := rotate a 32
  let c := s.c + s.d
  let d := rotate s.d 16 ^^^ c
  let a := a + d
  let d := rotate d 21 ^^^ a
  let c := c + b
  let b := rotate b 17 ^^^ c
  ⟨a, b, rotate c 32, d⟩

def absorb (s : State) (word : UInt64) : State :=
  let s := round { s with d := s.d ^^^ word }
  { s with a := s.a ^^^ word }

def words (message : Bytes) : List UInt64 :=
  let whole := message.length / 8 * 8
  let last := littleEndian (message.drop whole) + message.length % 256 * Nat.pow 2 56
  ((chunks 8 (message.take whole)).map fun w => UInt64.ofNat (littleEndian w)) ++ [.ofNat last]

def hash (message : Bytes) : UInt64 :=
  let s := (words message).foldl absorb .start
  let s := Nat.repeat round 3 { s with c := s.c ^^^ 0xff }
  s.a ^^^ s.b ^^^ s.c ^^^ s.d

end Orchestration.Digest.SipHash
