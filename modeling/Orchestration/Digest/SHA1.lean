import Orchestration.Digest.Bytes

namespace Orchestration.Digest.SHA1

structure State where
  a : UInt32
  b : UInt32
  c : UInt32
  d : UInt32
  e : UInt32

def State.start : State := ⟨0x67452301, 0xefcdab89, 0x98badcfe, 0x10325476, 0xc3d2e1f0⟩

def rotate (x n : UInt32) : UInt32 := (x <<< n) ||| (x >>> (32 - n))

def nextWord (words : List UInt32) : List UInt32 :=
  let word (i : Nat) := words.getD i 0
  rotate (word 2 ^^^ word 7 ^^^ word 13 ^^^ word 15) 1 :: words

def schedule (block : Bytes) : List UInt32 :=
  let words := (chunks 4 block).map fun w => UInt32.ofNat (bigEndian w)
  (Nat.repeat nextWord 64 words.reverse).reverse

def step (s : State) : UInt32 × Nat → State
  | (word, i) =>
    let (mixed, constant) : UInt32 × UInt32 :=
      if i < 20 then ((s.b &&& s.c) ||| (~~~s.b &&& s.d), 0x5a827999)
      else if i < 40 then (s.b ^^^ s.c ^^^ s.d, 0x6ed9eba1)
      else if i < 60 then ((s.b &&& s.c) ||| (s.b &&& s.d) ||| (s.c &&& s.d), 0x8f1bbcdc)
      else (s.b ^^^ s.c ^^^ s.d, 0xca62c1d6)
    ⟨rotate s.a 5 + mixed + s.e + constant + word, s.a, rotate s.b 30, s.c, s.d⟩

def compress (s : State) (block : Bytes) : State :=
  let t := (schedule block).zipIdx.foldl step s
  ⟨s.a + t.a, s.b + t.b, s.c + t.c, s.d + t.d, s.e + t.e⟩

def digest (message : Bytes) : Bytes :=
  let s := (chunks 64 (pad 64 8 (toBigEndian 8) message)).foldl compress .start
  [s.a, s.b, s.c, s.d, s.e].flatMap fun w => toBigEndian 4 w.toNat

end Orchestration.Digest.SHA1
