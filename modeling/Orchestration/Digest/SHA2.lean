import Orchestration.Digest.Bytes

/-!
The SHA-2 digests, for both word sizes. Their constants are the first bits behind the point of
square and cube roots of primes, and are computed as such.
-/

namespace Orchestration.Digest.SHA2

def root (k n : Nat) : (bits r : Nat) → Nat
  | 0, r => r
  | bits + 1, r =>
    root k n bits (if Nat.pow (r + Nat.pow 2 bits) k ≤ n then r + Nat.pow 2 bits else r)

/-- The first `bits` bits behind the point of the `k`-th root of a number below 2 ^ 10. -/
def rootFraction (k bits n : Nat) : Nat :=
  root k (n * Nat.pow 2 (k * bits)) (bits + 5) 0 % Nat.pow 2 bits

def primes : List Nat :=
  (List.range 410).filter fun n => 1 < n && (List.range n).all fun d => d < 2 || n % d != 0

structure Shifts where
  first : Nat
  second : Nat
  third : Nat

structure Family where
  width : Nat
  rounds : Nat
  upper : Shifts
  lower : Shifts
  older : Shifts
  newer : Shifts

def narrow : Family := ⟨32, 64, ⟨2, 13, 22⟩, ⟨6, 11, 25⟩, ⟨7, 18, 3⟩, ⟨17, 19, 10⟩⟩

def wide : Family := ⟨64, 80, ⟨28, 34, 39⟩, ⟨14, 18, 41⟩, ⟨1, 8, 7⟩, ⟨19, 61, 6⟩⟩

structure State (width : Nat) where
  a : BitVec width
  b : BitVec width
  c : BitVec width
  d : BitVec width
  e : BitVec width
  f : BitVec width
  g : BitVec width
  h : BitVec width

def turn {width : Nat} (s : Shifts) (x : BitVec width) : BitVec width :=
  x.rotateRight s.first ^^^ x.rotateRight s.second ^^^ x.rotateRight s.third

def turnShift {width : Nat} (s : Shifts) (x : BitVec width) : BitVec width :=
  x.rotateRight s.first ^^^ x.rotateRight s.second ^^^ x >>> s.third

namespace Family

variable (f : Family)

def constants : List (BitVec f.width) :=
  (primes.take f.rounds).map fun p => BitVec.ofNat f.width (rootFraction 3 f.width p)

def nextWord (words : List (BitVec f.width)) : List (BitVec f.width) :=
  let word (i : Nat) := words.getD i 0
  (turnShift f.newer (word 1) + word 6 + turnShift f.older (word 14) + word 15) :: words

def schedule (block : Bytes) : List (BitVec f.width) :=
  let words := (chunks (f.width / 8) block).map fun w => BitVec.ofNat f.width (bigEndian w)
  (Nat.repeat f.nextWord (f.rounds - 16) words.reverse).reverse

def step (s : State f.width) : BitVec f.width × BitVec f.width → State f.width
  | (constant, word) =>
    let choice := (s.e &&& s.f) ^^^ (~~~s.e &&& s.g)
    let majority := (s.a &&& s.b) ^^^ (s.a &&& s.c) ^^^ (s.b &&& s.c)
    let sum := s.h + turn f.lower s.e + choice + constant + word
    ⟨sum + turn f.upper s.a + majority, s.a, s.b, s.c, s.d + sum, s.e, s.f, s.g⟩

def compress (s : State f.width) (block : Bytes) : State f.width :=
  let t := (f.constants.zip (f.schedule block)).foldl f.step s
  ⟨s.a + t.a, s.b + t.b, s.c + t.c, s.d + t.d, s.e + t.e, s.f + t.f, s.g + t.g, s.h + t.h⟩

def start (words : List Nat) : State f.width :=
  let word (i : Nat) := BitVec.ofNat f.width (words.getD i 0)
  ⟨word 0, word 1, word 2, word 3, word 4, word 5, word 6, word 7⟩

def digest (start : List Nat) (size : Nat) (message : Bytes) : Bytes :=
  let word := f.width / 8
  let blocks := chunks (16 * word) (pad (16 * word) (2 * word) (toBigEndian (2 * word)) message)
  let s := blocks.foldl f.compress (f.start start)
  ([s.a, s.b, s.c, s.d, s.e, s.f, s.g, s.h].flatMap fun w => toBigEndian word w.toNat).take size

end Family

def firstRoots (bits : Nat) : List Nat := (primes.take 8).map (rootFraction 2 bits)

def nextRoots : List Nat := ((primes.drop 8).take 8).map (rootFraction 2 64)

def digest224 : Bytes → Bytes := narrow.digest nextRoots 28

def digest256 : Bytes → Bytes := narrow.digest (firstRoots 32) 32

def digest384 : Bytes → Bytes := wide.digest nextRoots 48

def digest512 : Bytes → Bytes := wide.digest (firstRoots 64) 64

end Orchestration.Digest.SHA2
