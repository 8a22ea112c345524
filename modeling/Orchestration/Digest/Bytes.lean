namespace Orchestration.Digest

abbrev Bytes := List UInt8

def ofText (s : String) : Bytes := s.toUTF8.toList

def bigEndian (bytes : Bytes) : Nat := bytes.foldl (fun n b => 256 * n + b.toNat) 0

def littleEndian (bytes : Bytes) : Nat := bytes.foldr (fun b n => b.toNat + 256 * n) 0

def toLittleEndian (size n : Nat) : Bytes :=
  (List.range size).map fun i => .ofNat (n / Nat.pow 256 i)

def toBigEndian (size n : Nat) : Bytes := (toLittleEndian size n).reverse

def chunks {α : Type} (size : Nat) (items : List α) : List (List α) :=
  (List.range ((items.length + size - 1) / size)).map fun i => (items.drop (i * size)).take size

/-- Fill up a message to whole blocks: a one bit, zeros, and the length in bits. -/
def pad (block lengthSize : Nat) (length : Nat → Bytes) (message : Bytes) : Bytes :=
  let used := message.length + 1 + lengthSize
  message ++ 0x80 :: List.replicate ((block - used % block) % block) 0 ++ length (8 * message.length)

def hex (bytes : Bytes) : String :=
  String.ofList (bytes.flatMap fun b => [Nat.digitChar (b.toNat / 16), Nat.digitChar (b.toNat % 16)])

end Orchestration.Digest
