import Orchestration.Digest.MD5
import Orchestration.Digest.SHA1
import Orchestration.Digest.SHA2

namespace Orchestration.Digest

inductive Algorithm
  | md5
  | sha1
  | sha224
  | sha256
  | sha384
  | sha512

namespace Algorithm

def all : List Algorithm := [.md5, .sha1, .sha224, .sha256, .sha384, .sha512]

def name : Algorithm → String
  | .md5 => "md5"
  | .sha1 => "sha1"
  | .sha224 => "sha224"
  | .sha256 => "sha256"
  | .sha384 => "sha384"
  | .sha512 => "sha512"

def ofName? (s : String) : Option Algorithm := all.find? (·.name = s)

def digest : Algorithm → Bytes → Bytes
  | .md5 => MD5.digest
  | .sha1 => SHA1.digest
  | .sha224 => SHA2.digest224
  | .sha256 => SHA2.digest256
  | .sha384 => SHA2.digest384
  | .sha512 => SHA2.digest512

def hexDigest (a : Algorithm) (s : String) : String := hex (a.digest (ofText s))

end Algorithm

end Orchestration.Digest
