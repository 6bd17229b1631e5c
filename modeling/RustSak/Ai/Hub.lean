import RustSak.Library.Text

/-!
# Listed files and their hashes

A file of a listing, and how bytes are checked against it. The two hash functions
are parameters.
-/

namespace RustSak

namespace Ai

open Library

/-- SHA-256 and git's blob SHA-1, in hex. -/
structure Digests (β : Type) where
  sha256 : List β → String
  gitBlobSha1 : List β → String

/-- A file's expected hash, in hex. -/
inductive Hash where
  | sha256 (hex : String)
  | gitBlobSha1 (hex : String)
  deriving DecidableEq

namespace Hash

variable {β : Type} (d : Digests β)

def hex : Hash → String
  | sha256 hex => hex
  | gitBlobSha1 hex => hex

def isSha256 : Hash → Bool
  | sha256 _ => true
  | gitBlobSha1 _ => false

def ofFile (bytes : List β) : Hash → Hash
  | sha256 _ => .sha256 (d.sha256 bytes)
  | gitBlobSha1 _ => .gitBlobSha1 (d.gitBlobSha1 bytes)

/-- Whether `hex` is this digest, ignoring case. -/
def isHex (hash : Hash) (hex : String) : Bool :=
  Text.eqIgnoreAsciiCase hash.hex.toList (Text.trimSpace hex.toList)

/-- `verify_file`. -/
def verifies (hash : Hash) (bytes : List β) : Bool :=
  hash.isHex (hash.ofFile d bytes).hex

/-- Bytes that have a hash have every hash of its kind that has its hex. -/
theorem verifies_of_isHex {hash old : Hash} {bytes : List β}
    (hkind : hash.isSha256 = old.isSha256) (hhex : hash.isHex old.hex = true)
    (hverifies : old.verifies d bytes = true) : hash.verifies d bytes = true := by
  have hdigest : (hash.ofFile d bytes).hex = (old.ofFile d bytes).hex := by
    cases hash with
    | sha256 hex =>
        cases old with
        | sha256 hex' => rfl
        | gitBlobSha1 hex' => cases hkind
    | gitBlobSha1 hex =>
        cases old with
        | sha256 hex' => cases hkind
        | gitBlobSha1 hex' => rfl
  rw [verifies, isHex, hdigest]
  exact Text.eqIgnoreAsciiCase_trimSpace_trans hhex hverifies

end Hash

structure RemoteFile where
  path : String
  size : ℕ
  hash : Hash
  deriving DecidableEq

def RemoteFile.fileName (file : RemoteFile) : String :=
  String.ofList ((file.path.toList.splitOn '/').getLastD [])

/-- What went wrong installing one dependency. -/
inductive Failure where
  | network
  | http (status : ℕ)
  | diskFull
  | io (reason : String)
  | damaged (path expected actual : String)
  | unsupportedPlatform (os arch : String)
  | malformed (reason : String)
  | notListed
  | unlisted
  | wrongListing (listing folder : String)
  deriving DecidableEq

structure InstallError where
  dependency : String
  failure : Failure
  deriving DecidableEq

end Ai

end RustSak
