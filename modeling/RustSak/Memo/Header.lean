import RustSak.Memo.Store
import RustSak.Library.BigEndian

/-!
# Typed values as bytes

A typed value is stored behind a version byte and the fingerprint of its type.
Reading back checks both and wants the payload consumed exactly; whatever fails
is a miss. `Postcard` is the serializer: what it writes for a value, it reads
back to that value with nothing left over.
-/

namespace RustSak

namespace Memo

open Library

structure Postcard (V π : Type) where
  /-- What `to_extend` appends. -/
  toExtend : V → Except π Bytes
  takeFromBytes : Bytes → Option (V × Bytes)
  take_to : ∀ value payload, toExtend value = .ok payload →
    takeFromBytes payload = some (value, [])

namespace Header

def version : UInt8 := 0x01

/-- The version byte plus the type fingerprint. -/
def len : ℕ := 1 + 8

def fingerprintBytes (fingerprint : UInt64) : Bytes :=
  BigEndian.toBytes 8 fingerprint.toNat

variable {V π : Type}

def encode (C : Postcard V π) (fingerprint : UInt64) (value : V) :
    Except π Bytes :=
  (C.toExtend value).map fun payload =>
    version :: fingerprintBytes fingerprint ++ payload

/-- Every rejection is a miss: too short, another version, another type's
fingerprint, a payload that does not parse, or one with bytes left over. -/
def decode (C : Postcard V π) (fingerprint : UInt64) (bytes : Bytes) : Option V :=
  if bytes.length < len then
    none
  else if bytes.take len ≠ version :: fingerprintBytes fingerprint then
    none
  else
    (C.takeFromBytes (bytes.drop len)).bind fun r =>
      if r.2.isEmpty then some r.1 else none

/-- What is written for a value is read back to it. -/
theorem decode_encode {C : Postcard V π} {fingerprint : UInt64} {value : V}
    {bytes : Bytes} (h : encode C fingerprint value = .ok bytes) :
    decode C fingerprint bytes = some value := by
  cases hp : C.toExtend value with
  | error err => simp [encode, hp, Except.map] at h
  | ok payload =>
      simp only [encode, hp, Except.map, Except.ok.injEq] at h
      subst h
      have hlen : (version :: fingerprintBytes fingerprint).length = len := by
        simp [fingerprintBytes, len]
      have htake : (version :: fingerprintBytes fingerprint ++ payload).take len =
          version :: fingerprintBytes fingerprint := by
        rw [← hlen, List.take_left]
      have hdrop : (version :: fingerprintBytes fingerprint ++ payload).drop len =
          payload := by
        rw [← hlen, List.drop_left]
      have hlong : ¬ (version :: fingerprintBytes fingerprint ++
          payload).length < len := by
        rw [List.length_append, hlen]
        omega
      rw [decode, if_neg hlong, if_neg (by rw [htake]; simp), hdrop,
        C.take_to value payload hp]
      rfl

end Header

/-- The sixteen lower-case hexadecimal digits of a number below `2 ^ 64`. -/
def hex16 (n : UInt64) : List Char :=
  let digits := Nat.toDigits 16 n.toNat
  List.replicate (16 - digits.length) '0' ++ digits

/-- The key one computation is deduplicated under. -/
def flightKey (fingerprint : UInt64) (key : Key) : Key :=
  String.ofList (hex16 fingerprint ++ Char.ofNat 0 :: key.toList)

end Memo

end RustSak
