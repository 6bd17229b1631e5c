import Mathlib.Data.List.Basic
import RustSak.Library.BigEndian

/-!
# Decoding text that may be damaged

UTF-8 and UTF-16 read without failing: what is no character becomes U+FFFD. In UTF-8 it
is one for each longest start of a character, and the byte that breaks a character off
is read again as the first of the next one; in UTF-16 it is one for each surrogate that
is not half of a pair.
-/

namespace RustSak

namespace Library

def replacement : Char := Char.ofNat 0xFFFD

namespace Utf8

/-- Within a character: the bytes still owed, the bounds of the next one, and the bits
so far. Between characters none is owed. -/
structure Pending where
  owed : ℕ
  low : UInt8
  high : UInt8
  bits : ℕ

def between : Pending := ⟨0, 0, 0, 0⟩

/-- A byte that begins a character, or cannot. -/
def first (b : UInt8) : List Char × Pending :=
  let n := b.toNat
  if n < 0x80 then ([Char.ofNat n], between)
  else if 0xC2 ≤ n ∧ n ≤ 0xDF then ([], ⟨1, 0x80, 0xBF, n % 0x20⟩)
  else if n = 0xE0 then ([], ⟨2, 0xA0, 0xBF, 0⟩)
  else if n = 0xED then ([], ⟨2, 0x80, 0x9F, 0xD⟩)
  else if 0xE1 ≤ n ∧ n ≤ 0xEF then ([], ⟨2, 0x80, 0xBF, n % 0x10⟩)
  else if n = 0xF0 then ([], ⟨3, 0x90, 0xBF, 0⟩)
  else if 0xF1 ≤ n ∧ n ≤ 0xF3 then ([], ⟨3, 0x80, 0xBF, n % 8⟩)
  else if n = 0xF4 then ([], ⟨3, 0x80, 0x8F, 4⟩)
  else ([replacement], between)

def step (pending : Pending) (b : UInt8) : List Char × Pending :=
  let bits := pending.bits * 0x40 + b.toNat % 0x40
  if pending.owed = 0 then first b
  else if pending.low ≤ b ∧ b ≤ pending.high then
    if pending.owed = 1 then ([Char.ofNat bits], between)
    else ([], ⟨pending.owed - 1, 0x80, 0xBF, bits⟩)
  else (replacement :: (first b).1, (first b).2)

def lossyFrom : Pending → List UInt8 → List Char
  | pending, [] => if pending.owed = 0 then [] else [replacement]
  | pending, b :: bytes => (step pending b).1 ++ lossyFrom (step pending b).2 bytes

def lossy (bytes : List UInt8) : List Char := lossyFrom between bytes

/-- ASCII is read as it is. -/
theorem lossy_ascii {bytes : List UInt8} (h : ∀ b ∈ bytes, b.toNat < 0x80) :
    lossy bytes = bytes.map fun b => Char.ofNat b.toNat := by
  induction bytes with
  | nil => rfl
  | cons b bytes ih =>
      have hrest : ∀ b ∈ bytes, b.toNat < 0x80 :=
        fun c hc => h c (List.mem_cons_of_mem b hc)
      have hstep : step between b = ([Char.ofNat b.toNat], between) :=
        if_pos (h b List.mem_cons_self)
      rw [lossy, lossyFrom, hstep, List.map_cons, ← ih hrest]
      rfl

/-- What the bytes are the UTF-8 of. -/
def decode (bytes : List UInt8) : Option (List Char) :=
  (String.fromUTF8? bytes.toByteArray).map String.toList

theorem decode_eq_some {bytes : List UInt8} {cs : List Char} :
    decode bytes = some cs ↔ bytes = cs.flatMap String.utf8EncodeChar := by
  rw [decode, String.fromUTF8?]
  constructor
  · intro h
    split at h
    · rename_i hvalid
      obtain rfl := Option.some.inj h
      have hencode := String.utf8Encode_toList (b := String.fromUTF8 bytes.toByteArray hvalid)
      exact (List.toByteArray_inj.mp hencode).symm
    · cases h
  · rintro rfl
    have hbytes : (cs.flatMap String.utf8EncodeChar).toByteArray =
        (String.ofList cs).toByteArray := rfl
    have hvalid : (cs.flatMap String.utf8EncodeChar).toByteArray.IsValidUTF8 := by
      rw [hbytes]
      exact (String.ofList cs).isValidUTF8
    rw [dif_pos hvalid]
    exact congrArg some String.toList_ofList

theorem encode_ascii {cs : List Char} (h : ∀ c ∈ cs, c.toNat < 0x80) :
    cs.flatMap String.utf8EncodeChar = cs.map fun c => c.toNat.toUInt8 := by
  induction cs with
  | nil => rfl
  | cons c cs ih =>
      obtain ⟨hc, hcs⟩ := List.forall_mem_cons.mp h
      have hsize : c.utf8Size = 1 :=
        Char.utf8Size_eq_one_iff.mpr (UInt32.le_iff_toNat_le.mpr (Nat.le_of_lt_succ hc))
      rw [List.flatMap_cons, String.utf8EncodeChar_eq_singleton hsize, ih hcs, List.map_cons,
        List.singleton_append]
      rfl

end Utf8

namespace Utf16

/-- The first half of a pair that is still open is `high`. -/
def lossyFrom : Option ℕ → List ℕ → List Char
  | none, [] => []
  | some _, [] => [replacement]
  | none, unit :: units =>
      if 0xD800 ≤ unit ∧ unit ≤ 0xDBFF then lossyFrom (some unit) units
      else if 0xDC00 ≤ unit ∧ unit ≤ 0xDFFF then replacement :: lossyFrom none units
      else Char.ofNat unit :: lossyFrom none units
  | some high, unit :: units =>
      if 0xDC00 ≤ unit ∧ unit ≤ 0xDFFF then
        Char.ofNat (0x10000 + (high - 0xD800) * 0x400 + (unit - 0xDC00)) ::
          lossyFrom none units
      else if 0xD800 ≤ unit ∧ unit ≤ 0xDBFF then
        replacement :: lossyFrom (some unit) units
      else replacement :: Char.ofNat unit :: lossyFrom none units

def lossy (units : List ℕ) : List Char := lossyFrom none units

/-- The units of big-endian bytes; a byte left over is none. -/
def unitsOf : List UInt8 → List ℕ
  | high :: low :: bytes => BigEndian.ofBytes [high, low] :: unitsOf bytes
  | _ => []

end Utf16

example : Utf8.lossy [0xE2, 0x82, 0xAC, 0xE2, 0x82, 0x41, 0xFF] =
    ['€', replacement, 'A', replacement] := by decide +kernel

example : Utf16.lossy [0xD83D, 0xDE00, 0xD83D, 0x41, 0xDE00] =
    ['😀', replacement, 'A', replacement] := by decide +kernel

end Library

end RustSak
