import RustSak.Library.BigEndian
import Mathlib.Data.Fin.Basic

/-!
# Base64

The alphabet of RFC 4648, section 4, and its decoding: four characters spell three
bytes, and the last four may end in one or two paddings, after which the bits that
spell no byte are zero.
-/

namespace RustSak

namespace Library

namespace Base64

def alphabet : List Char :=
  "ABCDEFGHIJKLMNOPQRSTUVWXYZabcdefghijklmnopqrstuvwxyz0123456789+/".toList

theorem length_alphabet : alphabet.length = 64 := by decide +kernel

def symbol (v : Fin 64) : Char := alphabet.get (v.cast length_alphabet.symm)

def pad : Char := '='

/-- The place of a character in the alphabet. -/
def value (c : Char) : Option ℕ := alphabet.idxOf? c

theorem symbol_mem (v : Fin 64) : symbol v ∈ alphabet := List.get_mem _ _

@[simp] theorem value_symbol (v : Fin 64) : value (symbol v) = some v.val := by
  have hall : ∀ v : Fin 64, value (symbol v) = some v.val := by decide +kernel
  exact hall v

theorem pad_notMem : pad ∉ alphabet := by decide +kernel

theorem symbol_ne_pad (v : Fin 64) : symbol v ≠ pad :=
  fun h => pad_notMem (h ▸ symbol_mem v)

/-- The number that characters spell after the digits of `v`. -/
def numberFrom : ℕ → List Char → Option ℕ
  | v, [] => some v
  | v, c :: cs => do numberFrom (64 * v + (← value c)) cs

def number (cs : List Char) : Option ℕ := numberFrom 0 cs

/-- The last four characters, the fourth a padding. -/
def lastQuantum (a b c : Char) : Option (List UInt8) :=
  if c = pad then do
    let v ← number [a, b]
    if v % 16 = 0 then some (BigEndian.toBytes 1 (v / 16)) else none
  else do
    let v ← number [a, b, c]
    if v % 4 = 0 then some (BigEndian.toBytes 2 (v / 4)) else none

def decode : List Char → Option (List UInt8)
  | a :: b :: c :: d :: rest =>
      if rest = [] ∧ d = pad then lastQuantum a b c
      else do
        let v ← number [a, b, c, d]
        some (BigEndian.toBytes 3 v ++ (← decode rest))
  | [] => some []
  | _ => none

/-- How many paddings end the text of `n` bytes. -/
def padding (n : ℕ) : ℕ := (3 - n % 3) % 3

theorem number_four (a b c d : Fin 64) :
    number [symbol a, symbol b, symbol c, symbol d] =
      some (64 * (64 * (64 * a.val + b.val) + c.val) + d.val) := by
  simp [number, numberFrom]

theorem decode_four (a b c d : Fin 64) (rest : List Char) :
    decode (symbol a :: symbol b :: symbol c :: symbol d :: rest) =
      (decode rest).map (BigEndian.toBytes 3
        (64 * (64 * (64 * a.val + b.val) + c.val) + d.val) ++ ·) := by
  have hnot : ¬(rest = [] ∧ symbol d = pad) := fun h => symbol_ne_pad d h.2
  rw [decode, if_neg hnot, number_four]
  cases decode rest with
  | none => rfl
  | some bytes => rfl

theorem decode_three (a b c : Fin 64) (h : c.val % 4 = 0) :
    decode [symbol a, symbol b, symbol c, pad] =
      some (BigEndian.toBytes 2 (16 * (64 * a.val + b.val) + c.val / 4)) := by
  have hnumber : number [symbol a, symbol b, symbol c] =
      some (64 * (64 * a.val + b.val) + c.val) := by
    simp [number, numberFrom]
  have hmod : (64 * (64 * a.val + b.val) + c.val) % 4 = 0 := by omega
  have hdiv : (64 * (64 * a.val + b.val) + c.val) / 4 =
      16 * (64 * a.val + b.val) + c.val / 4 := by omega
  rw [decode, if_pos ⟨rfl, rfl⟩, lastQuantum, if_neg (symbol_ne_pad c), hnumber, ← hdiv]
  exact if_pos hmod

theorem decode_two (a b : Fin 64) (h : b.val % 16 = 0) :
    decode [symbol a, symbol b, pad, pad] =
      some (BigEndian.toBytes 1 (4 * a.val + b.val / 16)) := by
  have hnumber : number [symbol a, symbol b] = some (64 * a.val + b.val) := by
    simp [number, numberFrom]
  have hmod : (64 * a.val + b.val) % 16 = 0 := by omega
  have hdiv : (64 * a.val + b.val) / 16 = 4 * a.val + b.val / 16 := by omega
  rw [decode, if_pos ⟨rfl, rfl⟩, lastQuantum, if_pos rfl, hnumber, ← hdiv]
  exact if_pos hmod

end Base64

end Library

end RustSak
