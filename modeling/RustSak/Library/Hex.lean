import RustSak.Library.Text
import Mathlib.Tactic.Ring
import Mathlib.Data.List.Basic
import Mathlib.Algebra.Order.Ring.Nat

/-!
# Lower-case hexadecimal digits

`Codec` is what is relied on of an encoder of byte arrays into lower-case digits and
of the decoder that goes with it; `encode` and `decode` are such a pair. An array of
`n` bytes is one word of `8 * n` bits, its first byte the most significant.
-/

namespace RustSak

namespace Library

namespace Hex

def isLowerDigit (c : Char) : Bool := ('0' ≤ c && c ≤ '9') || ('a' ≤ c && c ≤ 'f')

theorem not_isWhiteSpace {c : Char} (h : isLowerDigit c = true) :
    Text.isWhiteSpace c = false := by
  have hle (a b : Char) : a ≤ b ↔ a.toNat ≤ b.toNat := UInt32.le_iff_toNat_le
  simp only [isLowerDigit, Bool.or_eq_true, Bool.and_eq_true, decide_eq_true_eq, hle]
    at h
  change 48 ≤ c.toNat ∧ c.toNat ≤ 57 ∨ 97 ≤ c.toNat ∧ c.toNat ≤ 102 at h
  simp only [Text.isWhiteSpace, Bool.or_eq_false_iff, Bool.and_eq_false_iff,
    decide_eq_false_iff_not, beq_eq_false_iff_ne]
  omega

/-- The laws of an encoder and a decoder. -/
structure Codec (encode : (n : ℕ) → BitVec (8 * n) → List Char)
    (decode : (n : ℕ) → List Char → Option (BitVec (8 * n))) : Prop where
  length_encode : ∀ n b, (encode n b).length = 2 * n
  isLowerDigit_encode : ∀ n b, ∀ c ∈ encode n b, isLowerDigit c = true
  encode_zero : ∀ n, encode n 0 = List.replicate (2 * n) '0'
  decode_encode : ∀ n b, decode n (encode n b) = some b
  encode_decode : ∀ n text, text.length = 2 * n → (∀ c ∈ text, isLowerDigit c = true) →
    ∃ b, decode n text = some b ∧ encode n b = text

def digit (d : ℕ) : Char := if d < 10 then Char.ofNat (48 + d) else Char.ofNat (87 + d)

def digitValue (c : Char) : ℕ := if c ≤ '9' then c.toNat - 48 else c.toNat - 87

theorem digit_spec {d : ℕ} (h : d < 16) :
    isLowerDigit (digit d) = true ∧ digitValue (digit d) = d := by
  have hall : ∀ d : Fin 16,
      isLowerDigit (digit d) = true ∧ digitValue (digit d) = d := by decide
  exact hall ⟨d, h⟩

theorem digitValue_spec {c : Char} (h : isLowerDigit c = true) :
    digitValue c < 16 ∧ digit (digitValue c) = c := by
  have hle (a b : Char) : a ≤ b ↔ a.toNat ≤ b.toNat := UInt32.le_iff_toNat_le
  simp only [isLowerDigit, Bool.or_eq_true, Bool.and_eq_true, decide_eq_true_eq, hle]
    at h
  change 48 ≤ c.toNat ∧ c.toNat ≤ 57 ∨ 97 ≤ c.toNat ∧ c.toNat ≤ 102 at h
  rcases h with ⟨hlow, hhigh⟩ | ⟨hlow, hhigh⟩
  · have hvalue : digitValue c = c.toNat - 48 := if_pos ((hle c '9').mpr hhigh)
    have hback : 48 + (c.toNat - 48) = c.toNat := by omega
    rw [hvalue, digit, if_pos (by omega), hback, Char.ofNat_toNat]
    exact ⟨by omega, rfl⟩
  · have hnot : ¬c ≤ '9' := by
      rw [hle]
      change ¬c.toNat ≤ 57
      omega
    have hvalue : digitValue c = c.toNat - 87 := if_neg hnot
    have hback : 87 + (c.toNat - 87) = c.toNat := by omega
    rw [hvalue, digit, if_neg (by omega), hback, Char.ofNat_toNat]
    exact ⟨by omega, rfl⟩

/-- The `w` low digits of `v`, the most significant first. -/
def digits : ℕ → ℕ → List Char
  | 0, _ => []
  | w + 1, v => digit (v / 16 ^ w % 16) :: digits w v

/-- The number the digits spell. -/
def value : List Char → ℕ
  | [] => 0
  | c :: cs => digitValue c * 16 ^ cs.length + value cs

theorem length_digits (w v : ℕ) : (digits w v).length = w := by
  induction w with
  | zero => rfl
  | succ w ih => rw [digits, List.length_cons, ih]

theorem isLowerDigit_digits {w v : ℕ} : ∀ c ∈ digits w v, isLowerDigit c = true := by
  induction w with
  | zero => exact fun c hc => absurd hc List.not_mem_nil
  | succ w ih =>
      intro c hc
      rcases List.mem_cons.mp hc with rfl | hc
      · exact (digit_spec (Nat.mod_lt _ (by omega))).1
      · exact ih c hc

theorem value_digits (w v : ℕ) : value (digits w v) = v % 16 ^ w := by
  induction w with
  | zero => simp [digits, value, Nat.mod_one]
  | succ w ih =>
      rw [digits, value, length_digits, ih, (digit_spec (Nat.mod_lt _ (by omega))).2,
        pow_succ, Nat.mod_mul]
      ring

theorem digits_zero (w : ℕ) : digits w 0 = List.replicate w '0' := by
  induction w with
  | zero => rfl
  | succ w ih =>
      rw [digits, ih, Nat.zero_div, List.replicate_succ]
      rfl

theorem value_lt {cs : List Char} (h : ∀ c ∈ cs, isLowerDigit c = true) :
    value cs < 16 ^ cs.length := by
  induction cs with
  | nil => exact Nat.zero_lt_one
  | cons c cs ih =>
      have hdigit := (digitValue_spec (h c List.mem_cons_self)).1
      have hrest := ih fun c hc => h c (List.mem_cons_of_mem _ hc)
      have hfits := Nat.mul_le_mul_right (16 ^ cs.length) hdigit
      rw [Nat.succ_mul] at hfits
      rw [value, List.length_cons, pow_succ]
      omega

theorem digits_add (w v k : ℕ) : digits w (v + k * 16 ^ w) = digits w v := by
  induction w generalizing k with
  | zero => rfl
  | succ w ih =>
      have hpow : k * 16 ^ (w + 1) = k * 16 * 16 ^ w := by
        rw [pow_succ]
        ring
      rw [digits, digits, hpow, ih, Nat.add_mul_div_right _ _ (Nat.pow_pos (Nat.succ_pos 15)),
        Nat.add_mul_mod_self_right]

/-- Digits spelled and written again are the same. -/
theorem digits_value {cs : List Char} (h : ∀ c ∈ cs, isLowerDigit c = true) :
    digits cs.length (value cs) = cs := by
  induction cs with
  | nil => rfl
  | cons c cs ih =>
      obtain ⟨hdigit, hback⟩ := digitValue_spec (h c List.mem_cons_self)
      have hrest : ∀ c ∈ cs, isLowerDigit c = true :=
        fun c hc => h c (List.mem_cons_of_mem _ hc)
      have hhead : (value cs + digitValue c * 16 ^ cs.length) / 16 ^ cs.length % 16 =
          digitValue c := by
        rw [Nat.add_mul_div_right _ _ (Nat.pow_pos (Nat.succ_pos 15)),
          Nat.div_eq_of_lt (value_lt hrest), Nat.zero_add, Nat.mod_eq_of_lt hdigit]
      rw [List.length_cons, value, digits, Nat.add_comm, hhead, hback, digits_add,
        ih hrest]

def encode (n : ℕ) (b : BitVec (8 * n)) : List Char := digits (2 * n) b.toNat

def decode (n : ℕ) (text : List Char) : Option (BitVec (8 * n)) :=
  if text.length = 2 * n ∧ text.all isLowerDigit = true then some (.ofNat _ (value text))
  else none

theorem two_pow_eq (n : ℕ) : 2 ^ (8 * n) = 16 ^ (2 * n) := by
  have hbase : 2 ^ 8 = 16 ^ 2 := rfl
  rw [pow_mul, pow_mul, hbase]

/-- The digits of a word, and the word that digits spell. -/
theorem codec : Codec encode decode where
  length_encode n b := length_digits _ _
  isLowerDigit_encode n b := isLowerDigit_digits
  encode_zero n := digits_zero _
  decode_encode n b := by
    have hlower : (encode n b).all isLowerDigit = true :=
      List.all_eq_true.mpr isLowerDigit_digits
    have hvalue : value (encode n b) = b.toNat := by
      have hlt := b.isLt
      rw [two_pow_eq] at hlt
      rw [encode, value_digits, Nat.mod_eq_of_lt hlt]
    rw [decode, if_pos ⟨length_digits _ _, hlower⟩, hvalue, BitVec.ofNat_toNat,
      BitVec.setWidth_eq]
  encode_decode n text hlength hlower := by
    refine ⟨_, if_pos ⟨hlength, List.all_eq_true.mpr hlower⟩, ?_⟩
    have hlt := value_lt hlower
    rw [hlength, ← two_pow_eq] at hlt
    rw [encode, BitVec.toNat_ofNat, Nat.mod_eq_of_lt hlt, ← hlength, digits_value hlower]

/-! ## Numbers in either case -/

def isDigit (c : Char) : Bool := isLowerDigit c.toLower

def number (cs : List Char) : ℕ := value (cs.map Char.toLower)

/-- What an unsigned integer of `w` bits is parsed from in radix 16. -/
def parse (w : ℕ) (text : List Char) : Option ℕ :=
  let ds := Decimal.unsigned text
  if ds ≠ [] ∧ ds.all isDigit = true ∧ number ds < 2 ^ w then some (number ds) else none

theorem not_isWhiteSpace_of_isDigit {c : Char} (h : isDigit c = true) :
    Text.isWhiteSpace c = false := by
  rw [← Text.isWhiteSpace_toLower]
  exact not_isWhiteSpace h

theorem number_lt {cs : List Char} (h : ∀ c ∈ cs, isDigit c = true) :
    number cs < 16 ^ cs.length := by
  have hlower : ∀ c ∈ cs.map Char.toLower, isLowerDigit c = true := by
    intro c hc
    obtain ⟨d, hd, rfl⟩ := List.mem_map.mp hc
    exact h d hd
  have hlt := value_lt hlower
  rwa [List.length_map] at hlt

/-- Digits that fit are parsed. -/
theorem parse_digits {n : ℕ} {cs : List Char} (hlength : cs.length = n) (hn : n ≠ 0)
    (h : ∀ c ∈ cs, isDigit c = true) : parse (4 * n) cs = some (number cs) := by
  have hne : cs ≠ [] := by
    rintro rfl
    exact hn hlength.symm
  have hsign : Decimal.unsigned cs = cs := by
    unfold Decimal.unsigned
    split
    · rename_i ds
      have hplus := h '+' List.mem_cons_self
      exact absurd hplus (by decide)
    · rfl
  have hlt := number_lt h
  have hpow : 16 ^ n = 2 ^ (4 * n) := by
    rw [pow_mul]
    rfl
  rw [hlength, hpow] at hlt
  simp only [parse, hsign]
  exact if_pos ⟨hne, List.all_eq_true.mpr h, hlt⟩

/-- What begins with no digit is no number. -/
theorem parse_eq_none {w : ℕ} {c : Char} {cs : List Char} (hplus : c ≠ '+')
    (h : isDigit c = false) : parse w (c :: cs) = none := by
  have hsign : Decimal.unsigned (c :: cs) = c :: cs := by
    unfold Decimal.unsigned
    split
    · rename_i ds heq
      exact absurd (List.cons.inj heq).1 hplus
    · rfl
  simp only [parse, hsign]
  refine if_neg ?_
  rintro ⟨-, hall, -⟩
  rw [List.all_cons, h] at hall
  cases hall

end Hex

end Library

end RustSak
