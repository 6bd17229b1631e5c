import Mathlib.Tactic.Ring
import Mathlib.Data.List.Basic
import Mathlib.Algebra.Order.Ring.Nat

/-!
# Big-endian encoding of a natural number

`toBytes n v` writes `v` in `n` bytes, the most significant first, and
`ofBytes` reads any byte string back. Reading what was written gives the number
modulo `256 ^ n`, so the number itself whenever it fits.
-/

namespace RustSak

namespace Library

namespace BigEndian

/-- The `n` low bytes of `v`, the most significant first. -/
def toBytes : ℕ → ℕ → List UInt8
  | 0, _ => []
  | n + 1, v => UInt8.ofNat (v / 256 ^ n) :: toBytes n v

/-- The number a byte string spells, its first byte the most significant. -/
def ofBytes : List UInt8 → ℕ
  | [] => 0
  | b :: bs => b.toNat * 256 ^ bs.length + ofBytes bs

@[simp] theorem length_toBytes (n v : ℕ) : (toBytes n v).length = n := by
  induction n with
  | zero => rfl
  | succ n ih => rw [toBytes, List.length_cons, ih]

theorem ofBytes_toBytes_mod (n v : ℕ) : ofBytes (toBytes n v) = v % 256 ^ n := by
  induction n with
  | zero => simp [toBytes, ofBytes, Nat.mod_one]
  | succ n ih =>
      have hbyte : (UInt8.ofNat (v / 256 ^ n)).toNat = v / 256 ^ n % 256 := by
        simp
      rw [toBytes, ofBytes, length_toBytes, ih, hbyte, pow_succ,
        Nat.mod_mul]
      ring

theorem ofBytes_toBytes {n v : ℕ} (h : v < 256 ^ n) :
    ofBytes (toBytes n v) = v := by
  rw [ofBytes_toBytes_mod, Nat.mod_eq_of_lt h]

theorem ofBytes_lt (bs : List UInt8) : ofBytes bs < 256 ^ bs.length := by
  induction bs with
  | nil => exact Nat.one_pos
  | cons b bs ih =>
      have hmul : (b.toNat + 1) * 256 ^ bs.length ≤ 256 * 256 ^ bs.length :=
        Nat.mul_le_mul_right _ b.toNat_lt
      rw [Nat.succ_mul] at hmul
      rw [ofBytes, List.length_cons, pow_succ']
      omega

/-- Byte strings of one length that spell one number are the same. -/
theorem ofBytes_inj {as bs : List UInt8} (hlength : as.length = bs.length)
    (h : ofBytes as = ofBytes bs) : as = bs := by
  induction as generalizing bs with
  | nil => exact (List.eq_nil_of_length_eq_zero hlength.symm).symm
  | cons a as ih =>
      cases bs with
      | nil => cases hlength
      | cons b bs =>
          have hrest : as.length = bs.length := Nat.succ.inj hlength
          have hpos : 0 < 256 ^ bs.length := Nat.pow_pos (by decide)
          rw [ofBytes, ofBytes, hrest, Nat.add_comm, Nat.add_comm (b.toNat * _)] at h
          have hmod := congrArg (· % 256 ^ bs.length) h
          have hdiv := congrArg (· / 256 ^ bs.length) h
          have hlt := hrest ▸ ofBytes_lt as
          simp only [Nat.add_mul_mod_self_right, Nat.mod_eq_of_lt hlt,
            Nat.mod_eq_of_lt (ofBytes_lt bs)] at hmod
          simp only [Nat.add_mul_div_right _ _ hpos, Nat.div_eq_of_lt hlt,
            Nat.div_eq_of_lt (ofBytes_lt bs), Nat.zero_add] at hdiv
          rw [UInt8.toNat_inj.mp hdiv, ih hrest hmod]

/-- Only zeros spell zero. -/
theorem eq_zeros_of_ofBytes {bs : List UInt8} (h : ofBytes bs = 0) :
    bs = List.replicate bs.length 0 := by
  induction bs with
  | nil => rfl
  | cons b bs ih =>
      rw [ofBytes, Nat.add_eq_zero_iff] at h
      have hb : b = 0 := by
        have hzero := (Nat.mul_eq_zero.mp h.1).resolve_right
          (Nat.pow_pos (by decide)).ne'
        exact UInt8.toNat_inj.mp hzero
      rw [List.length_cons, List.replicate_succ, ← ih h.2, hb]

end BigEndian

end Library

end RustSak
