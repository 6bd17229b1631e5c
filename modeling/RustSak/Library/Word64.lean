import Mathlib.Data.UInt
import Mathlib.Algebra.Ring.Nat

/-!
# Saturating arithmetic on 64-bit words

`UInt64` wraps. The two saturating operations are added here, with the natural
number each of them stands for.
-/

namespace RustSak

namespace Library

namespace Word64

def max : UInt64 := UInt64.ofNat (2 ^ 64 - 1)

/-- The sum, or the largest word where it does not fit. -/
def satAdd (a b : UInt64) : UInt64 := if a + b < a then max else a + b

/-- The difference, or zero where it would be negative. -/
def satSub (a b : UInt64) : UInt64 := if a < b then 0 else a - b

theorem toNat_max : max.toNat = 2 ^ 64 - 1 := by decide

theorem toNat_le_max (a : UInt64) : a.toNat ≤ max.toNat := by
  have h := a.toNat_lt
  rw [toNat_max]
  omega

theorem eq_max_or_lt (a : UInt64) : a = max ∨ a.toNat < max.toNat := by
  rcases (toNat_le_max a).lt_or_eq with h | h
  · exact .inr h
  · exact .inl (UInt64.toNat_inj.mp h)

theorem toNat_add_of_lt {a b : UInt64} (h : a.toNat + b.toNat ≤ max.toNat) :
    (a + b).toNat = a.toNat + b.toNat := by
  rw [toNat_max] at h
  rw [UInt64.toNat_add]
  omega

theorem toNat_satAdd (a b : UInt64) :
    (satAdd a b).toNat = min (a.toNat + b.toNat) max.toNat := by
  have ha := a.toNat_lt
  have hb := b.toNat_lt
  have hsum : (a + b).toNat = (a.toNat + b.toNat) % 2 ^ 64 := UInt64.toNat_add a b
  have hmax := toNat_max
  unfold satAdd
  split
  · rename_i h
    have hlt : (a + b).toNat < a.toNat := h
    omega
  · rename_i h
    have hge : ¬ (a + b).toNat < a.toNat := h
    omega

theorem toNat_satSub (a b : UInt64) : (satSub a b).toNat = a.toNat - b.toNat := by
  unfold satSub
  split
  · rename_i h
    have hlt : a.toNat < b.toNat := h
    rw [Nat.sub_eq_zero_of_le hlt.le]
    rfl
  · rename_i h
    have hge : ¬ a.toNat < b.toNat := h
    exact UInt64.toNat_sub_of_le a b (not_lt.mp hge)

end Word64

end Library

end RustSak
