import RustSak.Library.Checked
import Mathlib.Data.Rat.Floor
import Mathlib.Algebra.Order.Round
import Mathlib.Tactic.Ring
import Mathlib.Tactic.FieldSimp
import Mathlib.Tactic.NormNum

/-!
# The size of a fitted picture

`fittedDimensions` brings the longer edge to the bound and the short one along with it,
rounded to the nearest pixel. Its 64-bit arithmetic is checked here; for a bound below
the longer edge nothing overflows. `fit` resamples only a picture that does not fit.
-/

namespace RustSak

namespace Image

open Library

/-- The short edge, none where the 64-bit arithmetic overflows or divides by zero. -/
def shortEdge (bound short long : UInt32) : Option UInt32 := do
  let product ← Checked.mul 64 short.toNat bound.toNat
  let half ← Checked.div long.toNat 2
  let sum ← Checked.add 64 product half
  let scaled ← Checked.div sum long.toNat
  some (max (UInt32.ofNat scaled) 1)

def fittedDimensions (width height bound : UInt32) : Option (UInt32 × UInt32) :=
  if height ≤ width then (shortEdge bound height width).map fun short => (bound, short)
  else (shortEdge bound width height).map fun short => (short, bound)

/-- Half the divisor added before a division rounds to the nearest, halves up. -/
theorem round_div (p : ℕ) {l : ℕ} (hl : 0 < l) :
    round ((p : ℚ) / l) = ((p + l / 2) / l : ℕ) := by
  have hdouble : (2 : ℚ) * (p / l) = ((2 * p : ℕ) : ℚ) / (l : ℕ) := by
    push_cast
    ring
  have hhalves : (2 * p / l + 1) / 2 = (p + l / 2) / l := by
    calc (2 * p / l + 1) / 2 = (2 * p + l) / l / 2 := by rw [Nat.add_div_right _ hl]
      _ = (2 * p + l) / 2 / l := by rw [Nat.div_div_eq_div_mul, Nat.div_div_eq_div_mul, mul_comm l]
      _ = (p + l / 2) / l := by rw [Nat.mul_add_div Nat.two_pos]
  rw [round_eq_div, hdouble, Rat.floor_natCast_div_natCast, ← hhalves]
  push_cast
  rfl

variable {bound short long : UInt32}

/-- The scaled edge is no longer than the bound or than the edge it scales. -/
theorem scaled_le {b s l : ℕ} (hs : s ≤ l) (hb : b < l) :
    (s * b + l / 2) / l ≤ b ∧ ((s * b + l / 2) / l ≤ s) := by
  have hl : 0 < l := Nat.zero_lt_of_lt hb
  constructor
  · have hmul : s * b ≤ b * l := by
      rw [mul_comm]
      exact Nat.mul_le_mul_left b hs
    refine Nat.lt_succ_iff.mp ((Nat.div_lt_iff_lt_mul hl).mpr ?_)
    rw [Nat.succ_mul]
    omega
  · have hmul : s * b ≤ s * l := Nat.mul_le_mul_left s hb.le
    refine Nat.lt_succ_iff.mp ((Nat.div_lt_iff_lt_mul hl).mpr ?_)
    rw [Nat.succ_mul]
    omega

/-- The 64 bits hold every product of two edges. -/
theorem shortEdge_eq (bound short : UInt32) (hpos : 0 < long.toNat) :
    shortEdge bound short long = some (max (UInt32.ofNat
      ((short.toNat * bound.toNat + long.toNat / 2) / long.toNat)) 1) := by
  have hproduct : short.toNat * bound.toNat ≤ (2 ^ 32 - 1) * (2 ^ 32 - 1) :=
    Nat.mul_le_mul (Nat.le_sub_one_of_lt short.toNat_lt) (Nat.le_sub_one_of_lt bound.toNat_lt)
  have hlong := long.toNat_lt
  rw [shortEdge, Checked.mul_of_lt (by omega), Checked.div_of_pos Nat.two_pos]
  dsimp only [Option.bind_eq_bind, Option.bind_some]
  rw [Checked.add_of_lt (by omega)]
  dsimp only [Option.bind_some]
  rw [Checked.div_of_pos hpos]
  rfl

theorem toNat_max (a b : UInt32) : (max a b).toNat = max a.toNat b.toNat := by
  have hmax : max a b = if a ≤ b then b else a := rfl
  rw [hmax]
  split
  · rename_i h
    exact (Nat.max_eq_right (UInt32.le_iff_toNat_le.mp h)).symm
  · rename_i h
    rw [UInt32.le_iff_toNat_le] at h
    exact (Nat.max_eq_left (Nat.le_of_not_le h)).symm

theorem shortEdge_spec (hs : 0 < short.toNat) (hle : short.toNat ≤ long.toNat)
    (hb : 0 < bound.toNat) (hlt : bound.toNat < long.toNat) :
    ∃ edge, shortEdge bound short long = some edge ∧
      (edge.toNat : ℤ) = max 1 (round ((short.toNat * bound.toNat : ℚ) / long.toNat)) ∧
      1 ≤ edge.toNat ∧ edge.toNat ≤ bound.toNat ∧ edge.toNat ≤ short.toNat := by
  have hpos : 0 < long.toNat := Nat.zero_lt_of_lt hlt
  obtain ⟨hbound, hshort⟩ := scaled_le hle hlt
  have hfits := Nat.lt_of_le_of_lt hbound bound.toNat_lt
  have hround := round_div (short.toNat * bound.toNat) hpos
  have hedge : (max (UInt32.ofNat
      ((short.toNat * bound.toNat + long.toNat / 2) / long.toNat)) 1).toNat =
      max ((short.toNat * bound.toNat + long.toNat / 2) / long.toNat) 1 := by
    rw [toNat_max, UInt32.toNat_ofNat_of_lt' hfits]
    rfl
  refine ⟨_, shortEdge_eq bound short hpos, ?_, ?_, ?_, ?_⟩
  · push_cast at hround
    rw [hedge, hround]
    push_cast
    exact max_comm _ _
  · rw [hedge]
    exact Nat.le_max_right _ _
  · rw [hedge]
    exact Nat.max_le.mpr ⟨hbound, hb⟩
  · rw [hedge]
    exact Nat.max_le.mpr ⟨hshort, hs⟩

/-- A square stays one. -/
theorem shortEdge_self (hb : 0 < bound.toNat) (hpos : 0 < long.toNat) :
    shortEdge bound long long = some bound := by
  have hscaled : (long.toNat * bound.toNat + long.toNat / 2) / long.toNat = bound.toNat := by
    rw [Nat.mul_add_div hpos, Nat.div_eq_of_lt (Nat.div_lt_self hpos Nat.one_lt_two),
      Nat.add_zero]
  rw [shortEdge_eq bound long hpos, hscaled, UInt32.ofNat_toNat, Option.some.injEq,
    ← UInt32.toNat_inj, toNat_max]
  exact Nat.max_eq_left hb

/-- What a picture of `width` by `height` fitted to the bound is. -/
structure Fitted (width height bound w h : UInt32) : Prop where
  longer : max w.toNat h.toNat = bound.toNat
  /-- Rounded to the nearest, halves up, but at least one pixel. -/
  shorter : ((min w.toNat h.toNat : ℕ) : ℤ) = max 1 (round
    (((min width.toNat height.toNat : ℕ) * bound.toNat : ℚ) /
      (max width.toNat height.toNat : ℕ)))
  positive : 1 ≤ min w.toNat h.toNat
  bounded : min w.toNat h.toNat ≤ bound.toNat
  wide : height ≤ width → h ≤ w ∧ w = bound
  tall : width ≤ height → w ≤ h ∧ h = bound
  width_le : w ≤ width
  height_le : h ≤ height

variable {width height w h : UInt32}

theorem Fitted.swap (f : Fitted width height bound w h) :
    Fitted height width bound h w where
  longer := by
    rw [max_comm]
    exact f.longer
  shorter := by
    rw [min_comm h.toNat, min_comm height.toNat, max_comm height.toNat]
    exact f.shorter
  positive := by
    rw [min_comm]
    exact f.positive
  bounded := by
    rw [min_comm]
    exact f.bounded
  wide := f.tall
  tall := f.wide
  width_le := f.height_le
  height_le := f.width_le

/-- A picture at least as wide as it is high. -/
theorem shortEdge_fitted (hh : 0 < height.toNat) (hb : 0 < bound.toNat)
    (hle : height.toNat ≤ width.toNat) (hlt : bound.toNat < width.toNat) :
    ∃ short, shortEdge bound height width = some short ∧
      Fitted width height bound bound short := by
  obtain ⟨short, hshort, hround, hone, hfits, hsource⟩ := shortEdge_spec hh hle hb hlt
  refine ⟨short, hshort, Nat.max_eq_left hfits, ?_, ?_, Nat.min_le_left _ _,
    fun _ => ⟨UInt32.le_iff_toNat_le.mpr hfits, rfl⟩, ?_,
    UInt32.le_iff_toNat_le.mpr hlt.le, UInt32.le_iff_toNat_le.mpr hsource⟩
  · rw [Nat.min_eq_right hfits, Nat.min_eq_right hle, Nat.max_eq_left hle]
    exact hround
  · rw [Nat.min_eq_right hfits]
    exact hone
  · intro hnarrow
    have hsame := UInt32.le_antisymm (UInt32.le_iff_toNat_le.mpr hle) hnarrow
    rw [hsame, shortEdge_self hb (Nat.zero_lt_of_lt hlt)] at hshort
    cases hshort
    exact ⟨UInt32.le_refl _, rfl⟩

theorem exists_fitted (hw : 0 < width.toNat) (hh : 0 < height.toNat)
    (hb : 0 < bound.toNat) (hlt : bound.toNat < max width.toNat height.toNat) :
    ∃ w h, fittedDimensions width height bound = some (w, h) ∧
      Fitted width height bound w h := by
  by_cases hwide : height.toNat ≤ width.toNat
  · rw [Nat.max_eq_left hwide] at hlt
    obtain ⟨short, hshort, hfitted⟩ := shortEdge_fitted hh hb hwide hlt
    refine ⟨bound, short, ?_, hfitted⟩
    rw [fittedDimensions, if_pos (UInt32.le_iff_toNat_le.mpr hwide), hshort]
    rfl
  · have htall := Nat.le_of_not_le hwide
    rw [Nat.max_eq_right htall] at hlt
    obtain ⟨short, hshort, hfitted⟩ := shortEdge_fitted hw hb htall hlt
    refine ⟨short, bound, ?_, hfitted.swap⟩
    rw [fittedDimensions, if_neg fun h => hwide (UInt32.le_iff_toNat_le.mp h), hshort]
    rfl

/-- For every two positive edges and every positive bound below the longer one nothing
overflows and the picture is fitted. -/
theorem fittedDimensions_spec (width height bound : UInt32) (hw : 0 < width)
    (hh : 0 < height) (hb : 0 < bound) (hlt : bound < max width height) :
    ∃ w h, fittedDimensions width height bound = some (w, h) ∧
      Fitted width height bound w h := by
  rw [UInt32.lt_iff_toNat_lt] at hw hh hb hlt
  rw [toNat_max] at hlt
  exact exists_fitted hw hh hb hlt

theorem fittedDimensions_photo : ∃ w h,
    fittedDimensions 1000 335 100 = some (w, h) ∧ Fitted 1000 335 100 w h :=
  fittedDimensions_spec 1000 335 100 (by decide) (by decide) (by decide) (by decide)

example : fittedDimensions 1000 335 100 = some (100, 34) := by decide

/-- What is relied on of the pictures and their filters. -/
structure Pictures (ι : Type*) where
  width : ι → UInt32
  height : ι → UInt32
  thumbnail : ι → UInt32 → UInt32 → ι
  /-- Lanczos3. -/
  resizeExact : ι → UInt32 → UInt32 → ι

/-- The picture itself, or one made from it. -/
inductive Cow (ι : Type*) where
  | borrowed (img : ι)
  | owned (img : ι)

variable {ι : Type*} (P : Pictures ι)

def PREFILTER_FACTOR : ℕ := 3

/-- `bound.saturating_mul(PREFILTER_FACTOR)`. -/
def prefiltered (bound : UInt32) : UInt32 :=
  .ofNat (min (bound.toNat * PREFILTER_FACTOR) (2 ^ 32 - 1))

def fit (img : ι) (bound : UInt32) : Option (Cow ι) :=
  let longer := max (P.width img) (P.height img)
  if longer ≤ bound then some (.borrowed img)
  else (fittedDimensions (P.width img) (P.height img) bound).map fun target =>
    if prefiltered bound < longer then
      .owned (P.resizeExact (P.thumbnail img (prefiltered bound) (prefiltered bound))
        target.1 target.2)
    else .owned (P.resizeExact img target.1 target.2)

/-- A picture that fits is borrowed, and any other comes back fitted, whichever filters
it went through. -/
theorem fit_spec (hresize : ∀ img w h, P.width (P.resizeExact img w h) = w ∧
      P.height (P.resizeExact img w h) = h) (img : ι) {bound : UInt32} (hb : 0 < bound)
    (hw : 0 < P.width img) (hh : 0 < P.height img) :
    (max (P.width img) (P.height img) ≤ bound ∧ fit P img bound = some (.borrowed img)) ∨
    ∃ out, fit P img bound = some (.owned out) ∧
      Fitted (P.width img) (P.height img) bound (P.width out) (P.height out) := by
  by_cases hfits : max (P.width img) (P.height img) ≤ bound
  · exact .inl ⟨hfits, if_pos hfits⟩
  · refine .inr ?_
    have hlonger := UInt32.lt_iff_toNat_lt.mp (UInt32.not_le.mp hfits)
    rw [toNat_max] at hlonger
    obtain ⟨w, h, hdimensions, hfitted⟩ := exists_fitted (UInt32.lt_iff_toNat_lt.mp hw)
      (UInt32.lt_iff_toNat_lt.mp hh) (UInt32.lt_iff_toNat_lt.mp hb) hlonger
    rw [fit, if_neg hfits, hdimensions, Option.map_some]
    split
    · refine ⟨_, rfl, ?_⟩
      rw [(hresize _ w h).1, (hresize _ w h).2]
      exact hfitted
    · refine ⟨_, rfl, ?_⟩
      rw [(hresize _ w h).1, (hresize _ w h).2]
      exact hfitted

end Image

end RustSak
