import Mathlib.Algebra.Ring.Nat
import Mathlib.Tactic.Basic

/-!
# Rectangles, buffers and what ratatui promises of them

The terminal library is a parameter. `Ratatui.Documented` has what the widgets rely on:
`Rect::new` and `Rect::intersection` clip, a line is drawn inside its rectangle only, and
a place outside the buffer's area is no cell. `OnlyInside` is the frame condition.
-/

namespace RustSak

namespace Tui

structure Rect where
  x : UInt16
  y : UInt16
  width : UInt16
  height : UInt16
  deriving DecidableEq

namespace Rect

/-- The first column after the rectangle, at most the last coordinate. -/
def right (r : Rect) : ℕ := min (r.x.toNat + r.width.toNat) (2 ^ 16 - 1)

def bottom (r : Rect) : ℕ := min (r.y.toNat + r.height.toNat) (2 ^ 16 - 1)

structure Covers (r : Rect) (x y : ℕ) : Prop where
  left : r.x.toNat ≤ x
  right : x < r.right
  top : r.y.toNat ≤ y
  bottom : y < r.bottom

instance (r : Rect) (x y : ℕ) : Decidable (r.Covers x y) :=
  decidable_of_iff ((r.x.toNat ≤ x ∧ x < r.right) ∧ r.y.toNat ≤ y ∧ y < r.bottom)
    ⟨fun h => ⟨h.1.1, h.1.2, h.2.1, h.2.2⟩, fun h => ⟨⟨h.left, h.right⟩, h.top, h.bottom⟩⟩

/-- All of the inner rectangle lies in the outer one, its empty sides included. -/
structure Contains (outer inner : Rect) : Prop where
  left : outer.x.toNat ≤ inner.x.toNat
  right : inner.x.toNat + inner.width.toNat ≤ outer.right
  top : outer.y.toNat ≤ inner.y.toNat
  bottom : inner.y.toNat + inner.height.toNat ≤ outer.bottom

end Rect

/-- A number where it fits 16 bits, else the largest that does. -/
def saturate (n : ℕ) : UInt16 := UInt16.ofNat (min n (2 ^ 16 - 1))

def saturatingAdd (a b : UInt16) : UInt16 := saturate (a.toNat + b.toNat)

def saturatingSub (a b : UInt16) : UInt16 := saturate (a.toNat - b.toNat)

def clamp (low high n : UInt16) : UInt16 := if n < low then low else if high < n then high else n

theorem toNat_saturate (n : ℕ) : (saturate n).toNat = min n (2 ^ 16 - 1) := by
  rw [saturate, UInt16.toNat_ofNat_of_lt']
  exact Nat.lt_succ_of_le (Nat.min_le_right _ _)

theorem le_toNat_clamp {low high : UInt16} (h : low.toNat ≤ high.toNat) (n : UInt16) :
    low.toNat ≤ (clamp low high n).toNat := by
  unfold clamp
  split
  · exact Nat.le_refl _
  · rename_i hlow
    split
    · exact h
    · simpa [UInt16.lt_iff_toNat_lt] using hlow

structure Span (Style : Type) where
  content : List Char
  style : Style

/-- What the widgets use of ratatui, none for a panic. -/
structure Ratatui (Buffer Cell Style : Type) where
  rect : UInt16 → UInt16 → UInt16 → UInt16 → Rect
  intersection : Rect → Rect → Rect
  area : Buffer → Rect
  cell : Buffer → ℕ → ℕ → Option Cell
  /-- Changes the cell at a place, found by indexing. -/
  update : Buffer → ℕ → ℕ → (Cell → Cell) → Option Buffer
  setSymbol : List Char → Cell → Cell
  setStyle : Style → Cell → Cell
  plain : Style
  foreground : UInt8 × UInt8 × UInt8 → Style
  bold : Style → Style
  spanWidth : Span Style → ℕ
  lineWidth : List (Span Style) → ℕ
  renderLine : List (Span Style) → Rect → Buffer → Option Buffer

variable {Buffer Cell Style : Type} {R : Ratatui Buffer Cell Style}

variable (R) in
/-- Nothing but cells of the area differs between the buffers. -/
structure OnlyInside (area : Rect) (buf buf' : Buffer) : Prop where
  area_eq : R.area buf' = R.area buf
  cell_eq : ∀ x y, ¬area.Covers x y → R.cell buf' x y = R.cell buf x y

namespace Ratatui

variable (R) in
structure Documented : Prop where
  rect_x : ∀ x y width height, (R.rect x y width height).x = x
  rect_y : ∀ x y width height, (R.rect x y width height).y = y
  rect_width : ∀ x y width height,
    (R.rect x y width height).width.toNat = min width.toNat (2 ^ 16 - 1 - x.toNat)
  rect_height : ∀ x y width height,
    (R.rect x y width height).height.toNat = min height.toNat (2 ^ 16 - 1 - y.toNat)
  intersection_x : ∀ a b, (R.intersection a b).x.toNat = max a.x.toNat b.x.toNat
  intersection_y : ∀ a b, (R.intersection a b).y.toNat = max a.y.toNat b.y.toNat
  intersection_width : ∀ a b, (R.intersection a b).width.toNat =
    min a.right b.right - max a.x.toNat b.x.toNat
  intersection_height : ∀ a b, (R.intersection a b).height.toNat =
    min a.bottom b.bottom - max a.y.toNat b.y.toNat
  cell_isSome : ∀ buf x y, (R.cell buf x y).isSome = true ↔ (R.area buf).Covers x y
  update_none : ∀ buf x y f, R.cell buf x y = none → R.update buf x y f = none
  update_some : ∀ buf x y f c, R.cell buf x y = some c → ∃ buf', R.update buf x y f = some buf' ∧
    R.area buf' = R.area buf ∧ R.cell buf' x y = some (f c) ∧
    ∀ x' y', (x' ≠ x ∨ y' ≠ y) → R.cell buf' x' y' = R.cell buf x' y'
  renderLine_inside : ∀ line area buf, ∃ buf', R.renderLine line area buf = some buf' ∧
    OnlyInside R area buf buf'

end Ratatui

namespace OnlyInside

variable {area inner : Rect} {buf buf₁ buf₂ : Buffer}

theorem symm (h : OnlyInside R area buf buf₁) : OnlyInside R area buf₁ buf :=
  ⟨h.area_eq.symm, fun x y hxy => (h.cell_eq x y hxy).symm⟩

theorem trans (h : OnlyInside R area buf buf₁) (h' : OnlyInside R area buf₁ buf₂) :
    OnlyInside R area buf buf₂ :=
  ⟨h'.area_eq.trans h.area_eq, fun x y hxy => (h'.cell_eq x y hxy).trans (h.cell_eq x y hxy)⟩

theorem mono (h : OnlyInside R inner buf buf₁) (hsub : ∀ x y, inner.Covers x y → area.Covers x y) :
    OnlyInside R area buf buf₁ :=
  ⟨h.area_eq, fun x y hxy => h.cell_eq x y fun hin => hxy (hsub x y hin)⟩

theorem isSome_eq (hR : R.Documented) (h : OnlyInside R area buf buf₁) (x y : ℕ) :
    (R.cell buf₁ x y).isSome = (R.cell buf x y).isSome := by
  rw [Bool.eq_iff_iff, hR.cell_isSome, hR.cell_isSome, h.area_eq]

end OnlyInside

/-- An intersection lies in its second rectangle. -/
theorem Ratatui.Documented.covers_of_intersection (hR : R.Documented) {a b : Rect} {x y : ℕ}
    (h : (R.intersection a b).Covers x y) : b.Covers x y := by
  have hx := hR.intersection_x a b
  have hy := hR.intersection_y a b
  have hwidth := hR.intersection_width a b
  have hheight := hR.intersection_height a b
  obtain ⟨hleft, hright, htop, hbottom⟩ := h
  rw [Rect.right] at hright
  rw [Rect.bottom] at hbottom
  exact ⟨by omega, by omega, by omega, by omega⟩

end Tui

end RustSak
