import RustSak.Library.Checked
import RustSak.Tui.Screen
import Mathlib.Logic.Basic
import Mathlib.Tactic.ByContra

/-!
# The progress bar and the progress line

Both draw the bar by indexing the buffer at each column of its rectangle, in the row the
rectangle begins with. That row is the area's only where the area has one: on an area of
no height the bar leaves it, and `Bar.render_inside_iff` has exactly when.
-/

namespace RustSak

namespace Tui

open Library

abbrev Rgb := UInt8 × UInt8 × UInt8

def gradientStart : Rgb := (0x5a, 0x56, 0xe0)

def gradientEnd : Rgb := (0xee, 0x6f, 0xf8)

def empty : Rgb := (0x60, 0x60, 0x60)

def gray : Rgb := (0x68, 0x68, 0x68)

def green : Rgb := (0x00, 0xc2, 0x02)

def magenta : Rgb := (0xc7, 0x92, 0xe9)

def filledSymbol : List Char := ['█']

def emptySymbol : List Char := ['░']

def maxBarWidth : UInt16 := 50

def minBarWidth : UInt16 := 10

variable {Buffer Cell Style : Type} {R : Ratatui Buffer Cell Style}

/-- A style with the foreground when coloured, and plain otherwise. -/
def fg (R : Ratatui Buffer Cell Style) (foreground : Rgb) (color : Bool) : Style :=
  if color then R.foreground foreground else R.plain

def clampFloat (low high n : Float) : Float :=
  let n := if n < low then low else n
  if high < n then high else n

def lerp (t : Float) (a b : UInt8) : UInt8 :=
  (a.toFloat + (b.toFloat - a.toFloat) * t).round.toUInt8

def gradient (t : Float) : Rgb :=
  (lerp t gradientStart.1 gradientEnd.1, lerp t gradientStart.2.1 gradientEnd.2.1,
    lerp t gradientStart.2.2 gradientEnd.2.2)

structure GradientBar where
  position : Float
  color : Bool

namespace GradientBar

def filled (bar : GradientBar) (width : UInt16) : UInt16 :=
  (clampFloat 0 1 bar.position * width.toFloat).round.toUInt16

/-- The symbol and the colour of column `i`. -/
def look (bar : GradientBar) (width i : UInt16) : List Char × Rgb :=
  if i < bar.filled width then
    (filledSymbol, gradient (i.toFloat / (max (saturatingSub width 1) 1).toFloat))
  else (emptySymbol, Tui.empty)

/-- What drawing column `i` makes of its cell. -/
def draw (R : Ratatui Buffer Cell Style) (bar : GradientBar) (width : UInt16) (i : ℕ)
    (cell : Cell) : Cell :=
  let look := bar.look width (UInt16.ofNat i)
  R.setStyle (fg R look.2 bar.color) (R.setSymbol look.1 cell)

def step (R : Ratatui Buffer Cell Style) (bar : GradientBar) (area : Rect) (buf : Buffer) (i : ℕ) :
    Option Buffer := do
  let x ← Checked.add 16 area.x.toNat i
  R.update buf x area.y.toNat (bar.draw R area.width i)

def render (R : Ratatui Buffer Cell Style) (bar : GradientBar) (area : Rect) (buf : Buffer) :
    Option Buffer :=
  (List.range area.width.toNat).foldlM (bar.step R area) buf

end GradientBar

/-- An estimate in nanoseconds, the way it is shown. -/
def formatEta (eta : Option ℕ) : List Char :=
  match eta with
  | none => ['-', '-']
  | some nanos =>
    let millis := nanos / 10 ^ 6
    let secs := nanos / 10 ^ 9
    if secs < 10 then
      let tenths := millis / 100
      if tenths % 10 = 0 then Nat.toDigits 10 (tenths / 10) ++ ['s']
      else Nat.toDigits 10 (tenths / 10) ++ '.' :: Nat.toDigits 10 (tenths % 10) ++ ['s']
    else
      let seconds := Nat.toDigits 10 (secs % 60) ++ ['s']
      let minutes := Nat.toDigits 10 (secs / 60 % 60) ++ 'm' :: seconds
      if secs / 3600 = 0 then if secs / 60 % 60 = 0 then seconds else minutes
      else Nat.toDigits 10 (secs / 3600) ++ 'h' :: minutes

def floorToTenths (fraction : Float) : Float :=
  let tenths := (clampFloat 0 1 fraction * 1000.0 + 1e-6).floor / 10.0
  if tenths < 100.0 then tenths else 100.0

/-- The line's fields; the label's width is a `usize`. -/
structure ProgressLine where
  label : List Char
  labelWidth : ℕ
  counter : Option (ℕ × ℕ)
  fraction : Float
  position : Float
  /-- None leaves the column out. -/
  eta : Option (Option ℕ)
  color : Bool

namespace ProgressLine

def raw (R : Ratatui Buffer Cell Style) (text : List Char) : Span Style := ⟨text, R.plain⟩

def bold (R : Ratatui Buffer Cell Style) (span : Span Style) : Span Style :=
  { span with style := R.bold span.style }

/-- A number, padded with zeros to a width. -/
def padded (width n : ℕ) : List Char :=
  List.replicate (width - (Nat.toDigits 10 n).length) '0' ++ Nat.toDigits 10 n

def counterSpans (R : Ratatui Buffer Cell Style) (line : ProgressLine) (completed total : ℕ) :
    List (Span Style) :=
  let gray := fg R gray line.color
  let digits := (Nat.toDigits 10 total).length
  [⟨['['], gray⟩, bold R (raw R (padded digits completed)), ⟨['/'], gray⟩,
    bold R (raw R (Nat.toDigits 10 total)), ⟨[']'], gray⟩, raw R [' ', ' ']]

def left (R : Ratatui Buffer Cell Style) (target : Target) (line : ProgressLine) :
    Option (List (Span Style)) := do
  let label := raw R line.label
  let padding := line.labelWidth - R.spanWidth label
  let columns ← Checked.add target.bits padding 3
  let counter := line.counter.elim [] fun counter => counterSpans R line counter.1 counter.2
  some (label :: raw R (List.replicate columns ' ') :: counter)

/-- How a percentage is printed, with one decimal in five columns. -/
def right (R : Ratatui Buffer Cell Style) (percent : Float → List Char) (line : ProgressLine) :
    List (Span Style) :=
  [raw R [' ', ' '],
    ⟨percent (floorToTenths line.fraction) ++ ['%'], fg R green line.color⟩] ++
  line.eta.elim [] fun eta =>
    [raw R [' ', ' ', ' '], ⟨['E', 'T', 'A', ' '] ++ formatEta eta, fg R magenta line.color⟩]

def bar (line : ProgressLine) : GradientBar := ⟨line.position, line.color⟩

def barWidth (area : Rect) (leftWidth rightWidth : UInt16) : UInt16 :=
  clamp minBarWidth maxBarWidth (saturatingSub area.width (saturatingAdd leftWidth rightWidth))

/-- The bar's rectangle after a left part and before a right part of these widths. -/
def barArea (R : Ratatui Buffer Cell Style) (area : Rect) (leftWidth rightWidth : UInt16) : Rect :=
  R.intersection (R.rect (saturatingAdd area.x leftWidth) area.y
    (barWidth area leftWidth rightWidth) 1) area

def render (R : Ratatui Buffer Cell Style) (target : Target) (percent : Float → List Char)
    (line : ProgressLine) (area : Rect) (buf : Buffer) : Option Buffer := do
  let left ← line.left R target
  let right := line.right R percent
  let leftWidth := saturate (R.lineWidth left)
  let rightWidth := saturate (R.lineWidth right)
  let barX := saturatingAdd area.x leftWidth
  let rightX := saturatingAdd barX (barWidth area leftWidth rightWidth)
  let buf ← R.renderLine left (R.intersection (R.rect area.x area.y leftWidth 1) area) buf
  let buf ← line.bar.render R (barArea R area leftWidth rightWidth) buf
  R.renderLine right (R.intersection (R.rect rightX area.y rightWidth 1) area) buf

end ProgressLine

/-! ## What the bar draws -/

namespace GradientBar

variable {bar : GradientBar} {area : Rect} {buf buf' : Buffer}

variable (R bar area) in
/-- The bar's first `n` columns are drawn and every other cell is kept. -/
structure Drawn (n : ℕ) (buf buf' : Buffer) : Prop where
  area_eq : R.area buf' = R.area buf
  drawn : ∀ i < n, R.cell buf' (area.x.toNat + i) area.y.toNat =
    (R.cell buf (area.x.toNat + i) area.y.toNat).map (bar.draw R area.width i)
  kept : ∀ x y, (∀ i < n, x ≠ area.x.toNat + i ∨ y ≠ area.y.toNat) →
    R.cell buf' x y = R.cell buf x y

variable (R bar area) in
def columns (n : ℕ) (buf : Buffer) : Option Buffer :=
  (List.range n).foldlM (bar.step R area) buf

theorem columns_succ (n : ℕ) :
    columns R bar area (n + 1) buf =
      (columns R bar area n buf).bind fun buf => bar.step R area buf n := by
  rw [columns, List.range_succ, List.foldlM_append]
  simp [columns]

theorem step_of_none (hR : R.Documented) {i : ℕ}
    (h : R.cell buf (area.x.toNat + i) area.y.toNat = none) : bar.step R area buf i = none := by
  rw [step, Option.bind_eq_bind, Option.bind_eq_none_iff]
  intro x hx
  obtain ⟨-, rfl⟩ := Checked.fits_eq_some.mp hx
  exact hR.update_none _ _ _ _ h

theorem step_of_some (hR : R.Documented) {i : ℕ} {c : Cell}
    (h : R.cell buf (area.x.toNat + i) area.y.toNat = some c) :
    ∃ buf', bar.step R area buf i = some buf' ∧ R.area buf' = R.area buf ∧
      R.cell buf' (area.x.toNat + i) area.y.toNat = some (bar.draw R area.width i c) ∧
      ∀ x y, (x ≠ area.x.toNat + i ∨ y ≠ area.y.toNat) → R.cell buf' x y = R.cell buf x y := by
  have hcovers : (R.area buf).Covers (area.x.toNat + i) area.y.toNat := by
    rw [← hR.cell_isSome, h]
    rfl
  have hright := hcovers.right
  rw [Rect.right] at hright
  rw [step, Checked.add_of_lt (by omega)]
  exact hR.update_some _ _ _ _ _ h

/-- The columns whose cells are in the buffer are drawn one after the other. -/
theorem exists_columns (hR : R.Documented) (n : ℕ)
    (h : ∀ i < n, (R.cell buf (area.x.toNat + i) area.y.toNat).isSome = true) :
    ∃ buf', columns R bar area n buf = some buf' ∧ Drawn R bar area n buf buf' := by
  induction n with
  | zero => exact ⟨buf, rfl, rfl, by simp, fun _ _ _ => rfl⟩
  | succ n ih =>
    obtain ⟨buf₁, hcolumns, harea, hdrawn, hkept⟩ := ih fun i hi => h i (Nat.lt_succ_of_lt hi)
    obtain ⟨c, hc⟩ := Option.isSome_iff_exists.mp (h n n.lt_succ_self)
    -- the last column is none of those drawn before it
    have hlast : R.cell buf₁ (area.x.toNat + n) area.y.toNat = some c := by
      rw [hkept _ _ fun i hi => Or.inl (by omega), hc]
    obtain ⟨buf₂, hstep, harea₂, hcell₂, hkept₂⟩ := @step_of_some _ _ _ R bar area _ hR _ _ hlast
    refine ⟨buf₂, by rw [columns_succ, hcolumns, Option.bind_some, hstep], harea₂.trans harea,
      ?_, ?_⟩
    · intro i hi
      by_cases hin : i = n
      · rw [hin, hcell₂, hc, Option.map_some]
      · rw [hkept₂ _ _ (Or.inl (by omega)), hdrawn i (by omega)]
    · intro x y hxy
      rw [hkept₂ x y (hxy n n.lt_succ_self), hkept x y fun i hi => hxy i (Nat.lt_succ_of_lt hi)]

theorem isSome_of_columns (hR : R.Documented) (n : ℕ) (h : columns R bar area n buf = some buf') :
    ∀ i < n, (R.cell buf (area.x.toNat + i) area.y.toNat).isSome = true := by
  induction n generalizing buf' with
  | zero => simp
  | succ n ih =>
    rw [columns_succ, Option.bind_eq_some_iff] at h
    obtain ⟨buf₁, hcolumns, hstep⟩ := h
    have hbefore := ih hcolumns
    obtain ⟨buf₂, hcolumns₂, -, -, hkept⟩ := @exists_columns _ _ _ R bar area _ hR n hbefore
    rw [hcolumns, Option.some.injEq] at hcolumns₂
    have hlast : (R.cell buf (area.x.toNat + n) area.y.toNat).isSome = true := by
      rw [← hkept _ _ fun i hi => Or.inl (by omega), ← hcolumns₂]
      by_contra hnone
      rw [step_of_none hR (by simpa using hnone)] at hstep
      exact absurd hstep.symm (Option.some_ne_none _)
    intro i hi
    by_cases hin : i = n
    · rw [hin]
      exact hlast
    · exact hbefore i (by omega)

end GradientBar

variable (R) in
/-- Drawing ends and changes no cell outside the area. -/
def DrawsInside (area : Rect) (render : Buffer → Option Buffer) (buf : Buffer) : Prop :=
  ∃ buf', render buf = some buf' ∧ OnlyInside R area buf buf'

namespace GradientBar

variable {bar : GradientBar} {area : Rect} {buf buf' : Buffer}

variable (R bar) in
/-- The bar's row at the top of the rectangle is in the buffer and shows the bar already. -/
def Shown (area : Rect) (buf : Buffer) : Prop :=
  ∀ i < area.width.toNat, ∃ c, R.cell buf (area.x.toNat + i) area.y.toNat = some c ∧
    bar.draw R area.width i c = c

/-- A bar drawn in any rectangle stays in an area exactly where each of its cells is in
the buffer, and in the area or already as the bar draws it. -/
theorem render_inside_iff (hR : R.Documented) (outer : Rect) :
    DrawsInside R outer (bar.render R area) buf ↔
      ∀ i < area.width.toNat, ∃ c, R.cell buf (area.x.toNat + i) area.y.toNat = some c ∧
        (outer.Covers (area.x.toNat + i) area.y.toNat ∨ bar.draw R area.width i c = c) := by
  constructor
  · intro ⟨buf', hrender, hinside⟩ i hi
    have hsome := isSome_of_columns hR _ hrender
    obtain ⟨buf₂, hcolumns, hdrawn⟩ := @exists_columns _ _ _ R bar area _ hR _ hsome
    obtain rfl : buf' = buf₂ := Option.some.inj (hrender.symm.trans hcolumns)
    obtain ⟨c, hc⟩ := Option.isSome_iff_exists.mp (hsome i hi)
    refine ⟨c, hc, or_iff_not_imp_left.mpr fun hout => ?_⟩
    have hsame := hinside.cell_eq _ _ hout
    rw [hdrawn.drawn i hi, hc, Option.map_some, Option.some.injEq] at hsame
    exact hsame
  · intro h
    have hsome : ∀ i < area.width.toNat,
        (R.cell buf (area.x.toNat + i) area.y.toNat).isSome = true := by
      intro i hi
      obtain ⟨c, hc, -⟩ := h i hi
      rw [hc, Option.isSome_some]
    obtain ⟨buf', hcolumns, hdrawn⟩ := @exists_columns _ _ _ R bar area _ hR _ hsome
    refine ⟨buf', hcolumns, hdrawn.area_eq, fun x y hout => ?_⟩
    by_cases hxy : ∃ i < area.width.toNat, x = area.x.toNat + i ∧ y = area.y.toNat
    · obtain ⟨i, hi, rfl, rfl⟩ := hxy
      obtain ⟨c, hc, hsame⟩ := h i hi
      rw [hdrawn.drawn i hi, hc, Option.map_some, hsame.resolve_left hout]
    · refine hdrawn.kept x y fun i hi => ?_
      by_contra hboth
      exact hxy ⟨i, hi, by simpa [not_or] using hboth⟩

end GradientBar

/-! ## Drawing in several pieces -/

variable {area r : Rect} {buf buf₁ : Buffer} {bar : GradientBar}

theorem drawsInside_left {first rest : Buffer → Option Buffer} (hfirst : first buf = some buf₁)
    (hinside : OnlyInside R area buf buf₁) :
    DrawsInside R area (fun buf => (first buf).bind rest) buf ↔ DrawsInside R area rest buf₁ := by
  simp only [DrawsInside, hfirst, Option.bind_some]
  constructor
  · intro ⟨buf', hrest, h⟩
    exact ⟨buf', hrest, hinside.symm.trans h⟩
  · intro ⟨buf', hrest, h⟩
    exact ⟨buf', hrest, hinside.trans h⟩

theorem drawsInside_right {first rest : Buffer → Option Buffer}
    (hrest : ∀ buf, DrawsInside R area rest buf) :
    DrawsInside R area (fun buf => (first buf).bind rest) buf ↔ DrawsInside R area first buf := by
  constructor
  · intro ⟨buf', hbind, hinside⟩
    obtain ⟨buf₁, hfirst, hsecond⟩ := Option.bind_eq_some_iff.mp hbind
    obtain ⟨buf₂, hsecond₂, hinside₂⟩ := hrest buf₁
    obtain rfl : buf' = buf₂ := Option.some.inj (hsecond.symm.trans hsecond₂)
    exact ⟨buf₁, hfirst, hinside.trans hinside₂.symm⟩
  · intro ⟨buf₁, hfirst, hinside⟩
    obtain ⟨buf₂, hsecond, hinside₂⟩ := hrest buf₁
    refine ⟨buf₂, ?_, hinside.trans hinside₂⟩
    dsimp only
    rw [hfirst, Option.bind_some, hsecond]

/-- A line drawn in a part of the area stays in the area. -/
theorem renderLine_inside (hR : R.Documented) (line : List (Span Style)) (a : Rect) :
    DrawsInside R area (R.renderLine line (R.intersection a area)) buf := by
  obtain ⟨buf', hrender, hinside⟩ := hR.renderLine_inside line (R.intersection a area) buf
  exact ⟨buf', hrender, hinside.mono fun _ _ h => hR.covers_of_intersection h⟩

variable (R bar area r) in
/-- Each cell of the bar is in the buffer, and in the area or as the bar draws it. -/
def CellsInside (buf : Buffer) : Prop :=
  ∀ i < r.width.toNat, ∃ c, R.cell buf (r.x.toNat + i) r.y.toNat = some c ∧
    (area.Covers (r.x.toNat + i) r.y.toNat ∨ bar.draw R r.width i c = c)

/-- What is drawn inside the area does not change where the bar may stand. -/
theorem CellsInside.congr (hR : R.Documented) (hinside : OnlyInside R area buf buf₁)
    (h : CellsInside R area r bar buf) : CellsInside R area r bar buf₁ := by
  intro i hi
  obtain ⟨c, hc, hor⟩ := h i hi
  by_cases hcovers : area.Covers (r.x.toNat + i) r.y.toNat
  · have hsome := hinside.isSome_eq hR (r.x.toNat + i) r.y.toNat
    rw [hc, Option.isSome_some] at hsome
    obtain ⟨c₁, hc₁⟩ := Option.isSome_iff_exists.mp hsome
    exact ⟨c₁, hc₁, Or.inl hcovers⟩
  · exact ⟨c, (hinside.cell_eq _ _ hcovers).trans hc, hor⟩

variable (area r) in
/-- The rectangle begins in the area's first row, and its columns are the area's. -/
structure InRow : Prop where
  row : r.y.toNat = area.y.toNat
  left : area.x.toNat ≤ r.x.toNat
  right : r.width.toNat = 0 ∨ r.x.toNat + r.width.toNat ≤ area.x.toNat + area.width.toNat

/-- A bar in the area's first row needs the area to have a row, unless it has no column
or shows already. -/
theorem cellsInside_iff (hR : R.Documented) (hin : (R.area buf).Contains area)
    (hrow : InRow area r) : CellsInside R area r bar buf ↔
      0 < area.height.toNat ∨ r.width.toNat = 0 ∨ bar.Shown R r buf := by
  have hright := hin.right
  have hbottom := hin.bottom
  have hcolumns := hrow.right
  constructor
  · intro h
    refine or_iff_not_imp_left.mpr fun hheight => Or.inr fun i hi => ?_
    obtain ⟨c, hc, hor⟩ := h i hi
    refine ⟨c, hc, hor.resolve_left fun hcovers => ?_⟩
    have htop := hcovers.top
    have hlow := hcovers.bottom
    have hy := hrow.row
    rw [Rect.bottom] at hlow
    omega
  · intro h i hi
    obtain hheight | hwidth | hshown := h
    · have hedge : (R.area buf).right ≤ 2 ^ 16 - 1 := Nat.min_le_right _ _
      have hedge' : (R.area buf).bottom ≤ 2 ^ 16 - 1 := Nat.min_le_right _ _
      have hleft := hrow.left
      have hcovers : area.Covers (r.x.toNat + i) r.y.toNat := by
        refine ⟨by omega, ?_, Nat.le_of_eq hrow.row.symm, ?_⟩
        · rw [Rect.right]
          omega
        · rw [hrow.row, Rect.bottom]
          omega
      have hcell : (R.cell buf (r.x.toNat + i) r.y.toNat).isSome = true := by
        rw [hR.cell_isSome]
        refine ⟨Nat.le_trans hin.left hcovers.left, by omega, Nat.le_trans hin.top hcovers.top, ?_⟩
        rw [hrow.row]
        omega
      obtain ⟨c, hc⟩ := Option.isSome_iff_exists.mp hcell
      exact ⟨c, hc, Or.inl hcovers⟩
    · exact absurd hi (by omega)
    · obtain ⟨c, hc, hsame⟩ := hshown i hi
      exact ⟨c, hc, Or.inr hsame⟩

namespace ProgressLine

variable {line : ProgressLine} {target : Target} {percent : Float → List Char}

variable (R target line) in
/-- The columns that the part before the bar takes. -/
def leftWidth : UInt16 := saturate (R.lineWidth ((line.left R target).getD []))

variable (R percent line) in
/-- The columns that the part after the bar takes. -/
def rightWidth : UInt16 := saturate (R.lineWidth (line.right R percent))

/-- A label's width of 16 bits is no trouble for a `usize`. -/
theorem exists_left (hlabel : line.labelWidth < 2 ^ 16) :
    ∃ spans, line.left R target = some spans := by
  have hbits : 2 ^ 32 ≤ 2 ^ target.bits := Nat.pow_le_pow_right Nat.two_pos target.le_bits
  rw [left, Checked.add_of_lt (by omega)]
  exact ⟨_, rfl⟩

/-- The bar begins after the left part and ends with the area or before. -/
theorem barArea_inRow (hR : R.Documented) (hin : (R.area buf).Contains area) (l w : UInt16) :
    InRow area (barArea R area l w) ∧
      ((barArea R area l w).width.toNat = 0 ↔ area.width.toNat ≤ l.toNat) := by
  have hfits : area.x.toNat + area.width.toNat ≤ 2 ^ 16 - 1 :=
    Nat.le_trans hin.right (Nat.min_le_right _ _)
  have hright : area.right = area.x.toNat + area.width.toNat := Nat.min_eq_left hfits
  have hwidth : minBarWidth.toNat ≤ (barWidth area l w).toNat :=
    @le_toNat_clamp minBarWidth maxBarWidth (by decide) _
  have hten : minBarWidth.toNat = 10 := by decide
  have hstart : (saturatingAdd area.x l).toNat = min (area.x.toNat + l.toNat) (2 ^ 16 - 1) :=
    toNat_saturate _
  rw [barArea]
  constructor
  · constructor
    · rw [hR.intersection_y, hR.rect_y, Nat.max_self]
    · rw [hR.intersection_x]
      exact Nat.le_max_right _ _
    · rw [hR.intersection_x, hR.intersection_width, hright, Rect.right, hR.rect_x, hR.rect_width,
        hstart]
      omega
  · rw [hR.intersection_width, hright, Rect.right, hR.rect_x, hR.rect_width, hstart]
    omega

/-- The parts before and after the bar never matter. -/
theorem render_inside_iff (hR : R.Documented) (hlabel : line.labelWidth < 2 ^ 16) :
    DrawsInside R area (line.render R target percent area) buf ↔
      CellsInside R area (barArea R area (line.leftWidth R target) (line.rightWidth R percent))
        line.bar buf := by
  obtain ⟨spans, hspans⟩ := @exists_left _ _ _ R line target hlabel
  have hleft : line.leftWidth R target = saturate (R.lineWidth spans) := by
    rw [leftWidth, hspans, Option.getD_some]
  obtain ⟨buf₁, hdraw, hinside⟩ := @renderLine_inside _ _ _ R area buf hR spans
    (R.rect area.x area.y (line.leftWidth R target) 1)
  have hpieces : line.render R target percent area = fun buf =>
      (R.renderLine spans
        (R.intersection (R.rect area.x area.y (line.leftWidth R target) 1) area) buf).bind
        fun buf => (line.bar.render R
          (barArea R area (line.leftWidth R target) (line.rightWidth R percent)) buf).bind
          (R.renderLine (line.right R percent) (R.intersection (R.rect
            (saturatingAdd (saturatingAdd area.x (line.leftWidth R target))
              (barWidth area (line.leftWidth R target) (line.rightWidth R percent)))
            area.y (line.rightWidth R percent) 1) area)) := by
    funext buf
    rw [render, hspans, hleft]
    rfl
  rw [hpieces, drawsInside_left hdraw hinside, drawsInside_right fun _ => renderLine_inside hR _ _,
    GradientBar.render_inside_iff hR]
  exact ⟨CellsInside.congr hR hinside.symm, CellsInside.congr hR hinside⟩

end ProgressLine

/-! ## The widgets -/

inductive Widget
  | bar (bar : GradientBar)
  | line (line : ProgressLine)

namespace Widget

def labelWidth : Widget → ℕ
  | .bar _ => 0
  | .line l => l.labelWidth

def gradientBar : Widget → GradientBar
  | .bar b => b
  | .line l => l.bar

variable (R) in
def render (target : Target) (percent : Float → List Char) :
    Widget → Rect → Buffer → Option Buffer
  | .bar b => b.render R
  | .line l => l.render R target percent

variable (R) in
/-- The columns before the bar. -/
def offset (target : Target) : Widget → ℕ
  | .bar _ => 0
  | .line l => (l.leftWidth R target).toNat

variable (R) in
/-- Where the bar stands. -/
def barArea (target : Target) (percent : Float → List Char) (area : Rect) : Widget → Rect
  | .bar _ => area
  | .line l => ProgressLine.barArea R area (l.leftWidth R target) (l.rightWidth R percent)

variable (R) in
/-- The area has a row, or the bar has no column in it, or the row below it shows the
bar already. -/
def HasRoom (target : Target) (percent : Float → List Char) (w : Widget) (area : Rect)
    (buf : Buffer) : Prop :=
  0 < area.height.toNat ∨ area.width.toNat ≤ w.offset R target ∨
    w.gradientBar.Shown R (w.barArea R target percent area) buf

end Widget

theorem widgets_inside_iff (target : Target) (percent : Float → List Char) (w : Widget)
    (hR : R.Documented) (hin : (R.area buf).Contains area) (hlabel : w.labelWidth < 2 ^ 16) :
    DrawsInside R area (w.render R target percent area) buf ↔
      w.HasRoom R target percent area buf := by
  cases w with
  | bar bar =>
    have hrow : InRow area area := ⟨rfl, Nat.le_refl _, Or.inr (Nat.le_refl _)⟩
    calc DrawsInside R area (bar.render R area) buf
        ↔ CellsInside R area area bar buf := GradientBar.render_inside_iff hR area
      _ ↔ 0 < area.height.toNat ∨ area.width.toNat = 0 ∨ bar.Shown R area buf :=
          cellsInside_iff hR hin hrow
      _ ↔ Widget.HasRoom R target percent (.bar bar) area buf := by
          rw [← Nat.le_zero]
          exact Iff.rfl
  | line line =>
    obtain ⟨hrow, hwidth⟩ := ProgressLine.barArea_inRow hR hin (line.leftWidth R target)
      (line.rightWidth R percent)
    rw [Widget.render, ProgressLine.render_inside_iff hR hlabel, cellsInside_iff hR hin hrow,
      hwidth]
    exact Iff.rfl

/-! ## A terminal of characters -/

/-- A colour, if any, and whether it is bold. -/
abbrev Look := Option Rgb × Bool

/-- The buffer's area and its cells, a character and a style each. -/
structure Screen where
  area : Rect
  cells : ℕ → ℕ → List Char × Look

namespace Screen

def blank (area : Rect) : Screen := ⟨area, fun _ _ => ([' '], none, false)⟩

def change (screen : Screen) (f : ℕ → ℕ → List Char × Look → List Char × Look) : Screen :=
  { screen with cells := fun x y => f x y (screen.cells x y) }

/-- The characters of a line, one a cell. -/
def line (spans : List (Span Look)) : List (List Char × Look) :=
  spans.flatMap fun span => span.content.map fun c => ([c], span.style)

/-- A terminal where every character takes one column. -/
def ratatui : Ratatui Screen (List Char × Look) Look where
  rect x y width height :=
    ⟨x, y, saturate (min width.toNat (2 ^ 16 - 1 - x.toNat)),
      saturate (min height.toNat (2 ^ 16 - 1 - y.toNat))⟩
  intersection a b :=
    ⟨saturate (max a.x.toNat b.x.toNat), saturate (max a.y.toNat b.y.toNat),
      saturate (min a.right b.right - max a.x.toNat b.x.toNat),
      saturate (min a.bottom b.bottom - max a.y.toNat b.y.toNat)⟩
  area screen := screen.area
  cell screen x y := if screen.area.Covers x y then some (screen.cells x y) else none
  update screen x y f :=
    if screen.area.Covers x y then
      some (screen.change fun x' y' c => if x' = x ∧ y' = y then f c else c)
    else none
  setSymbol symbol c := (symbol, c.2)
  setStyle style c := (c.1, style.1.or c.2.1, style.2 || c.2.2)
  plain := (none, false)
  foreground rgb := (some rgb, false)
  bold style := (style.1, true)
  spanWidth span := span.content.length
  lineWidth spans := (line spans).length
  renderLine spans a screen :=
    some (screen.change fun x y c =>
      if a.Covers x y ∧ y = a.y.toNat then
        ((line spans)[x - a.x.toNat]?).elim c fun shown =>
          (shown.1, shown.2.1.or c.2.1, shown.2.2 || c.2.2)
      else c)

theorem documented : ratatui.Documented where
  rect_x _ _ _ _ := rfl
  rect_y _ _ _ _ := rfl
  rect_width x _ width _ := by
    rw [ratatui, toNat_saturate]
    omega
  rect_height _ y _ height := by
    rw [ratatui, toNat_saturate]
    omega
  intersection_x a b := by
    have ha := a.x.toNat_lt
    have hb := b.x.toNat_lt
    rw [ratatui, toNat_saturate]
    omega
  intersection_y a b := by
    have ha := a.y.toNat_lt
    have hb := b.y.toNat_lt
    rw [ratatui, toNat_saturate]
    omega
  intersection_width a b := by
    rw [ratatui, toNat_saturate, Rect.right]
    omega
  intersection_height a b := by
    rw [ratatui, toNat_saturate, Rect.bottom]
    omega
  cell_isSome screen x y := by simp [ratatui]
  update_none screen x y f h := by simpa [ratatui] using h
  update_some screen x y f c h := by
    have hcovers : screen.area.Covers x y := by
      by_contra hout
      simp [ratatui, hout] at h
    simp only [ratatui, hcovers, if_true, Option.some.injEq] at h ⊢
    refine ⟨_, rfl, rfl, ?_, ?_⟩
    · simp [change, hcovers, h]
    · intro x' y' hne
      have hother : ¬(x' = x ∧ y' = y) := by omega
      simp [change, hother]
  renderLine_inside spans a screen := by
    refine ⟨_, rfl, rfl, ?_⟩
    intro x y hout
    simp [ratatui, change, hout]

end Screen

/-- A line in the second row of a screen of three. -/
theorem widgets_inside_iff_row :
    DrawsInside Screen.ratatui ⟨0, 1, 40, 1⟩
      (Widget.render Screen.ratatui .pointer64 (fun _ => [' ', '5', '0', '.', '0'])
        (.line ⟨['U', 'p'], 4, some (1, 12), 0.5, 0.5, some (some 4200000000), true⟩) ⟨0, 1, 40, 1⟩)
      (Screen.blank ⟨0, 0, 40, 3⟩) :=
  (widgets_inside_iff .pointer64 _ _ Screen.documented
    ⟨by decide, by decide, by decide, by decide⟩ (by decide)).mpr (Or.inl (by decide))

/-- An area of no height: the bar is drawn in the row below it. -/
theorem bar_leaves_area :
    ¬DrawsInside Screen.ratatui ⟨0, 0, 1, 0⟩
      (GradientBar.render Screen.ratatui ⟨0.5, true⟩ ⟨0, 0, 1, 0⟩) (Screen.blank ⟨0, 0, 1, 1⟩) := by
  rw [GradientBar.render_inside_iff Screen.documented]
  intro h
  obtain ⟨c, hc, hout | hsame⟩ := h 0 (by decide)
  · exact absurd hout (by decide)
  · obtain rfl : ([' '], none, false) = c := Option.some.inj hc
    -- either symbol differs from a blank
    have hsymbol := congrArg Prod.fst hsame
    simp only [GradientBar.draw, GradientBar.look, Screen.ratatui] at hsymbol
    split at hsymbol
    · exact absurd hsymbol (by decide)
    · exact absurd hsymbol (by decide)

end Tui

end RustSak
