import RustSak.Library.Words
import Mathlib.Data.Nat.Notation

/-!
# Semantic versions

The grammar and the precedence of SemVer 2.0.0. The text of a version is cut at its
first plus sign and what stands before it at its first hyphen; precedence looks at
nothing after the plus sign and is a total preorder.
-/

namespace RustSak

namespace Library

namespace SemVer

/-- An identifier of a pre-release. -/
inductive Identifier where
  | numeric (n : ℕ)
  | alphanumeric (text : List Char)
  deriving DecidableEq

structure Version where
  major : ℕ
  minor : ℕ
  patch : ℕ
  pre : List Identifier
  build : List (List Char)
  deriving DecidableEq

def isIdentifierChar (c : Char) : Bool := c.isDigit || c.isAlpha || c == '-'

/-- A number without leading zeros. -/
def number (text : List Char) : Option ℕ :=
  if text ≠ [] ∧ text.all Char.isDigit = true ∧ (text.head? = some '0' → text = ['0']) then
    some (Decimal.value text)
  else none

/-- A number that `w` bits hold. -/
def component (w : ℕ) (text : List Char) : Option ℕ := (number text).filter (· < 2 ^ w)

def identifier (text : List Char) : Option Identifier :=
  if text.all Char.isDigit = true then (number text).map .numeric
  else if text.all isIdentifierChar = true then some (.alphanumeric text)
  else none

/-- The three numbers. -/
def coreOf (w : ℕ) (text : List Char) : Option (ℕ × ℕ × ℕ) :=
  match text.splitOn '.' with
  | [major, minor, patch] => do
      return (← component w major, ← component w minor, ← component w patch)
  | _ => none

/-- The pre-release, from its hyphen on. -/
def preOf : List Char → Option (List Identifier)
  | [] => some []
  | _ :: text => (text.splitOn '.').mapM identifier

/-- Build metadata: identifiers, leading zeros allowed. -/
def isBuild (text : List Char) : Bool :=
  (text.splitOn '.').all fun piece => !piece.isEmpty && piece.all isIdentifierChar

/-- The build metadata, from its plus sign on. -/
def buildOf : List Char → Option (List (List Char))
  | [] => some []
  | _ :: text => if isBuild text = true then some (text.splitOn '.') else none

def beforeBuild (text : List Char) : List Char := text.takeWhile (· != '+')

/-- The version without its build metadata. -/
def parseMain (w : ℕ) (main : List Char) : Option Version := do
  let core ← coreOf w (main.takeWhile (· != '-'))
  let pre ← preOf (main.dropWhile (· != '-'))
  return ⟨core.1, core.2.1, core.2.2, pre, []⟩

/-- The version a text spells, its three numbers of `w` bits. -/
def parse (w : ℕ) (text : List Char) : Option Version := do
  let main ← parseMain w (beforeBuild text)
  let build ← buildOf (text.dropWhile (· != '+'))
  return { main with build := build }

/-! ## The characters of a version -/

variable {w : ℕ} {text main : List Char}

theorem toNat_of_isIdentifierChar {c : Char} (h : isIdentifierChar c = true) :
    45 ≤ c.toNat ∧ c.toNat ≤ 122 := by
  have hdigit : c.isDigit = (decide (48 ≤ c.val) && decide (c.val ≤ 57)) := rfl
  have halpha : c.isAlpha = (decide (65 ≤ c.val ∧ c.val ≤ 90) ||
    decide (97 ≤ c.val) && decide (c.val ≤ 122)) := rfl
  simp only [isIdentifierChar, hdigit, halpha, Bool.or_eq_true, Bool.and_eq_true,
    decide_eq_true_eq, beq_iff_eq, UInt32.le_iff_toNat_le] at h
  change (48 ≤ c.toNat ∧ c.toNat ≤ 57 ∨ (65 ≤ c.toNat ∧ c.toNat ≤ 90 ∨
    97 ≤ c.toNat ∧ c.toNat ≤ 122)) ∨ c = '-' at h
  rcases h with h | rfl
  · omega
  · decide

theorem not_isWhiteSpace {c : Char} (hlow : 43 ≤ c.toNat) (hhigh : c.toNat ≤ 122) :
    Text.isWhiteSpace c = false := by
  simp only [Text.isWhiteSpace, Bool.or_eq_false_iff, Bool.and_eq_false_iff,
    decide_eq_false_iff_not, beq_eq_false_iff_ne]
  omega

theorem number_eq_some {n : ℕ} (h : number text = some n) :
    text.all Char.isDigit = true := by
  rw [number, Option.ite_none_right_eq_some] at h
  exact h.1.2.1

theorem isIdentifierChar_of_isDigit {c : Char} (h : c.isDigit = true) :
    isIdentifierChar c = true := by
  rw [isIdentifierChar, h]
  rfl

theorem isIdentifierChar_of_identifier {i : Identifier} (h : identifier text = some i) :
    ∀ c ∈ text, isIdentifierChar c = true := by
  unfold identifier at h
  intro c hc
  split at h
  · rename_i hdigits
    exact isIdentifierChar_of_isDigit (List.all_eq_true.mp hdigits c hc)
  · split at h
    · rename_i hall
      exact List.all_eq_true.mp hall c hc
    · cases h

theorem isIdentifierChar_of_component {n : ℕ} (h : component w text = some n) :
    ∀ c ∈ text, isIdentifierChar c = true := by
  intro c hc
  have hnumber := (Option.filter_eq_some_iff.mp h).1
  exact isIdentifierChar_of_isDigit (List.all_eq_true.mp (number_eq_some hnumber) c hc)

theorem coreOf_eq_some {core : ℕ × ℕ × ℕ} (h : coreOf w text = some core) :
    ∀ piece ∈ text.splitOn '.', ∃ n, component w piece = some n := by
  unfold coreOf at h
  split at h
  · rename_i major minor patch hsplit
    obtain ⟨a, ha, h⟩ := Option.bind_eq_some_iff.mp h
    obtain ⟨b, hb, h⟩ := Option.bind_eq_some_iff.mp h
    obtain ⟨c, hc, -⟩ := Option.bind_eq_some_iff.mp h
    intro piece hpiece
    rw [hsplit] at hpiece
    rcases List.mem_cons.mp hpiece with rfl | hpiece
    · exact ⟨a, ha⟩
    · rcases List.mem_cons.mp hpiece with rfl | hpiece
      · exact ⟨b, hb⟩
      · exact ⟨c, List.mem_singleton.mp hpiece ▸ hc⟩
  · cases h

theorem exists_of_mapM {α β : Type} {f : α → Option β} {xs : List α} {ys : List β}
    (h : xs.mapM f = some ys) : ∀ x ∈ xs, ∃ y, f x = some y := by
  induction xs generalizing ys with
  | nil => exact fun x hx => absurd hx List.not_mem_nil
  | cons x xs ih =>
      rw [List.mapM_cons] at h
      obtain ⟨y, hy, h⟩ := Option.bind_eq_some_iff.mp h
      obtain ⟨rest, hrest, -⟩ := Option.bind_eq_some_iff.mp h
      intro z hz
      rcases List.mem_cons.mp hz with rfl | hz
      · exact ⟨y, hy⟩
      · exact ih hrest z hz

/-- The characters of dotted identifiers. -/
theorem toNat_of_pieces
    (h : ∀ piece ∈ text.splitOn '.', ∀ c ∈ piece, isIdentifierChar c = true) :
    ∀ c ∈ text, 45 ≤ c.toNat ∧ c.toNat ≤ 122 := by
  refine Text.forall_mem_of_pieces ?_ fun piece hpiece c hc =>
    toNat_of_isIdentifierChar (h piece hpiece c hc)
  intro c hc
  rw [beq_iff_eq] at hc
  subst hc
  decide

theorem toNat_of_preOf {c : Char} {pre : List Identifier} (hc : c = '-')
    (h : preOf (c :: text) = some pre) : ∀ d ∈ c :: text, 45 ≤ d.toNat ∧ d.toNat ≤ 122 := by
  refine List.forall_mem_cons.mpr ⟨by subst hc; decide, toNat_of_pieces ?_⟩
  intro piece hpiece
  obtain ⟨i, hi⟩ := exists_of_mapM h piece hpiece
  exact isIdentifierChar_of_identifier hi

/-- The characters of a version without its build metadata. -/
theorem toNat_of_parseMain {v : Version} (h : parseMain w main = some v) :
    ∀ c ∈ main, 45 ≤ c.toNat ∧ c.toNat ≤ 122 := by
  obtain ⟨core, hcore, h⟩ := Option.bind_eq_some_iff.mp h
  obtain ⟨pre, hpre, -⟩ := Option.bind_eq_some_iff.mp h
  have hfirst : ∀ c ∈ main.takeWhile (· != '-'), 45 ≤ c.toNat ∧ c.toNat ≤ 122 := by
    refine toNat_of_pieces ?_
    intro piece hpiece
    obtain ⟨n, hn⟩ := coreOf_eq_some hcore piece hpiece
    exact isIdentifierChar_of_component hn
  have hsecond : ∀ c ∈ main.dropWhile (· != '-'), 45 ≤ c.toNat ∧ c.toNat ≤ 122 := by
    cases hdrop : main.dropWhile (· != '-') with
    | nil => exact fun c hc => absurd hc List.not_mem_nil
    | cons c rest =>
        have hhead : c = '-' := by
          have hne : main.dropWhile (· != '-') ≠ [] := hdrop ▸ List.cons_ne_nil c rest
          have hstop := List.head_dropWhile_not (· != '-') hne
          simpa [hdrop] using hstop
        rw [hdrop] at hpre
        exact toNat_of_preOf hhead hpre
  intro c hc
  rw [← List.takeWhile_append_dropWhile (p := (· != '-')) (l := main)] at hc
  rcases List.mem_append.mp hc with hc | hc
  · exact hfirst c hc
  · exact hsecond c hc

theorem toNat_of_isBuild (h : isBuild text = true) :
    ∀ c ∈ text, 45 ≤ c.toNat ∧ c.toNat ≤ 122 := by
  refine toNat_of_pieces ?_
  intro piece hpiece c hc
  have hall := List.all_eq_true.mp h piece hpiece
  rw [Bool.and_eq_true] at hall
  exact List.all_eq_true.mp hall.2 c hc

/-! ## Texts that differ in their build metadata -/

/-- The text with other build metadata, or with none. -/
def rebuilt (text : List Char) : Option (List Char) → List Char
  | none => beforeBuild text
  | some build => beforeBuild text ++ '+' :: build

theorem parse_eq_some {v : Version} : parse w text = some v ↔
    ∃ main build, parseMain w (beforeBuild text) = some main ∧
      buildOf (text.dropWhile (· != '+')) = some build ∧ { main with build := build } = v := by
  constructor
  · intro h
    obtain ⟨main, hmain, h⟩ := Option.bind_eq_some_iff.mp h
    obtain ⟨build, hbuild, h⟩ := Option.bind_eq_some_iff.mp h
    exact ⟨main, build, hmain, hbuild, Option.some.inj h⟩
  · rintro ⟨main, build, hmain, hbuild, rfl⟩
    rw [parse, hmain, Option.bind_eq_bind, Option.bind_some, hbuild]
    rfl

theorem toNat_of_parse {v : Version} (h : parse w text = some v) :
    ∀ c ∈ text, 43 ≤ c.toNat ∧ c.toNat ≤ 122 := by
  obtain ⟨main, build, hmain, hbuild, -⟩ := parse_eq_some.mp h
  have hsecond : ∀ c ∈ text.dropWhile (· != '+'), 43 ≤ c.toNat ∧ c.toNat ≤ 122 := by
    cases hdrop : text.dropWhile (· != '+') with
    | nil => exact fun c hc => absurd hc List.not_mem_nil
    | cons c rest =>
        have hne : text.dropWhile (· != '+') ≠ [] := hdrop ▸ List.cons_ne_nil c rest
        have hstop := List.head_dropWhile_not (· != '+') hne
        have hhead : c = '+' := by simpa [hdrop] using hstop
        rw [hdrop, buildOf, Option.ite_none_right_eq_some] at hbuild
        refine List.forall_mem_cons.mpr ⟨by subst hhead; decide, ?_⟩
        intro d hd
        obtain ⟨hlow, hhigh⟩ := toNat_of_isBuild hbuild.1 d hd
        exact ⟨by omega, hhigh⟩
  intro c hc
  rw [← List.takeWhile_append_dropWhile (p := (· != '+')) (l := text)] at hc
  rcases List.mem_append.mp hc with hc | hc
  · obtain ⟨hlow, hhigh⟩ := toNat_of_parseMain hmain c hc
    exact ⟨by omega, hhigh⟩
  · exact hsecond c hc

theorem rebuilt_append {start : List Char} (h : ∀ c ∈ start, (c != '+') = true)
    (text : List Char) (build : Option (List Char)) :
    rebuilt (start ++ text) build = start ++ rebuilt text build := by
  cases build with
  | none => exact List.takeWhile_append_of_pos h
  | some b =>
      rw [rebuilt, rebuilt, beforeBuild, List.takeWhile_append_of_pos h, List.append_assoc]
      rfl

theorem mem_rebuilt {build : Option (List Char)} {c : Char} (h : c ∈ rebuilt text build) :
    c ∈ text ∨ c = '+' ∨ ∃ b ∈ build, c ∈ b := by
  cases build with
  | none => exact .inl (List.takeWhile_subset _ h)
  | some b =>
      rcases List.mem_append.mp h with h | h
      · exact .inl (List.takeWhile_subset _ h)
      · rcases List.mem_cons.mp h with h | h
        · exact .inr (.inl h)
        · exact .inr (.inr ⟨b, rfl, h⟩)

/-- A text begins as before, or with its metadata. -/
theorem head_rebuilt {build : Option (List Char)} :
    ∀ c ∈ (rebuilt text build).head?, c = '+' ∨ c ∈ text.head? := by
  intro c hc
  cases text with
  | nil =>
      cases build with
      | none => cases hc
      | some b => exact .inl (Option.some.inj hc).symm
  | cons d text =>
      by_cases hd : ∀ e ∈ [d], (e != '+') = true
      · rw [← List.singleton_append, rebuilt_append hd] at hc
        exact .inr hc
      · have hplus : d = '+' := by simpa using hd
        subst hplus
        cases build with
        | none => cases hc
        | some b => exact .inl (Option.some.inj hc).symm

theorem beforeBuild_append (main rest : List Char) (h : ∀ c ∈ main, (c != '+') = true)
    (hrest : ∀ c ∈ rest.head?, c = '+') :
    beforeBuild (main ++ rest) = main ∧ (main ++ rest).dropWhile (· != '+') = rest := by
  rw [beforeBuild, List.takeWhile_append_of_pos h, List.dropWhile_append_of_pos h]
  cases rest with
  | nil => exact ⟨List.append_nil main, rfl⟩
  | cons c rest =>
      have hplus : c = '+' := hrest c rfl
      subst hplus
      exact ⟨List.append_nil main, rfl⟩

/-- Other valid metadata makes another version that differs in nothing else. -/
theorem parse_rebuilt {v : Version} (h : parse w text = some v) (build : Option (List Char))
    (hbuild : ∀ b ∈ build, isBuild b = true) :
    ∃ d, parse w (rebuilt text build) = some { v with build := d } := by
  obtain ⟨main, old, hmain, -, rfl⟩ := parse_eq_some.mp h
  have hno : ∀ c ∈ beforeBuild text, (c != '+') = true :=
    fun c hc => List.mem_takeWhile_imp (p := (· != '+')) hc
  cases build with
  | none =>
      obtain ⟨hbefore, hafter⟩ := beforeBuild_append (beforeBuild text) [] hno (by simp)
      rw [List.append_nil] at hbefore hafter
      refine ⟨[], parse_eq_some.mpr ⟨main, [], ?_, ?_, rfl⟩⟩
      · rw [rebuilt, hbefore, hmain]
      · rw [rebuilt, hafter]
        rfl
  | some b =>
      obtain ⟨hbefore, hafter⟩ :=
        beforeBuild_append (beforeBuild text) ('+' :: b) hno (by simp)
      refine ⟨b.splitOn '.', parse_eq_some.mpr ⟨main, b.splitOn '.', ?_, ?_, rfl⟩⟩
      · rw [rebuilt, hbefore, hmain]
      · rw [rebuilt, hafter, buildOf, if_pos (hbuild b rfl)]

/-! ## Precedence -/

def Identifier.rank : Identifier → ℕ
  | .numeric _ => 0
  | .alphanumeric _ => 1

def Identifier.number : Identifier → ℕ
  | .numeric n => n
  | .alphanumeric _ => 0

def Identifier.letters : Identifier → List ℕ
  | .numeric _ => []
  | .alphanumeric text => text.map Char.toNat

/-- Numbers before words, numbers by value and words by their letters. -/
def Identifier.cmp : Identifier → Identifier → Ordering :=
  compareLex (compareOn rank) (compareLex (compareOn number) (compareOn letters))

/-- A version that is no pre-release comes after those that are. -/
def Version.released (v : Version) : ℕ := if v.pre = [] then 1 else 0

instance : Ord Identifier := ⟨Identifier.cmp⟩

def precedence : Version → Version → Ordering :=
  compareLex (compareOn Version.major) (compareLex (compareOn Version.minor)
    (compareLex (compareOn Version.patch)
      (compareLex (compareOn Version.released) (compareOn Version.pre))))

instance : Std.TransOrd Identifier := inferInstanceAs (Std.TransCmp (compareLex _ _))

instance : Std.TransCmp precedence := inferInstanceAs (Std.TransCmp (compareLex _ _))

theorem precedence_build (v w : Version) (b d : List (List Char)) :
    precedence { v with build := b } { w with build := d } = precedence v w := rfl

end SemVer

end Library

end RustSak
