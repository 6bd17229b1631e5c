import Mathlib.Data.List.DropRight
import Mathlib.Algebra.Ring.Nat

/-!
# Text with numbers in it

Stripping, trimming, splitting and parsing, on lists of characters.
-/

namespace RustSak

namespace Library

namespace Text

def stripPrefix (p cs : List Char) : Option (List Char) :=
  if p.isPrefixOf cs then some (cs.drop p.length) else none

theorem stripPrefix_append (p cs : List Char) :
    stripPrefix p (p ++ cs) = some cs := by
  simp [stripPrefix]

/-- What stands before and after the first occurrence of `p`. -/
def splitOnce (p : List Char) : List Char → Option (List Char × List Char)
  | [] => (stripPrefix p []).map fun after => ([], after)
  | c :: cs =>
      match stripPrefix p (c :: cs) with
      | some after => some ([], after)
      | none => (splitOnce p cs).map fun parts => (c :: parts.1, parts.2)

theorem stripPrefix_cons_of_ne {c d : Char} (h : c ≠ d) (p cs : List Char) :
    stripPrefix (c :: p) (d :: cs) = none := by
  simp [stripPrefix, h]

/-- Nothing is split off before the first character of the separator is met. -/
theorem splitOnce_append {c : Char} {a : List Char} (h : c ∉ a) (p cs : List Char) :
    splitOnce (c :: p) (a ++ cs) =
      (splitOnce (c :: p) cs).map fun parts => (a ++ parts.1, parts.2) := by
  induction a with
  | nil => simp
  | cons d a ih =>
      obtain ⟨hne, hnot⟩ := not_or.mp (mt List.mem_cons.mpr h)
      rw [List.cons_append, splitOnce, stripPrefix_cons_of_ne hne, ih hnot,
        Option.map_map]
      rfl

theorem splitOnce_eq_none {c : Char} {cs : List Char} (h : c ∉ cs) (p : List Char) :
    splitOnce (c :: p) cs = none := by
  have hsplit := splitOnce_append h p []
  rwa [List.append_nil] at hsplit

theorem splitOnce_eq_some {c : Char} {a : List Char} (h : c ∉ a) (p b : List Char) :
    splitOnce (c :: p) (a ++ (c :: p ++ b)) = some (a, b) := by
  have hstrip : splitOnce (c :: p) (c :: p ++ b) = some ([], b) := by
    rw [List.cons_append, splitOnce, ← List.cons_append, stripPrefix_append]
  rw [splitOnce_append h, hstrip, Option.map_some, List.append_nil]

theorem eq_of_stripPrefix {p cs after : List Char} (h : stripPrefix p cs = some after) :
    cs = p ++ after := by
  rw [stripPrefix, Option.ite_none_right_eq_some, Option.some.injEq] at h
  obtain ⟨hfront, rfl⟩ := h
  exact (List.prefix_iff_eq_append.mp (List.isPrefixOf_iff_prefix.mp hfront)).symm

/-- The parts are what stands around a separator. -/
theorem eq_of_splitOnce {p cs : List Char} {parts : List Char × List Char}
    (h : splitOnce p cs = some parts) : cs = parts.1 ++ (p ++ parts.2) := by
  induction cs generalizing parts with
  | nil =>
      obtain ⟨after, hafter, rfl⟩ := Option.map_eq_some_iff.mp h
      have heq := eq_of_stripPrefix hafter
      exact heq
  | cons c cs ih =>
      rw [splitOnce] at h
      cases hstrip : stripPrefix p (c :: cs) with
      | some after =>
          rw [hstrip] at h
          obtain rfl := Option.some.inj h
          have heq := eq_of_stripPrefix hstrip
          exact heq
      | none =>
          rw [hstrip] at h
          obtain ⟨rest, hrest, rfl⟩ := Option.map_eq_some_iff.mp h
          exact congrArg (c :: ·) (ih hrest)

/-- Where the last `c` stands. -/
def rfind (c : Char) (cs : List Char) : Option ℕ :=
  (cs.reverse.findIdx? (· == c)).map fun i => cs.length - 1 - i

theorem rfind_eq_none {c : Char} {cs : List Char} (h : c ∉ cs) : rfind c cs = none := by
  rw [rfind, List.findIdx?_eq_none_iff.mpr]
  · rfl
  · intro d hd
    rw [beq_eq_false_iff_ne]
    rintro rfl
    exact h (List.mem_reverse.mp hd)

theorem rfind_append {c : Char} {b : List Char} (h : c ∉ b) (a : List Char) :
    rfind c (a ++ c :: b) = some a.length := by
  have hnone : b.reverse.findIdx? (· == c) = none := by
    rw [List.findIdx?_eq_none_iff]
    intro d hd
    rw [beq_eq_false_iff_ne]
    rintro rfl
    exact h (List.mem_reverse.mp hd)
  have hreverse : (a ++ c :: b).reverse = b.reverse ++ c :: a.reverse := by simp
  rw [rfind, hreverse, List.findIdx?_append, hnone]
  simp [List.findIdx?_cons]

def trim (cs : List Char) : List Char :=
  (cs.dropWhile Char.isWhitespace).rdropWhile Char.isWhitespace

theorem trim_eq_self {cs : List Char} (h : ∀ c ∈ cs, c.isWhitespace = false) :
    trim cs = cs := by
  have hleft : cs.dropWhile Char.isWhitespace = cs := by
    cases cs with
    | nil => rfl
    | cons c cs =>
        rw [List.dropWhile_cons, h c List.mem_cons_self]
        rfl
  rw [trim, hleft, List.rdropWhile_eq_self_iff]
  intro hne
  simp [h _ (List.getLast_mem hne)]

/-- Unicode's `White_Space`. -/
def isWhiteSpace (c : Char) : Bool :=
  let n := c.toNat
  (9 ≤ n && n ≤ 13) || n == 32 || n == 0x85 || n == 0xA0 || n == 0x1680 ||
    (0x2000 ≤ n && n ≤ 0x200A) || n == 0x2028 || n == 0x2029 || n == 0x202F ||
    n == 0x205F || n == 0x3000

def trimEnd (cs : List Char) : List Char := cs.rdropWhile isWhiteSpace

def trimSpace (cs : List Char) : List Char := trimEnd (cs.dropWhile isWhiteSpace)

theorem trimSpace_eq_self {cs : List Char} (h : ∀ c ∈ cs, isWhiteSpace c = false) :
    trimSpace cs = cs := by
  have hleft : cs.dropWhile isWhiteSpace = cs := by
    rw [List.dropWhile_eq_self_iff]
    intro hpos
    simp [h _ (List.getElem_mem hpos)]
  rw [trimSpace, hleft, trimEnd, List.rdropWhile_eq_self_iff]
  intro hne
  simp [h _ (List.getLast_mem hne)]

/-- A text that begins with no white space keeps its beginning. -/
theorem exists_trimSpace_cons {c : Char} (h : isWhiteSpace c = false) (cs : List Char) :
    ∃ rest, trimSpace (c :: cs) = c :: rest := by
  rw [trimSpace, List.dropWhile_cons, h, if_neg Bool.false_ne_true, trimEnd,
    List.rdropWhile, List.reverse_cons, List.dropWhile_append]
  split
  · rw [List.dropWhile_cons, h]
    exact ⟨[], rfl⟩
  · rw [List.reverse_append]
    exact ⟨_, rfl⟩

/-- White space around a text is trimmed off. -/
theorem trimSpace_append {before after : List Char} (cs : List Char)
    (hbefore : ∀ c ∈ before, isWhiteSpace c = true)
    (hafter : ∀ c ∈ after, isWhiteSpace c = true) :
    trimSpace (before ++ cs ++ after) = trimSpace cs := by
  have hend (ds : List Char) : trimEnd (ds ++ after) = trimEnd ds := by
    rw [trimEnd, trimEnd, List.rdropWhile, List.rdropWhile, List.reverse_append,
      List.dropWhile_append_of_pos fun c hc => hafter c (List.mem_reverse.mp hc)]
  rw [trimSpace, trimSpace, List.append_assoc, List.dropWhile_append_of_pos hbefore,
    List.dropWhile_append]
  split
  · rename_i hempty
    have hnone : after.dropWhile isWhiteSpace = [] := List.dropWhile_eq_nil_iff.mpr hafter
    rw [List.isEmpty_iff.mp hempty, hnone]
  · exact hend _

def eqIgnoreAsciiCase (cs ds : List Char) : Bool :=
  cs.map Char.toLower == ds.map Char.toLower

theorem toNat_toLower {c : Char} (h : c.val ≥ 'A'.val ∧ c.val ≤ 'Z'.val) :
    c.toLower.toNat = c.toNat + 32 := by
  have hrange : 65 ≤ c.toNat ∧ c.toNat ≤ 90 := h
  delta Char.toLower
  rw [dif_pos h]
  change (c.val + ('a'.val - 'A'.val)).toNat = c.val.toNat + 32
  rw [UInt32.toNat_add]
  change (c.toNat + 32) % 2 ^ 32 = c.toNat + 32
  omega

/-- White space has no case. -/
theorem isWhiteSpace_toLower (c : Char) : isWhiteSpace c.toLower = isWhiteSpace c := by
  by_cases hupper : c.val ≥ 'A'.val ∧ c.val ≤ 'Z'.val
  · have hrange : 65 ≤ c.toNat ∧ c.toNat ≤ 90 := hupper
    have hnat := toNat_toLower hupper
    have hnot : ∀ d : Char, 65 ≤ d.toNat → d.toNat ≤ 122 → isWhiteSpace d = false := by
      intro d hlow hhigh
      simp only [isWhiteSpace, Bool.or_eq_false_iff, Bool.and_eq_false_iff,
        decide_eq_false_iff_not, beq_eq_false_iff_ne]
      omega
    rw [hnot c.toLower (by omega) (by omega), hnot c (by omega) (by omega)]
  · have hsame : c.toLower = c := dif_neg hupper
    rw [hsame]

theorem map_toLower_trimSpace (cs : List Char) :
    (trimSpace cs).map Char.toLower = trimSpace (cs.map Char.toLower) := by
  have hcomp : isWhiteSpace ∘ Char.toLower = isWhiteSpace := funext isWhiteSpace_toLower
  rw [trimSpace, trimSpace, trimEnd, trimEnd, List.rdropWhile, List.rdropWhile,
    List.dropWhile_map, hcomp, ← List.map_reverse, List.dropWhile_map, hcomp,
    ← List.map_reverse]

theorem trimSpace_trimSpace (cs : List Char) :
    trimSpace (trimSpace cs) = trimSpace cs := by
  have hstart : (trimSpace cs).dropWhile isWhiteSpace = trimSpace cs := by
    rw [List.dropWhile_eq_self_iff]
    intro hpos
    have hbegin : trimSpace cs <+: cs.dropWhile isWhiteSpace :=
      List.rdropWhile_prefix isWhiteSpace _
    rw [hbegin.getElem hpos]
    exact List.dropWhile_get_zero_not isWhiteSpace cs _
  have htrim := congrArg trimEnd hstart
  rw [← trimSpace] at htrim
  rw [htrim, trimSpace, trimEnd, trimEnd, List.rdropWhile_idempotent]

/-- Up to case, what a trimmed text is the same as is trimmed. -/
theorem eqIgnoreAsciiCase_trimSpace_trans {cs ds es : List Char}
    (hcs : eqIgnoreAsciiCase cs (trimSpace ds) = true)
    (hds : eqIgnoreAsciiCase ds (trimSpace es) = true) :
    eqIgnoreAsciiCase cs (trimSpace es) = true := by
  rw [eqIgnoreAsciiCase, beq_iff_eq, map_toLower_trimSpace] at *
  rw [hcs, hds, trimSpace_trimSpace]

/-- The pieces a list is split into hold no separator. -/
theorem not_sep_of_mem_splitOnP {α : Type*} {p : α → Bool} {xs piece : List α}
    (h : piece ∈ xs.splitOnP p) : ∀ x ∈ piece, p x = false := by
  induction xs generalizing piece with
  | nil =>
      rw [List.splitOnP_nil, List.mem_singleton] at h
      simp [h]
  | cons x xs ih =>
      obtain ⟨y, ys, hys⟩ :=
        List.exists_cons_of_ne_nil (List.splitOnP_ne_nil p xs)
      rw [List.splitOnP_cons_eq_if_modifyHead] at h
      cases hx : p x with
      | true =>
          rw [hx, if_pos rfl, List.mem_cons] at h
          rcases h with rfl | h
          · simp
          · exact ih h
      | false =>
          rw [hx, if_neg Bool.false_ne_true, hys, List.modifyHead_cons,
            List.mem_cons] at h
          rcases h with rfl | h
          · intro z hz
            rcases List.mem_cons.mp hz with rfl | hz
            · exact hx
            · exact ih (hys ▸ List.mem_cons_self) z hz
          · exact ih (hys ▸ List.mem_cons_of_mem y h)

/-- The pieces hold nothing the list does not. -/
theorem mem_of_mem_splitOnP {α : Type*} {p : α → Bool} {xs piece : List α}
    (h : piece ∈ xs.splitOnP p) : ∀ x ∈ piece, x ∈ xs := by
  induction xs generalizing piece with
  | nil =>
      rw [List.splitOnP_nil, List.mem_singleton] at h
      simp [h]
  | cons x xs ih =>
      obtain ⟨y, ys, hys⟩ :=
        List.exists_cons_of_ne_nil (List.splitOnP_ne_nil p xs)
      intro z hz
      rw [List.splitOnP_cons_eq_if_modifyHead] at h
      cases hx : p x with
      | true =>
          rw [hx, if_pos rfl, List.mem_cons] at h
          rcases h with rfl | h
          · cases hz
          · exact List.mem_cons_of_mem x (ih h z hz)
      | false =>
          rw [hx, if_neg Bool.false_ne_true, hys, List.modifyHead_cons,
            List.mem_cons] at h
          rcases h with rfl | h
          · rcases List.mem_cons.mp hz with rfl | hz
            · exact List.mem_cons_self
            · exact List.mem_cons_of_mem x (ih (hys ▸ List.mem_cons_self) z hz)
          · exact List.mem_cons_of_mem x (ih (hys ▸ List.mem_cons_of_mem y h) z hz)

/-- Pieces without a separator, joined with one, are what the result is split
into. -/
theorem splitOnP_intercalate {α : Type*} {p : α → Bool} {sep : α}
    (hsep : p sep = true) {pieces : List (List α)} (hne : pieces ≠ [])
    (h : ∀ piece ∈ pieces, ∀ x ∈ piece, p x = false) :
    ([sep].intercalate pieces).splitOnP p = pieces := by
  induction pieces with
  | nil => exact absurd rfl hne
  | cons piece pieces ih =>
      have hpiece := h piece List.mem_cons_self
      cases pieces with
      | nil => rw [List.intercalate_singleton, List.splitOnP_eq_singleton hpiece]
      | cons next rest =>
          have htail := ih (List.cons_ne_nil next rest) fun q hq =>
            h q (List.mem_cons_of_mem piece hq)
          rw [List.intercalate_cons_cons, List.append_assoc, List.singleton_append,
            List.splitOnP_append_cons_of_forall_mem hpiece sep hsep, htail]

/-- What is no separator stands in a list where it stands in a piece. -/
theorem mem_iff_of_splitOn {α : Type*} [DecidableEq α] {sep x : α} (hx : x ≠ sep)
    {xs : List α} : x ∈ xs ↔ ∃ piece ∈ xs.splitOn sep, x ∈ piece := by
  constructor
  · intro hmem
    have hjoined : [sep].intercalate (xs.splitOn sep) = xs := List.intercalate_splitOn sep
    rw [← hjoined] at hmem
    generalize xs.splitOn sep = pieces at hmem
    induction pieces with
    | nil => simp at hmem
    | cons piece pieces ih =>
        cases pieces with
        | nil => exact ⟨piece, List.mem_cons_self, by simpa using hmem⟩
        | cons next rest =>
            rw [List.intercalate_cons_cons, List.mem_append, List.mem_append] at hmem
            rcases hmem with (hmem | hmem) | hmem
            · exact ⟨piece, List.mem_cons_self, hmem⟩
            · exact absurd (List.mem_singleton.mp hmem) hx
            · obtain ⟨part, hpart, hxpart⟩ := ih hmem
              exact ⟨part, List.mem_cons_of_mem piece hpart, hxpart⟩
  · rintro ⟨piece, hpiece, hmem⟩
    exact mem_of_mem_splitOnP hpiece x hmem

/-- What is terminated piece by piece is split into the pieces. -/
theorem splitOn_terminated {α β : Type*} [DecidableEq α] {sep : α} {f : β → List α}
    (h : ∀ x, sep ∉ f x) (xs : List β) :
    (xs.flatMap fun x => f x ++ [sep]).splitOn sep = xs.map f ++ [[]] := by
  induction xs with
  | nil => simp
  | cons x xs ih =>
      rw [List.flatMap_cons, List.append_assoc, List.singleton_append,
        List.splitOn_append_cons_self_of_not_mem (h x), ih, List.map_cons,
        List.cons_append]

/-- Pieces terminated by a separator they do not hold can be told apart. -/
theorem map_eq_of_terminated {α β : Type*} [DecidableEq α] {sep : α} {f : β → List α}
    (h : ∀ x, sep ∉ f x) {xs ys : List β}
    (heq : (xs.flatMap fun x => f x ++ [sep]) = ys.flatMap fun y => f y ++ [sep]) :
    xs.map f = ys.map f := by
  have hsplit := congrArg (List.splitOn sep) heq
  rw [splitOn_terminated h, splitOn_terminated h] at hsplit
  exact List.append_cancel_right hsplit

/-- Splitting at either of two separators is splitting at one and then every
piece at the other. -/
theorem splitOnP_or {α : Type*} (p q : α → Bool) (xs : List α) :
    xs.splitOnP (fun x => p x || q x) =
      (xs.splitOnP p).flatMap fun piece => piece.splitOnP q := by
  induction xs with
  | nil => simp
  | cons x xs ih =>
      obtain ⟨y, ys, hys⟩ :=
        List.exists_cons_of_ne_nil (List.splitOnP_ne_nil p xs)
      rw [List.splitOnP_cons_eq_if_modifyHead, List.splitOnP_cons_eq_if_modifyHead,
        ih, hys]
      cases hp : p x with
      | true => simp
      | false =>
          cases hq : q x with
          | true => simp [List.splitOnP_cons_eq_if_modifyHead, hq]
          | false =>
              obtain ⟨z, zs, hzs⟩ :=
                List.exists_cons_of_ne_nil (List.splitOnP_ne_nil q y)
              simp [List.splitOnP_cons_eq_if_modifyHead, hq, hzs]

/-- Fields without a mark, each before the end or the next mark, are told apart. -/
theorem append_inj_of_mark {α : Type*} {mark : α} {xs ys rest rest' : List α}
    (hxs : mark ∉ xs) (hys : mark ∉ ys) (hrest : ∀ x ∈ rest.head?, x = mark)
    (hrest' : ∀ y ∈ rest'.head?, y = mark) (h : xs ++ rest = ys ++ rest') :
    xs = ys ∧ rest = rest' := by
  induction xs generalizing ys with
  | nil =>
      cases ys with
      | nil => exact ⟨rfl, h⟩
      | cons y ys =>
          have hhead : y ∈ rest.head? := by
            rw [List.nil_append] at h
            rw [h]
            exact rfl
          exact absurd (hrest y hhead ▸ List.mem_cons_self) hys
  | cons x xs ih =>
      cases ys with
      | nil =>
          have hhead : x ∈ rest'.head? := by
            rw [List.nil_append] at h
            rw [← h]
            exact rfl
          exact absurd (hrest' x hhead ▸ List.mem_cons_self) hxs
      | cons y ys =>
          obtain ⟨rfl, htail⟩ := List.cons.inj h
          have hfields := ih (fun hmem => hxs (List.mem_cons_of_mem _ hmem))
            (fun hmem => hys (List.mem_cons_of_mem _ hmem)) htail
          exact ⟨congrArg (x :: ·) hfields.1, hfields.2⟩

end Text

namespace Decimal

def digit (c : Char) : ℕ := c.toNat - '0'.toNat

def value (ds : List Char) : ℕ := ds.foldl (fun n c => 10 * n + digit c) 0

/-- Without its plus sign. -/
def unsigned : List Char → List Char
  | '+' :: ds => ds
  | ds => ds

/-- What an unsigned integer of `w` bits is parsed from: digits, at least one,
perhaps after a plus sign. -/
def parse (w : ℕ) (text : List Char) : Option ℕ :=
  let ds := unsigned text
  if ds ≠ [] ∧ ds.all Char.isDigit = true ∧ value ds < 2 ^ w then
    some (value ds)
  else
    none

theorem unsigned_digits {ds : List Char} (hds : ds.all Char.isDigit = true) :
    unsigned ds = ds := by
  unfold unsigned
  split
  · simp [Char.isDigit] at hds
  · rfl

theorem parse_digits {w n : ℕ} {ds : List Char} (hds : ds.all Char.isDigit = true)
    (h : parse w ds = some n) : n = value ds := by
  simp only [parse, unsigned_digits hds] at h
  split at h
  · exact (Option.some.inj h).symm
  · cases h

theorem not_isWhitespace_of_isDigit {c : Char} (h : c.isDigit = true) :
    c.isWhitespace = false := by
  by_contra hw
  simp only [Char.isWhitespace, Bool.not_eq_false, Bool.or_eq_true,
    decide_eq_true_eq] at hw
  rcases hw with ((rfl | rfl) | rfl) | rfl <;> simp [Char.isDigit] at h

theorem isDigit_of_mem_toString {n : ℕ} {c : Char} (h : c ∈ (toString n).toList) :
    c.isDigit = true := by
  rw [Nat.toString_eq_ofList_toDigits, String.toList_ofList] at h
  exact Nat.isDigit_of_mem_toDigits (by decide) (by decide) h

theorem toString_inj {n m : ℕ} (h : (toString n).toList = (toString m).toList) :
    n = m := by
  rw [Nat.toString_eq_ofList_toDigits, Nat.toString_eq_ofList_toDigits,
    String.toList_ofList, String.toList_ofList] at h
  rw [← Nat.ofDigitChars_ten_toDigits (n := n), h, Nat.ofDigitChars_ten_toDigits]

end Decimal

end Library

end RustSak
