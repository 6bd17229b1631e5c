import RustSak.Library.Text
import Mathlib.Data.List.Infix
import Mathlib.Data.List.MinMax

/-!
# Words

A text is split into the pieces between its separators. A part of it that holds no
separator is within one piece, whatever is trimmed from its ends besides, and letters
may be compared without their case.
-/

namespace RustSak

namespace Library

namespace Text

/-! ## Pieces -/

section Pieces

variable {α : Type} {p : α → Bool} {xs part piece : List α}

theorem head_prefix_of_splitOnP {pieces : List (List α)}
    (h : xs.splitOnP p = piece :: pieces) : piece <+: xs := by
  induction xs generalizing piece pieces with
  | nil =>
      rw [List.splitOnP_nil, List.cons.injEq] at h
      rw [← h.1]
  | cons x xs ih =>
      obtain ⟨y, ys, hys⟩ :=
        List.exists_cons_of_ne_nil (List.splitOnP_ne_nil p xs)
      rw [List.splitOnP_cons_eq_if_modifyHead] at h
      split at h
      · rw [List.cons.injEq] at h
        rw [← h.1]
        exact List.nil_prefix
      · rw [hys, List.modifyHead_cons, List.cons.injEq] at h
        rw [← h.1, List.prefix_cons_inj]
        exact ih hys

/-- A piece is a part of the whole. -/
theorem infix_of_mem_splitOnP (h : piece ∈ xs.splitOnP p) : piece <:+: xs := by
  induction xs generalizing piece with
  | nil =>
      rw [List.splitOnP_nil, List.mem_singleton] at h
      rw [h]
  | cons x xs ih =>
      obtain ⟨y, ys, hys⟩ :=
        List.exists_cons_of_ne_nil (List.splitOnP_ne_nil p xs)
      have hhead := head_prefix_of_splitOnP hys
      rw [List.splitOnP_cons_eq_if_modifyHead] at h
      split at h
      · rcases List.mem_cons.mp h with rfl | h
        · exact List.nil_infix
        · exact List.infix_cons (ih h)
      · rw [hys, List.modifyHead_cons] at h
        rcases List.mem_cons.mp h with rfl | h
        · exact ((List.prefix_cons_inj x).mpr hhead).isInfix
        · exact List.infix_cons (ih (hys ▸ List.mem_cons_of_mem y h))

theorem exists_head_of_prefix (h : part <+: xs) (hpart : ∀ x ∈ part, p x = false) :
    ∃ piece pieces, xs.splitOnP p = piece :: pieces ∧ part <+: piece := by
  induction xs generalizing part with
  | nil =>
      rw [List.prefix_nil] at h
      exact ⟨[], [], List.splitOnP_nil, by rw [h]⟩
  | cons x xs ih =>
    obtain ⟨y, ys, hys⟩ :=
      List.exists_cons_of_ne_nil (List.splitOnP_ne_nil p (x :: xs))
    cases part with
    | nil => exact ⟨y, ys, hys, List.nil_prefix⟩
    | cons z part =>
      rw [List.cons_prefix_cons] at h
      obtain ⟨rfl, h⟩ := h
      obtain ⟨hz, hpart⟩ := List.forall_mem_cons.mp hpart
      obtain ⟨piece, pieces, hsplit, hprefix⟩ := ih h hpart
      refine ⟨z :: piece, pieces, ?_, (List.prefix_cons_inj z).mpr hprefix⟩
      rw [List.splitOnP_cons_eq_if_modifyHead, hz, if_neg Bool.false_ne_true, hsplit,
        List.modifyHead_cons]

/-- A part without a separator is within one piece. -/
theorem exists_piece_of_infix (h : part <:+: xs) (hpart : ∀ x ∈ part, p x = false) :
    ∃ piece ∈ xs.splitOnP p, part <:+: piece := by
  induction xs with
  | nil =>
      rw [List.infix_nil] at h
      exact ⟨[], List.mem_singleton_self _, by rw [h]⟩
  | cons x xs ih =>
    rcases List.infix_cons_iff.mp h with h | h
    · obtain ⟨piece, pieces, hsplit, hprefix⟩ := exists_head_of_prefix h hpart
      exact ⟨piece, hsplit ▸ List.mem_cons_self, hprefix.isInfix⟩
    · obtain ⟨piece, hmem, hinfix⟩ := ih h
      rw [List.splitOnP_cons_eq_if_modifyHead]
      split
      · exact ⟨piece, List.mem_cons_of_mem _ hmem, hinfix⟩
      · obtain ⟨y, ys, hys⟩ :=
          List.exists_cons_of_ne_nil (List.splitOnP_ne_nil p xs)
        rw [hys] at hmem ⊢
        rw [List.modifyHead_cons]
        rcases List.mem_cons.mp hmem with rfl | hmem
        · exact ⟨x :: piece, List.mem_cons_self, List.infix_cons hinfix⟩
        · exact ⟨piece, List.mem_cons_of_mem _ hmem, hinfix⟩

/-- What holds of the separator and in every piece holds everywhere. -/
theorem forall_mem_of_pieces {q : α → Prop} (hsep : ∀ x, p x = true → q x)
    (h : ∀ piece ∈ xs.splitOnP p, ∀ x ∈ piece, q x) : ∀ x ∈ xs, q x := by
  intro x hx
  cases hp : p x with
  | true => exact hsep x hp
  | false =>
      obtain ⟨before, after, rfl⟩ := List.append_of_mem hx
      have hpart : [x] <:+: before ++ x :: after := ⟨before, after, by simp⟩
      obtain ⟨piece, hmem, hinside⟩ :=
        exists_piece_of_infix hpart fun y hy => List.mem_singleton.mp hy ▸ hp
      exact h piece hmem x (hinside.subset (List.mem_singleton_self x))

end Pieces

/-! ## Words -/

def isAsciiWhitespace (c : Char) : Bool :=
  c == ' ' || c == '\t' || c == '\n' || c == '\r' || c == Char.ofNat 12

/-- What stands between the white space. -/
def words (cs : List Char) : List (List Char) :=
  (cs.splitOnP isAsciiWhitespace).filter fun piece => !piece.isEmpty

section Words

variable {cs word part : List Char} {c : Char}

theorem mem_words : word ∈ words cs ↔
    word ∈ cs.splitOnP isAsciiWhitespace ∧ word ≠ [] := by
  rw [words, List.mem_filter, Bool.not_eq_true', List.isEmpty_eq_false_iff]

theorem infix_of_mem_words (h : word ∈ words cs) : word <:+: cs :=
  infix_of_mem_splitOnP (mem_words.mp h).1

theorem not_white_of_mem_words (h : word ∈ words cs) :
    ∀ c ∈ word, isAsciiWhitespace c = false :=
  not_sep_of_mem_splitOnP (mem_words.mp h).1

theorem exists_word_of_infix (h : part <:+: cs) (hne : part ≠ [])
    (hpart : ∀ c ∈ part, isAsciiWhitespace c = false) :
    ∃ word ∈ words cs, part <:+: word := by
  obtain ⟨word, hmem, hinfix⟩ := exists_piece_of_infix h hpart
  exact ⟨word, mem_words.mpr ⟨hmem, hinfix.ne_nil hne⟩, hinfix⟩

theorem exists_word_of_mem (h : c ∈ cs) (hc : isAsciiWhitespace c = false) :
    ∃ word ∈ words cs, c ∈ word := by
  have hpart : [c] <:+: cs := by
    obtain ⟨before, after, rfl⟩ := List.append_of_mem h
    exact ⟨before, after, List.append_assoc ..⟩
  obtain ⟨word, hmem, hinfix⟩ := exists_word_of_infix hpart (List.cons_ne_nil c [])
    fun d hd => List.mem_singleton.mp hd ▸ hc
  exact ⟨word, hmem, hinfix.subset (List.mem_singleton_self c)⟩

end Words

/-! ## Trimming -/

/-- Without what satisfies `p` at either end. -/
def trimMatches (p : Char → Bool) (cs : List Char) : List Char :=
  (cs.dropWhile p).rdropWhile p

section Trimming

variable {p : Char → Bool} {cs part : List Char} {c : Char}

theorem exists_infix_dropWhile (h : part <:+: cs) (hmem : c ∈ part) (hc : p c = false) :
    ∃ rest, rest <:+: part ∧ rest.count c = part.count c ∧
      rest <:+: cs.dropWhile p := by
  obtain ⟨before, after, rfl⟩ := h
  rw [List.append_assoc, List.dropWhile_append]
  have hrest : (part.dropWhile p).count c = part.count c := by
    have hdropped : (part.takeWhile p).count c = 0 := by
      rw [List.count_eq_zero]
      intro hin
      rw [List.mem_takeWhile_imp hin] at hc
      cases hc
    have hsplit := congrArg (List.count c) (List.takeWhile_append_dropWhile (p := p)
      (l := part))
    rwa [List.count_append, hdropped, Nat.zero_add] at hsplit
  split
  · refine ⟨part.dropWhile p, (List.dropWhile_suffix p).isInfix, hrest, ?_⟩
    rw [List.dropWhile_append, if_neg]
    · exact (List.prefix_append _ _).isInfix
    · rw [List.isEmpty_iff]
      intro hnil
      rw [hnil, List.count_nil] at hrest
      exact (List.count_pos_iff.mpr hmem).ne hrest
  · exact ⟨part, List.infix_rfl, rfl, ⟨before.dropWhile p, after, List.append_assoc ..⟩⟩

/-- What is trimmed away is no part of what holds other characters. -/
theorem exists_infix_trimMatches (h : part <:+: cs) (hmem : c ∈ part)
    (hc : p c = false) : ∃ rest, rest <:+: part ∧ rest.count c = part.count c ∧
      rest <:+: trimMatches p cs := by
  obtain ⟨rest, hrest, hcount, hin⟩ := exists_infix_dropWhile h hmem hc
  have hmem' : c ∈ rest.reverse := by
    rw [List.mem_reverse, ← List.count_pos_iff, hcount]
    exact List.count_pos_iff.mpr hmem
  obtain ⟨last, hlast, hcount', hin'⟩ := exists_infix_dropWhile hin.reverse hmem' hc
  refine ⟨last.reverse, ?_, ?_, hin'.reverse⟩
  · have hback := hlast.reverse
    rw [List.reverse_reverse] at hback
    exact hback.trans hrest
  · rw [List.count_reverse, hcount', List.count_reverse, hcount]

/-- What begins and ends with other characters is all that is left. -/
theorem trimMatches_append {a b : List Char}
    (ha : ∀ c ∈ a, p c = true) (hb : ∀ c ∈ b, p c = true)
    (hhead : ∀ c ∈ cs.head?, p c = false) (hlast : ∀ c ∈ cs.getLast?, p c = false) :
    trimMatches p (a ++ cs ++ b) = cs := by
  cases cs with
  | nil =>
      have hall : ∀ c ∈ a ++ [] ++ b, p c = true := by
        simpa [or_imp, forall_and] using ⟨ha, hb⟩
      rw [trimMatches, List.dropWhile_eq_nil_iff.mpr hall]
      rfl
  | cons c cs =>
      have hc : p c = false := hhead c rfl
      rw [trimMatches, List.append_assoc, List.dropWhile_append_of_pos ha,
        List.cons_append, List.dropWhile_cons_of_neg (by simp [hc]),
        ← List.cons_append, List.rdropWhile, List.reverse_append,
        List.dropWhile_append_of_pos (by simpa using hb)]
      have hkept : (c :: cs).reverse.dropWhile p = (c :: cs).reverse := by
        rw [List.dropWhile_eq_self_iff]
        intro hpos
        have hend : (c :: cs).getLast? = some ((c :: cs).reverse[0]) := by
          rw [← List.head?_reverse, List.head?_eq_getElem?,
            List.getElem?_eq_getElem hpos]
        rw [hlast _ hend]
        exact Bool.false_ne_true
      rw [hkept, List.reverse_reverse]

theorem trimMatches_eq_self (hhead : ∀ c ∈ cs.head?, p c = false)
    (hlast : ∀ c ∈ cs.getLast?, p c = false) : trimMatches p cs = cs := by
  have htrim := trimMatches_append (a := []) (b := []) nofun nofun hhead hlast
  rwa [List.nil_append, List.append_nil] at htrim

end Trimming

/-! ## Case -/

section Case

variable {cs ds : List Char} {b c : Char}

/-- Nothing but itself has the lower case of what is no letter. -/
theorem toLower_eq_iff (hb : b.isAlpha = false) : c.toLower = b ↔ c = b := by
  by_cases hupper : c.val ≥ 'A'.val ∧ c.val ≤ 'Z'.val
  · have hrange : 65 ≤ c.toNat ∧ c.toNat ≤ 90 := hupper
    have hnat := toNat_toLower hupper
    refine iff_of_false ?_ ?_
    · rintro rfl
      have hlower : 97 ≤ c.toLower.toNat ∧ c.toLower.toNat ≤ 122 := by omega
      have halpha : c.toLower.isLower = true :=
        Bool.and_eq_true_iff.mpr ⟨decide_eq_true hlower.1, decide_eq_true hlower.2⟩
      have hletter : (c.toLower.isUpper || c.toLower.isLower) = false := hb
      rw [halpha, Bool.or_true] at hletter
      cases hletter
    · rintro rfl
      have halpha : c.isUpper = true := decide_eq_true hupper
      have hletter : (c.isUpper || c.isLower) = false := hb
      rw [halpha, Bool.true_or] at hletter
      cases hletter
  · have hsame : c.toLower = c := dif_neg hupper
    rw [hsame]

theorem count_map_toLower (hb : b.isAlpha = false) (cs : List Char) :
    (cs.map Char.toLower).count b = cs.count b := by
  rw [List.count_eq_countP, List.countP_map, List.count_eq_countP]
  congr 1
  funext c
  rw [Function.comp_apply, Bool.eq_iff_iff, beq_iff_eq, beq_iff_eq]
  exact toLower_eq_iff hb

/-- Case apart the same texts hold the same of what is no letter. -/
theorem count_eq_of_eqIgnoreAsciiCase (hb : b.isAlpha = false)
    (h : eqIgnoreAsciiCase cs ds = true) : cs.count b = ds.count b := by
  rw [eqIgnoreAsciiCase, beq_iff_eq] at h
  rw [← count_map_toLower hb cs, h, count_map_toLower hb]

theorem mem_iff_of_eqIgnoreAsciiCase (hb : b.isAlpha = false)
    (h : eqIgnoreAsciiCase cs ds = true) : b ∈ cs ↔ b ∈ ds := by
  rw [← List.count_pos_iff, count_eq_of_eqIgnoreAsciiCase hb h, List.count_pos_iff]

theorem eqIgnoreAsciiCase_refl (cs : List Char) : eqIgnoreAsciiCase cs cs = true :=
  beq_self_eq_true _

/-- If the same words answer to every name, and each with a `b` in the one list is
outdone in the other, the other has no `b`. -/
theorem not_mem_of_outdone (hb : b.isAlpha = false) {ws vs : List (List Char)}
    (hsame : ∀ name, ws.any (eqIgnoreAsciiCase · name) =
      vs.any (eqIgnoreAsciiCase · name))
    (houtdone : ∀ v ∈ vs, b ∈ v → ∃ w ∈ ws, v.count b < w.count b) :
    ∀ w ∈ ws, b ∉ w := by
  intro w hw hmem
  cases hmost : ws.argmax (List.count b) with
  | none =>
      rw [List.argmax_eq_none] at hmost
      rw [hmost] at hw
      cases hw
  | some most =>
      have hin : ws.any (eqIgnoreAsciiCase · most) = true :=
        List.any_eq_true.mpr ⟨most, List.argmax_mem hmost, eqIgnoreAsciiCase_refl most⟩
      rw [hsame] at hin
      obtain ⟨v, hv, heq⟩ := List.any_eq_true.mp hin
      have hcount := count_eq_of_eqIgnoreAsciiCase hb heq
      have hpos : 0 < v.count b := by
        rw [hcount]
        exact (List.count_pos_iff.mpr hmem).trans_le (List.le_of_mem_argmax hw hmost)
      obtain ⟨u, hu, hlt⟩ := houtdone v hv (List.count_pos_iff.mp hpos)
      have hle := List.le_of_mem_argmax hu hmost
      omega

end Case

end Text

end Library

end RustSak
