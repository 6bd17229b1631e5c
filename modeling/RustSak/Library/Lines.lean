import RustSak.Library.Text

/-!
# The lines of a text

`lines` ends a line at a line feed, takes a carriage return before it along, and does
without the feed after the last line. A text written line by line is read back, each
line without its carriage return.
-/

namespace RustSak

namespace Library

namespace Text

/-- The line without one carriage return at its end. -/
def stripCr (line : List Char) : List Char :=
  if line.getLast? = some '\r' then line.dropLast else line

/-- What is before the last line feed are lines, and what is after it is one unless it
is empty. -/
def linesOf : List (List Char) → List (List Char)
  | [] => []
  | [last] => if last = [] then [] else [last]
  | line :: next :: rest => stripCr line :: linesOf (next :: rest)

def lines (text : List Char) : List (List Char) := linesOf (text.splitOn '\n')

/-- Every line with its line feed. -/
def unlines (ls : List (List Char)) : List Char := ls.flatMap fun line => line ++ ['\n']

theorem stripCr_append (a : List Char) {b : List Char} (h : b ≠ []) :
    stripCr (a ++ b) = a ++ stripCr b := by
  rw [stripCr, stripCr, List.getLast?_append_of_ne_nil a h]
  split
  · exact List.dropLast_append_of_ne_nil h
  · rfl

theorem stripCr_eq_self {line : List Char} (h : line.getLast? ≠ some '\r') :
    stripCr line = line := if_neg h

theorem stripCr_cons {c : Char} (h : c ≠ '\r') (cs : List Char) :
    stripCr (c :: cs) = c :: stripCr cs := by
  cases cs with
  | nil =>
      refine stripCr_eq_self ?_
      intro heq
      exact h (Option.some.inj heq)
  | cons d cs => exact stripCr_append [c] (List.cons_ne_nil d cs)

/-- The line, or the line and its carriage return. -/
theorem eq_stripCr_append (line : List Char) :
    stripCr line = line ∨ stripCr line ++ ['\r'] = line := by
  rw [stripCr]
  split
  · rename_i h
    exact .inr (List.dropLast_append_getLast? _ h)
  · exact .inl rfl

theorem trimSpace_stripCr (line : List Char) :
    trimSpace (stripCr line) = trimSpace line := by
  rcases eq_stripCr_append line with h | h
  · rw [h]
  · have hreturn : ∀ c ∈ ['\r'], isWhiteSpace c = true := by
      intro c hc
      rw [List.mem_singleton.mp hc]
      decide
    have htrim := trimSpace_append (stripCr line) (fun c hc => absurd hc List.not_mem_nil)
      hreturn
    rw [List.nil_append, h] at htrim
    exact htrim.symm

theorem linesOf_cons (line : List Char) {rest : List (List Char)} (h : rest ≠ []) :
    linesOf (line :: rest) = stripCr line :: linesOf rest := by
  obtain ⟨next, rest, rfl⟩ := List.exists_cons_of_ne_nil h
  rfl

/-- Lines written before a text are read before its lines. -/
theorem lines_unlines_append {ls : List (List Char)} (h : ∀ line ∈ ls, '\n' ∉ line)
    (rest : List Char) : lines (unlines ls ++ rest) = ls.map stripCr ++ lines rest := by
  induction ls with
  | nil => rfl
  | cons line ls ih =>
      obtain ⟨hline, hls⟩ := List.forall_mem_cons.mp h
      have hsplit : unlines (line :: ls) ++ rest = line ++ '\n' :: (unlines ls ++ rest) := by
        simp [unlines]
      rw [lines, hsplit, List.splitOn_append_cons_self_of_not_mem hline,
        linesOf_cons _ (List.splitOn_ne_nil _ _)]
      exact congrArg (stripCr line :: ·) (ih hls)

theorem linesOf_concat (pieces : List (List Char)) (last : List Char) :
    linesOf (pieces ++ [last]) = pieces.map stripCr ++ if last = [] then [] else [last] := by
  induction pieces with
  | nil => rfl
  | cons piece pieces ih =>
      rw [List.cons_append, linesOf_cons _ (List.concat_ne_nil _ _), ih]
      rfl

/-- The pieces of a text, the last of which the text ends in. -/
theorem splitOn_eq_concat (text : List Char) : ∃ pieces last,
    text.splitOn '\n' = pieces ++ [last] ∧ (last ≠ [] → last.getLast? = text.getLast?) := by
  by_cases hmem : '\n' ∈ text
  · obtain ⟨after, before, hreverse, hafter⟩ :=
      List.eq_append_cons_of_mem (List.mem_reverse.mpr hmem)
    have htext : text = before.reverse ++ '\n' :: after.reverse := by
      rw [← List.reverse_reverse text, hreverse]
      simp
    refine ⟨before.reverse.splitOn '\n', after.reverse, ?_, ?_⟩
    · rw [htext, List.splitOn_append_cons_self,
        List.splitOn_eq_singleton fun h => hafter (List.mem_reverse.mp h)]
    · intro hne
      rw [htext, List.getLast?_append_of_ne_nil _ (List.cons_ne_nil _ _),
        ← List.singleton_append, List.getLast?_append_of_ne_nil _ hne]
  · exact ⟨[], text, List.splitOn_eq_singleton hmem, fun _ => rfl⟩

/-- The feed after the last line adds at most an empty line. -/
theorem lines_append_feed {text : List Char} (h : text.getLast? ≠ some '\r') :
    lines (text ++ ['\n']) = lines text ∨ lines (text ++ ['\n']) = lines text ++ [[]] := by
  obtain ⟨pieces, last, hsplit, hlast⟩ := splitOn_eq_concat text
  have hfeed : (text ++ ['\n']).splitOn '\n' = pieces ++ [last] ++ [[]] := by
    rw [List.splitOn_append_cons_self, hsplit]
    rfl
  rw [lines, lines, hfeed, hsplit, linesOf_concat, linesOf_concat, if_pos rfl,
    List.append_nil, List.map_append, List.map_singleton]
  by_cases hempty : last = []
  · right
    rw [if_pos hempty, hempty, List.append_nil]
    rfl
  · left
    rw [if_neg hempty, stripCr_eq_self (hlast hempty ▸ h)]

end Text

end Library

end RustSak
