import RustSak.Library.Words

/-!
# Link headers

The scan of a response's `Link` headers. It goes by the angle brackets: what follows
a target, up to the next bracket that opens, are its parameters, and these are split
at every semicolon.
-/

namespace RustSak

namespace Fetch

open Library

/-- A header value, a byte as the character of its number. -/
abbrev HeaderValue := List Char

def isVisibleAscii (c : Char) : Bool :=
  (32 ≤ c.toNat && c.toNat < 127) || c == '\t'

/-- A value is text if it is all visible ASCII. -/
def HeaderValue.toStr (value : HeaderValue) : Option (List Char) :=
  if value.all isVisibleAscii then some value else none

/-- The links from `rest` on, in at most `fuel` rounds, each with what follows it. -/
def linksFrom : ℕ → List Char → List (List Char × List Char)
  | 0, _ => []
  | fuel + 1, rest =>
      match Text.splitOnce ['<'] rest with
      | none => []
      | some (_, after) =>
          match Text.splitOnce ['>'] after with
          | none => []
          | some (target, tail) =>
              let parameters := tail.takeWhile (· != '<')
              let later := linksFrom fuel (tail.dropWhile (· != '<'))
              let target := Text.trimSpace target
              if target.isEmpty then later else (target, parameters) :: later

/-- A round takes up a character at least. -/
def links (value : List Char) : List (List Char × List Char) :=
  linksFrom value.length value

/-- The comma comes off before the quotes, as a link that is followed by another
carries it into its last parameter. -/
def bare (value : List Char) : List Char :=
  Text.trimMatches (· == '"')
    (Text.trimSpace ((Text.trimSpace value).rdropWhile (· == ',')))

def relation : List Char := ['r', 'e', 'l']

def parameterHasRel (rel parameter : List Char) : Bool :=
  match Text.splitOnce ['='] parameter with
  | none => false
  | some (name, value) =>
      Text.eqIgnoreAsciiCase (Text.trimSpace name) relation &&
        (Text.words (bare value)).any fun declared =>
          Text.eqIgnoreAsciiCase declared rel

def hasRel (parameters rel : List Char) : Bool :=
  (parameters.splitOn ';').any (parameterHasRel rel)

/-- The target of the link whose relation is `rel`, by the values of the `Link`
headers. -/
def link (values : List HeaderValue) (rel : List Char) : Option (List Char) :=
  (((values.filterMap HeaderValue.toStr).flatMap links).find? fun l =>
    hasRel l.2 rel).map Prod.fst

section Scan

variable {fuel : ℕ} {rel parameters parameter value rest target after : List Char}
  {values : List HeaderValue} {l : List Char × List Char}

/-! ## What is never found -/

theorem not_mem_parameters (h : l ∈ linksFrom fuel rest) : '<' ∉ l.2 := by
  induction fuel generalizing rest with
  | zero => cases h
  | succ fuel ih =>
    rw [linksFrom] at h
    split at h
    · cases h
    · split at h
      · cases h
      · dsimp only at h
        split at h
        · exact ih h
        · rcases List.mem_cons.mp h with rfl | h
          · intro hmem
            have hne := List.mem_takeWhile_imp hmem
            cases hne
          · exact ih h

theorem mem_of_bare {c : Char} (h : c ∈ bare value) : c ∈ value :=
  (List.dropWhile_suffix _).subset <| (List.rdropWhile_prefix _ _).subset <|
    (List.rdropWhile_prefix _ _).subset <| (List.dropWhile_suffix _).subset <|
      (List.rdropWhile_prefix _ _).subset <| (List.dropWhile_suffix _).subset <|
        (List.rdropWhile_prefix _ _).subset h

theorem mem_of_splitOnce {c : Char} {parts : List Char × List Char}
    (h : Text.splitOnce ['='] parameter = some parts) (hc : c ∈ parts.2) :
    c ∈ parameter := by
  by_cases hmem : '=' ∈ parameter
  · obtain ⟨name, value, hsplit, hname⟩ := List.eq_append_cons_of_mem hmem
    rw [hsplit] at h ⊢
    have hparts := Text.splitOnce_eq_some hname [] value
    rw [List.cons_append, List.nil_append] at hparts
    rw [hparts, Option.some.injEq] at h
    rw [← h] at hc
    exact List.mem_append_right _ (List.mem_cons_of_mem _ hc)
  · rw [Text.splitOnce_eq_none hmem] at h
    cases h

theorem mem_of_parameterHasRel {b : Char} (hb : b.isAlpha = false)
    (h : parameterHasRel rel parameter = true) (hmem : b ∈ rel) : b ∈ parameter := by
  unfold parameterHasRel at h
  cases hsplit : Text.splitOnce ['='] parameter with
  | none =>
      rw [hsplit] at h
      cases h
  | some parts =>
      rw [hsplit] at h
      obtain ⟨declared, hword, heq⟩ := List.any_eq_true.mp (Bool.and_eq_true_iff.mp h).2
      have hdeclared := (Text.mem_iff_of_eqIgnoreAsciiCase hb heq).mpr hmem
      exact mem_of_splitOnce hsplit
        (mem_of_bare ((Text.infix_of_mem_words hword).subset hdeclared))

/-- A relation with a semicolon or a bracket is never found. -/
theorem not_mem_of_link (h : link values rel = some target) :
    ';' ∉ rel ∧ '<' ∉ rel := by
  obtain ⟨l, hfind, _⟩ := Option.map_eq_some_iff.mp h
  obtain ⟨value, _, hlinks⟩ := List.mem_flatMap.mp (List.mem_of_find?_eq_some hfind)
  have hhas : hasRel l.2 rel = true := by simpa using List.find?_some hfind
  obtain ⟨parameter, hmem, hrel⟩ := List.any_eq_true.mp hhas
  rw [List.splitOn_eq_splitOnP] at hmem
  constructor
  · intro hin
    have hpart := Text.not_sep_of_mem_splitOnP hmem _
      (mem_of_parameterHasRel (by decide) hrel hin)
    cases hpart
  · intro hin
    exact not_mem_parameters hlinks (Text.mem_of_mem_splitOnP hmem _
      (mem_of_parameterHasRel (by decide) hrel hin))

/-! ## What is found -/

/-- A target without a bracket that closes, and what follows it. -/
theorem linksFrom_cons (htarget : '>' ∉ target)
    (hspace : ∀ c ∈ target, Text.isWhiteSpace c = false) (hne : target ≠ [])
    (hparameters : '<' ∉ parameters) (hrest : ∀ c ∈ rest.head?, c = '<') :
    linksFrom (fuel + 1) ('<' :: target ++ '>' :: (parameters ++ rest)) =
      (target, parameters) :: linksFrom fuel rest := by
  have hopen : Text.splitOnce ['<'] ('<' :: target ++ '>' :: (parameters ++ rest)) =
      some ([], target ++ '>' :: (parameters ++ rest)) :=
    Text.splitOnce_eq_some List.not_mem_nil [] _
  have hclose : Text.splitOnce ['>'] (target ++ '>' :: (parameters ++ rest)) =
      some (target, parameters ++ rest) := Text.splitOnce_eq_some htarget [] _
  have hall : ∀ c ∈ parameters, (c != '<') = true := by
    intro c hc
    rw [bne_iff_ne]
    rintro rfl
    exact hparameters hc
  have hstop : rest.takeWhile (· != '<') = [] ∧ rest.dropWhile (· != '<') = rest := by
    cases rest with
    | nil => exact ⟨rfl, rfl⟩
    | cons c rest =>
        rw [hrest c rfl]
        exact ⟨rfl, rfl⟩
  rw [linksFrom, hopen]
  dsimp only
  rw [hclose]
  dsimp only
  rw [Text.trimSpace_eq_self hspace, if_neg (by simpa using hne),
    List.takeWhile_append_of_pos hall, List.dropWhile_append_of_pos hall, hstop.1,
    hstop.2, List.append_nil]

end Scan

end Fetch

end RustSak
