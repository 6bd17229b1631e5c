import RustSak.Library.SemVer

/-!
# The versions that releases are compared by

`parseVersion` reads a tag leniently: it trims it, takes one `v` off and writes out the
missing components of the core before the version parser sees it. The parser and its
precedence are `Semver`; `Semver.Follows` is that they are those of SemVer 2.0.
-/

namespace RustSak

namespace Github

open Library

/-- The version crate. -/
structure Semver (Version Error : Type) where
  parse : List Char → Except Error Version
  cmpPrecedence : Version → Version → Ordering

variable {Version Error : Type}

/-- The crate accepts the texts of SemVer 2.0 whose numbers fit 64 bits, and compares by
its precedence; `read` is the version a value of the crate stands for. -/
structure Semver.Follows (S : Semver Version Error) (read : Version → SemVer.Version) :
    Prop where
  parse : ∀ text, (S.parse text).toOption.map read = SemVer.parse 64 text
  precedence : ∀ v w, S.cmpPrecedence v w = SemVer.precedence (read v) (read w)

inductive GithubError (Error : Type) where
  | invalidVersion (version : List Char) (source : Error)
  deriving DecidableEq

/-- `strip_prefix(['v', 'V'])`, the text itself where there is none. -/
def stripV : List Char → List Char
  | [] => []
  | c :: cs => if c = 'v' ∨ c = 'V' then cs else c :: cs

/-- Before the first hyphen or plus sign. -/
def isCore (c : Char) : Bool := c != '-' && c != '+'

def padding (core : List Char) : List Char :=
  match core.count '.' with
  | 0 => ".0.0".toList
  | 1 => ".0".toList
  | _ => []

/-- The text handed to the version parser. -/
def padded (stripped : List Char) : List Char :=
  let core := stripped.takeWhile isCore
  core ++ padding core ++ stripped.dropWhile isCore

def parseVersion (S : Semver Version Error) (raw : List Char) :
    Except (GithubError Error) Version :=
  (S.parse (padded (stripV (Text.trimSpace raw)))).mapError (.invalidVersion raw)

def isNewer (S : Semver Version Error) (latest current : Version) : Bool :=
  (S.cmpPrecedence latest current).isGT

/-! ## Spellings -/

/-- `k` components written out. -/
def zeros (k : ℕ) : List Char := (List.replicate k ".0".toList).flatten

/-- How many components the core has. -/
def components (text : List Char) : ℕ := (text.takeWhile isCore).count '.' + 1

/-- The text with `k` of its missing components written out before its suffix. -/
def writtenOut (k : ℕ) (text : List Char) : List Char :=
  text.takeWhile isCore ++ zeros k ++ text.dropWhile isCore

theorem padding_eq (core : List Char) : padding core = zeros (2 - core.count '.') := by
  unfold padding
  split
  · rename_i h
    rw [h]
    rfl
  · rename_i h
    rw [h]
    rfl
  · rename_i hnone hone
    have hne : core.count '.' ≠ 0 ∧ core.count '.' ≠ 1 := ⟨hnone, hone⟩
    have htwo : 2 - core.count '.' = 0 := by omega
    rw [htwo]
    rfl

theorem zeros_add (a b : ℕ) : zeros (a + b) = zeros a ++ zeros b := by
  rw [zeros, List.replicate_add, List.flatten_append]
  rfl

theorem count_zeros (k : ℕ) : (zeros k).count '.' = k := by
  induction k with
  | zero => rfl
  | succ k ih =>
      rw [zeros_add, List.count_append, ih]
      rfl

theorem mem_zeros {k : ℕ} {c : Char} (h : c ∈ zeros k) : c = '.' ∨ c = '0' := by
  obtain ⟨piece, hpiece, hc⟩ := List.mem_flatten.mp h
  rw [List.eq_of_mem_replicate hpiece] at hc
  simpa using hc

/-- The core of a text whose suffix begins with no character of the core. -/
theorem core_append {core suffix : List Char} (hcore : ∀ c ∈ core, isCore c = true)
    (hsuffix : ∀ c ∈ suffix.head?, isCore c = false) :
    (core ++ suffix).takeWhile isCore = core ∧ (core ++ suffix).dropWhile isCore = suffix := by
  rw [List.takeWhile_append_of_pos hcore, List.dropWhile_append_of_pos hcore]
  cases suffix with
  | nil => exact ⟨List.append_nil core, rfl⟩
  | cons c suffix =>
      have hstop : isCore c = false := hsuffix c rfl
      rw [List.takeWhile_cons, List.dropWhile_cons, hstop]
      exact ⟨List.append_nil core, rfl⟩

theorem suffix_stops (text : List Char) :
    ∀ c ∈ (text.dropWhile isCore).head?, isCore c = false := by
  intro c hc
  have hne : text.dropWhile isCore ≠ [] := by
    intro h
    rw [h] at hc
    cases hc
  have hhead := List.head_dropWhile_not isCore hne
  rw [List.head?_eq_some_head hne] at hc
  exact Option.some.inj hc ▸ hhead

/-- What is parsed does not depend on how many of the missing components are written
out. -/
theorem padded_writtenOut {k : ℕ} {text : List Char}
    (h : components text + k ≤ 3) :
    padded (writtenOut k text) = padded text := by
  have hcore : ∀ c ∈ text.takeWhile isCore ++ zeros k, isCore c = true := by
    intro c hc
    rcases List.mem_append.mp hc with hc | hc
    · exact List.mem_takeWhile_imp hc
    · rcases mem_zeros hc with rfl | rfl
      · rfl
      · rfl
  obtain ⟨htake, hdrop⟩ := core_append hcore (suffix_stops text)
  have hmissing : 2 - (text.takeWhile isCore).count '.' =
      k + (2 - ((text.takeWhile isCore).count '.' + k)) := by
    rw [components] at h
    omega
  rw [padded, writtenOut, htake, hdrop, padded, padding_eq, padding_eq, List.count_append,
    count_zeros, hmissing, zeros_add]
  simp only [List.append_assoc]

theorem stripV_eq_self {text : List Char} (h : ∀ d ∈ text.head?, d ≠ 'v' ∧ d ≠ 'V') :
    stripV text = text := by
  cases text with
  | nil => rfl
  | cons c cs =>
      have hc := h c rfl
      exact if_neg (not_or.mpr hc)

theorem stripV_cons {c : Char} (h : c = 'v' ∨ c = 'V') (text : List Char) :
    stripV (c :: text) = text := if_pos h

theorem isCore_of_v {c : Char} (h : c = 'v' ∨ c = 'V') : isCore c = true := by
  rcases h with rfl | rfl
  · rfl
  · rfl

theorem writtenOut_cons {c : Char} (h : isCore c = true) (k : ℕ) (text : List Char) :
    writtenOut k (c :: text) = c :: writtenOut k text := by
  rw [writtenOut, List.takeWhile_cons, List.dropWhile_cons, h]
  rfl

/-- The text begins as before, or with what was written out. -/
theorem head_writtenOut {k : ℕ} {text : List Char} :
    ∀ c ∈ (writtenOut k text).head?, c = '.' ∨ c ∈ text.head? := by
  intro c hc
  cases text with
  | nil =>
      cases k with
      | zero => cases hc
      | succ k => exact .inl (Option.some.inj hc).symm
  | cons d text =>
      cases hd : isCore d with
      | true =>
          rw [writtenOut_cons hd] at hc
          exact .inr hc
      | false =>
          rw [writtenOut, List.takeWhile_cons, List.dropWhile_cons, hd] at hc
          cases k with
          | zero => exact .inr hc
          | succ k => exact .inl (Option.some.inj hc).symm

theorem stripV_writtenOut (k : ℕ) (text : List Char) :
    stripV (writtenOut k text) = writtenOut k (stripV text) := by
  by_cases hv : ∃ c ∈ text.head?, c = 'v' ∨ c = 'V'
  · obtain ⟨c, hc, hv⟩ := hv
    obtain ⟨rest, rfl⟩ := List.head?_eq_some_iff.mp hc
    rw [writtenOut_cons (isCore_of_v hv), stripV_cons hv, stripV_cons hv]
  · have hnone : ∀ c ∈ text.head?, c ≠ 'v' ∧ c ≠ 'V' :=
      fun c hc => not_or.mp fun h => hv ⟨c, hc, h⟩
    rw [stripV_eq_self hnone]
    refine stripV_eq_self ?_
    intro c hc
    rcases head_writtenOut c hc with rfl | hc
    · decide
    · exact hnone c hc

theorem components_stripV (text : List Char) : components (stripV text) = components text := by
  by_cases hv : ∃ c ∈ text.head?, c = 'v' ∨ c = 'V'
  · obtain ⟨c, hc, hv⟩ := hv
    obtain ⟨rest, rfl⟩ := List.head?_eq_some_iff.mp hc
    have hdot : c ≠ '.' := by
      rcases hv with rfl | rfl
      · decide
      · decide
    rw [stripV_cons hv, components, components, List.takeWhile_cons, isCore_of_v hv, if_pos rfl,
      List.count_cons_of_ne hdot]
  · rw [stripV_eq_self fun c hc => not_or.mp fun h => hv ⟨c, hc, h⟩]

theorem stripV_rebuilt (text : List Char) (build : Option (List Char)) :
    stripV (SemVer.rebuilt text build) = SemVer.rebuilt (stripV text) build := by
  by_cases hv : ∃ c ∈ text.head?, c = 'v' ∨ c = 'V'
  · obtain ⟨c, hc, hv⟩ := hv
    obtain ⟨rest, rfl⟩ := List.head?_eq_some_iff.mp hc
    have hplus : ∀ d ∈ [c], (d != '+') = true := by
      intro d hd
      rcases hv with rfl | rfl
      · rw [List.mem_singleton.mp hd]
        rfl
      · rw [List.mem_singleton.mp hd]
        rfl
    rw [← List.singleton_append, SemVer.rebuilt_append hplus, List.singleton_append,
      List.singleton_append, stripV_cons hv, stripV_cons hv]
  · have hnone : ∀ c ∈ text.head?, c ≠ 'v' ∧ c ≠ 'V' :=
      fun c hc => not_or.mp fun h => hv ⟨c, hc, h⟩
    rw [stripV_eq_self hnone]
    refine stripV_eq_self ?_
    intro c hc
    rcases SemVer.head_rebuilt c hc with rfl | hc
    · decide
    · exact hnone c hc

theorem ne_plus_of_isCore {c : Char} (h : isCore c = true) : (c != '+') = true := by
  rw [isCore, Bool.and_eq_true] at h
  exact h.2

/-- Build metadata does not shift the padding. -/
theorem padded_rebuilt (text : List Char) (build : Option (List Char)) :
    padded (SemVer.rebuilt text build) = SemVer.rebuilt (padded text) build := by
  have hcore : ∀ c ∈ text.takeWhile isCore, isCore c = true :=
    fun c hc => List.mem_takeWhile_imp hc
  have hpadded : ∀ c ∈ text.takeWhile isCore ++ padding (text.takeWhile isCore),
      (c != '+') = true := by
    intro c hc
    rcases List.mem_append.mp hc with hc | hc
    · exact ne_plus_of_isCore (hcore c hc)
    · rw [padding_eq] at hc
      rcases mem_zeros hc with rfl | rfl
      · rfl
      · rfl
  have hstops : ∀ c ∈ (SemVer.rebuilt (text.dropWhile isCore) build).head?,
      isCore c = false := by
    intro c hc
    rcases SemVer.head_rebuilt c hc with rfl | hc
    · rfl
    · exact suffix_stops text c hc
  have hsplit : SemVer.rebuilt text build =
      text.takeWhile isCore ++ SemVer.rebuilt (text.dropWhile isCore) build := by
    rw [← SemVer.rebuilt_append fun c hc => ne_plus_of_isCore (hcore c hc),
      List.takeWhile_append_dropWhile]
  obtain ⟨htake, hdrop⟩ := core_append hcore hstops
  rw [hsplit, padded, htake, hdrop, padded, SemVer.rebuilt_append hpadded]

/-! ## What is accepted -/

variable {S : Semver Version Error} {read : Version → SemVer.Version} {raw text : List Char}
  {v w : Version}

theorem parseVersion_eq_ok :
    parseVersion S raw = .ok v ↔ S.parse (padded (stripV (Text.trimSpace raw))) = .ok v := by
  rw [parseVersion]
  cases S.parse (padded (stripV (Text.trimSpace raw))) with
  | error e => simp [Except.mapError]
  | ok u => simp [Except.mapError]

theorem Semver.Follows.parse_eq_some (hS : S.Follows read) (h : S.parse text = .ok v) :
    SemVer.parse 64 text = some (read v) := by
  rw [← hS.parse, h]
  rfl

theorem Semver.Follows.exists_ok (hS : S.Follows read) {version : SemVer.Version}
    (h : SemVer.parse 64 text = some version) :
    ∃ v, S.parse text = .ok v ∧ read v = version := by
  rw [← hS.parse] at h
  cases hparse : S.parse text with
  | error e =>
      rw [hparse] at h
      cases h
  | ok v =>
      rw [hparse] at h
      exact ⟨v, rfl, Option.some.inj h⟩

/-- No white space is left in an accepted text. -/
theorem not_white_of_accepted (hS : S.Follows read) (h : parseVersion S raw = .ok v) :
    ∀ c ∈ Text.trimSpace raw, Text.isWhiteSpace c = false := by
  have hparse := hS.parse_eq_some (parseVersion_eq_ok.mp h)
  have hstripped : ∀ c ∈ stripV (Text.trimSpace raw), Text.isWhiteSpace c = false := by
    intro c hc
    have hmem : c ∈ padded (stripV (Text.trimSpace raw)) := by
      rw [← List.takeWhile_append_dropWhile (p := isCore) (l := stripV _)] at hc
      rw [padded, List.append_assoc]
      rcases List.mem_append.mp hc with hc | hc
      · exact List.mem_append_left _ hc
      · exact List.mem_append_right _ (List.mem_append_right _ hc)
    obtain ⟨hlow, hhigh⟩ := SemVer.toNat_of_parse hparse c hmem
    exact SemVer.not_isWhiteSpace hlow hhigh
  cases htext : Text.trimSpace raw with
  | nil => exact fun c hc => absurd hc List.not_mem_nil
  | cons c rest =>
      rw [htext] at hstripped
      by_cases hv : c = 'v' ∨ c = 'V'
      · rw [stripV_cons hv] at hstripped
        refine List.forall_mem_cons.mpr ⟨?_, hstripped⟩
        rcases hv with rfl | rfl
        · decide
        · decide
      · rw [stripV, if_neg hv] at hstripped
        exact hstripped

/-- A respelling without white space that hands the same text to the parser. -/
theorem parseVersion_respelt (h : parseVersion S raw = .ok v)
    (hwhite : ∀ c ∈ text, Text.isWhiteSpace c = false)
    (hsame : padded (stripV text) = padded (stripV (Text.trimSpace raw))) :
    parseVersion S text = .ok v := by
  rw [parseVersion_eq_ok, Text.trimSpace_eq_self hwhite, hsame]
  exact parseVersion_eq_ok.mp h

theorem parseVersion_writtenOut (hS : S.Follows read) (h : parseVersion S raw = .ok v)
    {k : ℕ} (hk : components (Text.trimSpace raw) + k ≤ 3) :
    parseVersion S (writtenOut k (Text.trimSpace raw)) = .ok v := by
  have hwhite := not_white_of_accepted hS h
  refine parseVersion_respelt h ?_ ?_
  · intro c hc
    rcases List.mem_append.mp hc with hc | hc
    · rcases List.mem_append.mp hc with hc | hc
      · exact hwhite c (List.takeWhile_subset _ hc)
      · rcases mem_zeros hc with rfl | rfl
        · decide
        · decide
    · exact hwhite c (List.dropWhile_subset _ hc)
  · rw [stripV_writtenOut]
    refine padded_writtenOut ?_
    rw [components_stripV]
    exact hk

/-- Other valid metadata: accepted, and the same version but for it. -/
theorem parseVersion_rebuilt (hS : S.Follows read) (h : parseVersion S raw = .ok v)
    (build : Option (List Char)) (hbuild : ∀ b ∈ build, SemVer.isBuild b = true) :
    ∃ v' d, parseVersion S (SemVer.rebuilt (Text.trimSpace raw) build) = .ok v' ∧
      read v' = { read v with build := d } := by
  have hparse := hS.parse_eq_some (parseVersion_eq_ok.mp h)
  obtain ⟨d, hd⟩ := SemVer.parse_rebuilt hparse build hbuild
  obtain ⟨v', hv', hread⟩ := hS.exists_ok hd
  refine ⟨v', d, ?_, hread⟩
  have hwhite : ∀ c ∈ SemVer.rebuilt (Text.trimSpace raw) build,
      Text.isWhiteSpace c = false := by
    intro c hc
    rcases SemVer.mem_rebuilt hc with hc | rfl | ⟨b, hb, hc⟩
    · exact not_white_of_accepted hS h c hc
    · decide
    · obtain ⟨hlow, hhigh⟩ := SemVer.toNat_of_isBuild (hbuild b hb) c hc
      exact SemVer.not_isWhiteSpace (by omega) hhigh
  rw [parseVersion_eq_ok, Text.trimSpace_eq_self hwhite, stripV_rebuilt, padded_rebuilt]
  exact hv'

/-! ## Precedence -/

theorem isNewer_iff (hS : S.Follows read) :
    isNewer S v w = true ↔ SemVer.precedence (read v) (read w) = .gt := by
  rw [isNewer, hS.precedence, Ordering.isGT_iff_eq_gt]

/-- Two versions are one of newer, older and alike. -/
inductive Compared (S : Semver Version Error) (v w : Version) : Prop where
  | newer (h : isNewer S v w = true) (hnot : isNewer S w v = false)
      (hne : S.cmpPrecedence v w ≠ .eq)
  | older (h : isNewer S w v = true) (hnot : isNewer S v w = false)
      (hne : S.cmpPrecedence v w ≠ .eq)
  | alike (h : S.cmpPrecedence v w = .eq) (hnot : isNewer S v w = false)
      (hnot' : isNewer S w v = false)

theorem compared (hS : S.Follows read) (v w : Version) : Compared S v w := by
  have hswap : S.cmpPrecedence w v = (S.cmpPrecedence v w).swap := by
    rw [hS.precedence, hS.precedence]
    exact Std.OrientedCmp.eq_swap
  cases hcmp : S.cmpPrecedence v w with
  | lt =>
      rw [hcmp] at hswap
      exact .older (by rw [isNewer, hswap]; rfl) (by rw [isNewer, hcmp]; rfl)
        (by rw [hcmp]; decide)
  | eq =>
      rw [hcmp] at hswap
      exact .alike hcmp (by rw [isNewer, hcmp]; rfl) (by rw [isNewer, hswap]; rfl)
  | gt =>
      rw [hcmp] at hswap
      exact .newer (by rw [isNewer, hcmp]; rfl) (by rw [isNewer, hswap]; rfl)
        (by rw [hcmp]; decide)

theorem isNewer_irrefl (hS : S.Follows read) (v : Version) : isNewer S v v = false := by
  have hself : SemVer.precedence (read v) (read v) = .eq := Std.ReflCmp.compare_self
  rw [isNewer, hS.precedence, hself]
  rfl

theorem isNewer_trans (hS : S.Follows read) {u : Version} (h : isNewer S v w = true)
    (h' : isNewer S w u = true) : isNewer S v u = true := by
  rw [isNewer_iff hS] at h h' ⊢
  exact Std.TransCmp.gt_trans h h'

theorem isNewer_asymm (hS : S.Follows read) (h : isNewer S v w = true) :
    isNewer S w v = false := by
  cases hback : isNewer S w v with
  | false => rfl
  | true =>
      have hself := isNewer_trans hS h hback
      rw [isNewer_irrefl hS] at hself
      cases hself

/-- Build metadata is not compared. -/
theorem isNewer_build (hS : S.Follows read) {v' w' : Version} {b d : List (List Char)}
    (hv : read v' = { read v with build := b }) (hw : read w' = { read w with build := d }) :
    isNewer S v' w' = isNewer S v w := by
  rw [isNewer, isNewer, hS.precedence, hS.precedence, hv, hw, SemVer.precedence_build]

/-- For every two accepted texts: neither white space around one, a `v` before it nor
missing components written out change what is parsed; no build metadata changes which is
newer; and newer is a strict order on what is parsed. -/
theorem versions_compare (S : Semver Version Error) (read : Version → SemVer.Version)
    (hS : S.Follows read) (s t : List Char) (v w : Version)
    (hs : parseVersion S s = .ok v) (ht : parseVersion S t = .ok w) :
    (∀ before after, (∀ c ∈ before, Text.isWhiteSpace c = true) →
      (∀ c ∈ after, Text.isWhiteSpace c = true) →
      parseVersion S (before ++ s ++ after) = .ok v) ∧
    (∀ c, c = 'v' ∨ c = 'V' →
      (∀ d ∈ (Text.trimSpace s).head?, d ≠ 'v' ∧ d ≠ 'V') →
      parseVersion S (c :: Text.trimSpace s) = .ok v) ∧
    (∀ k, components (Text.trimSpace s) + k ≤ 3 →
      parseVersion S (writtenOut k (Text.trimSpace s)) = .ok v) ∧
    (∀ b d : Option (List Char), (∀ x ∈ b, SemVer.isBuild x = true) →
      (∀ x ∈ d, SemVer.isBuild x = true) → ∃ v' w',
      parseVersion S (SemVer.rebuilt (Text.trimSpace s) b) = .ok v' ∧
      parseVersion S (SemVer.rebuilt (Text.trimSpace t) d) = .ok w' ∧
      isNewer S v' w' = isNewer S v w) ∧
    isNewer S v v = false ∧ (isNewer S v w = true → isNewer S w v = false) ∧
    (∀ u x, parseVersion S u = .ok x → isNewer S v w = true → isNewer S w x = true →
      isNewer S v x = true) ∧
    Compared S v w := by
  refine ⟨?_, ?_, ?_, ?_, isNewer_irrefl hS v, isNewer_asymm hS,
    fun _ _ _ => isNewer_trans hS, compared hS v w⟩
  · intro before after hbefore hafter
    rw [parseVersion_eq_ok, Text.trimSpace_append s hbefore hafter]
    exact parseVersion_eq_ok.mp hs
  · intro c hc hnone
    refine parseVersion_respelt hs ?_ ?_
    · refine List.forall_mem_cons.mpr ⟨?_, not_white_of_accepted hS hs⟩
      rcases hc with rfl | rfl
      · decide
      · decide
    · rw [stripV_cons hc, stripV_eq_self hnone]
  · intro k hk
    exact parseVersion_writtenOut hS hs hk
  · intro b d hb hd
    obtain ⟨v', b', hv', hread⟩ := parseVersion_rebuilt hS hs b hb
    obtain ⟨w', d', hw', hread'⟩ := parseVersion_rebuilt hS ht d hd
    exact ⟨v', w', hv', hw', isNewer_build hS hread hread'⟩

/-- SemVer 2.0 itself. -/
def reference : Semver SemVer.Version Unit where
  parse text := (SemVer.parse 64 text).elim (.error ()) .ok
  cmpPrecedence := SemVer.precedence

theorem reference_follows : reference.Follows id where
  parse text := by
    have hparse : reference.parse text = (SemVer.parse 64 text).elim (.error ()) .ok := rfl
    rw [hparse]
    cases SemVer.parse 64 text with
    | none => rfl
    | some v => rfl
  precedence _ _ := rfl

theorem versions_compare_tag :
    parseVersion reference (writtenOut 1 (Text.trimSpace " v1.2 ".toList)) =
      .ok ⟨1, 2, 0, [], []⟩ ∧
    Compared reference ⟨1, 2, 0, [], []⟩
      ⟨1, 2, 0, [.alphanumeric "rc".toList, .numeric 1], ["b".toList]⟩ :=
  have h := versions_compare reference id reference_follows " v1.2 ".toList
    "1.2.0-rc.1+b".toList ⟨1, 2, 0, [], []⟩
    ⟨1, 2, 0, [.alphanumeric "rc".toList, .numeric 1], ["b".toList]⟩
    (by decide +kernel) (by decide +kernel)
  ⟨h.2.2.1 1 (by decide +kernel), h.2.2.2.2.2.2.2⟩

end Github

end RustSak
