import RustSak.Ai.Install
import Mathlib.Data.List.Infix

/-!
# Folders on the Hub and their URLs

A folder is parsed from its URL and written as one. URLs are parsed elsewhere: `UrlLaws` is what
is relied on, that the origin of a parsed URL and a path made of its segments are parsed back.
-/

namespace RustSak

namespace Ai

namespace Sources

open Library

/-- A parsed URL; `origin` is its scheme, its host and a port that is not the scheme's own. -/
structure Url where
  scheme : List Char
  host : Option (List Char)
  origin : List Char
  path : List Char
  query : Option (List Char)
  fragment : Option (List Char)
  deriving DecidableEq

/-- The segments of a path that are not empty. -/
def segments (path : List Char) : List (List Char) :=
  (path.splitOn '/').filter fun segment => !segment.isEmpty

def join (segments : List (List Char)) : List Char := ['/'].intercalate segments

def isWeb (url : Url) : Bool :=
  (url.scheme == "https".toList || url.scheme == "http".toList) && url.host.isSome

def isDot (segment : List Char) : Bool := segment == ".".toList || segment == "..".toList

/-- A parsed path has no dot segments, and is parsed as it is behind the same origin. -/
structure UrlLaws (parse : List Char → Option Url) : Prop where
  reparse : ∀ {text url}, parse text = some url → isWeb url = true →
    parse (url.origin ++ '/' :: join (segments url.path)) =
      some { url with path := '/' :: join (segments url.path), query := none, fragment := none }

/-- A folder on the Hub. -/
structure Folder where
  base : List Char
  repo : List Char
  revision : List Char
  path : List Char
  deriving DecidableEq

namespace Folder

variable (url : List Char → Option Url)

/-- The error has the text as it was given. -/
def parse (text : List Char) : Except (List Char) Folder :=
  match url text with
  | none => .error text
  | some parsed =>
      if !isWeb parsed || parsed.query.isSome || parsed.fragment.isSome then .error text
      else match segments parsed.path with
        | owner :: repo :: tree :: revision :: folder =>
            if tree ≠ "tree".toList ∨ folder.isEmpty ∨ folder.any isDot then .error text
            else .ok ⟨parsed.origin, owner ++ '/' :: repo, revision, join folder⟩
        | _ => .error text

def display (folder : Folder) : List Char :=
  folder.base ++ '/' :: (folder.repo ++ "/tree/".toList ++ folder.revision ++ '/' :: folder.path)

end Folder

/-- The folder as a dependency's source. -/
def Folder.source (folder : Folder) : Install.Source :=
  ⟨String.ofList folder.base, String.ofList folder.repo, String.ofList folder.revision,
    String.ofList folder.path⟩

/-- `Source::parse`: the folder has a name and a version. -/
def parseSource (url : List Char → Option Url) (text : List Char) :
    Except (List Char) Install.Source :=
  match Folder.parse url text with
  | .error _ => .error text
  | .ok folder => if folder.path.contains '/' then .ok folder.source else .error text

/-! ## Segments -/

theorem not_mem_of_mem_splitOn {text segment : List Char} (h : segment ∈ text.splitOn '/') :
    '/' ∉ segment := by
  induction text generalizing segment with
  | nil =>
      rw [List.splitOn_nil, List.mem_singleton] at h
      rw [h]
      exact List.not_mem_nil
  | cons c text ih =>
      rw [List.splitOn_cons_eq_if_modifyHead] at h
      split at h
      · obtain rfl | h := List.mem_cons.mp h
        · exact List.not_mem_nil
        · exact ih h
      · rename_i hc
        obtain ⟨first, rest, hsplit⟩ := List.exists_cons_of_ne_nil (List.splitOn_ne_nil '/' text)
        rw [hsplit, List.modifyHead_cons] at h
        obtain rfl | h := List.mem_cons.mp h
        · have hfirst := ih (by rw [hsplit]; exact List.mem_cons_self)
          intro hmem
          obtain heq | hmem := List.mem_cons.mp hmem
          · exact hc (beq_iff_eq.mpr heq.symm)
          · exact hfirst hmem
        · exact ih (by rw [hsplit]; exact List.mem_cons_of_mem _ h)

/-- A list of names that paths are made of. -/
def Names (names : List (List Char)) : Prop := ∀ name ∈ names, name ≠ [] ∧ '/' ∉ name

theorem names_segments (path : List Char) : Names (segments path) := by
  intro segment h
  obtain ⟨hmem, hne⟩ := List.mem_filter.mp h
  refine ⟨fun hnil => ?_, not_mem_of_mem_splitOn hmem⟩
  rw [hnil] at hne
  cases hne

theorem splitOn_join {names : List (List Char)} (h : Names names) (hne : names ≠ []) :
    (join names).splitOn '/' = names :=
  List.splitOn_intercalate '/' (fun name hname => (h name hname).2) hne

theorem segments_join {names : List (List Char)} (h : Names names) (hne : names ≠ []) :
    segments (join names) = names := by
  rw [segments, splitOn_join h hne]
  refine List.filter_eq_self.mpr fun name hname => ?_
  rw [Bool.not_eq_true', List.isEmpty_eq_false_iff]
  exact (h name hname).1

/-- A slash in front makes no difference. -/
theorem segments_slash (path : List Char) : segments ('/' :: path) = segments path := by
  have hsplit : ('/' :: path).splitOn '/' = [] :: path.splitOn '/' :=
    List.splitOn_append_cons_self_of_not_mem List.not_mem_nil _
  rw [segments, hsplit, List.filter_cons_of_neg (by simp)]
  rfl

theorem join_cons_cons (name next : List Char) (names : List (List Char)) :
    join (name :: next :: names) = name ++ '/' :: join (next :: names) :=
  List.intercalate_cons_cons.trans (List.append_assoc name ['/'] (join (next :: names)))

theorem slash_mem_join {names : List (List Char)} (h : Names names) :
    '/' ∈ join names ↔ 2 ≤ names.length := by
  cases names with
  | nil => simp [join]
  | cons name names =>
      cases names with
      | nil =>
          have hjoin : join [name] = name := List.intercalate_singleton
          rw [hjoin]
          exact ⟨fun hmem => absurd hmem (h name List.mem_cons_self).2, by simp⟩
      | cons next names => simp [join_cons_cons]

/-! ## Round trip -/

/-- What is known of a parsed folder. -/
theorem Folder.parse_eq_ok {url : List Char → Option Url} {text : List Char} {folder : Folder} :
    Folder.parse url text = .ok folder ↔
      ∃ parsed owner repo rest, url text = some parsed ∧ isWeb parsed = true ∧
        parsed.query = none ∧ parsed.fragment = none ∧
        segments parsed.path = owner :: repo :: "tree".toList :: folder.revision :: rest ∧
        rest ≠ [] ∧ rest.any isDot = false ∧
        folder = ⟨parsed.origin, owner ++ '/' :: repo, folder.revision, join rest⟩ := by
  unfold Folder.parse
  cases hurl : url text with
  | none => simp
  | some parsed =>
      dsimp only
      by_cases hrefused : (!isWeb parsed || parsed.query.isSome || parsed.fragment.isSome) = true
      · rw [if_pos hrefused]
        constructor
        · nofun
        · rintro ⟨_, owner, repo, rest, ⟨⟩, hweb, hquery, hfragment, _⟩
          simp [hweb, hquery, hfragment] at hrefused
      · rw [if_neg hrefused]
        simp only [Bool.or_eq_true, Bool.not_eq_true', not_or, Bool.not_eq_false,
          Option.not_isSome_iff_eq_none] at hrefused
        obtain ⟨⟨hweb, hquery⟩, hfragment⟩ := hrefused
        split
        · rename_i owner repo tree revision rest hsegments
          by_cases hbad : tree ≠ "tree".toList ∨ rest.isEmpty ∨ rest.any isDot
          · rw [if_pos hbad]
            constructor
            · nofun
            · rintro ⟨_, _, _, _, ⟨⟩, _, _, _, hsegments', hrest, hdots, _⟩
              obtain ⟨-, -, htree, -, hsame⟩ : _ ∧ _ ∧ tree = _ ∧ _ ∧ rest = _ := by
                simpa using hsegments.symm.trans hsegments'
              rw [hsame, htree] at hbad
              simp [hrest, hdots] at hbad
          · rw [if_neg hbad]
            simp only [not_or, not_not, Bool.not_eq_true, List.isEmpty_eq_false_iff] at hbad
            obtain ⟨htree, hrest, hdots⟩ := hbad
            constructor
            · intro hok
              rw [← Except.ok.inj hok]
              exact ⟨parsed, owner, repo, rest, rfl, hweb, hquery, hfragment,
                by rw [hsegments, htree], hrest, hdots, rfl⟩
            · rintro ⟨_, _, _, _, ⟨⟩, _, _, _, hsegments', _, _, hfolder⟩
              obtain ⟨rfl, rfl, -, hrevision, rfl⟩ : _ = _ ∧ _ = _ ∧ tree = _ ∧
                  revision = _ ∧ _ = _ := by
                simpa using hsegments.symm.trans hsegments'
              rw [hfolder, hrevision]
        · rename_i hnone
          constructor
          · nofun
          · rintro ⟨_, _, _, _, ⟨⟩, _, _, _, hsegments, _⟩
            exact absurd hsegments (hnone _ _ _ _ _)

/-- A folder is written as a URL that is parsed back to it, and so is a source. -/
theorem Folder.parse_display {url : List Char → Option Url} (laws : UrlLaws url)
    {text : List Char} {folder : Folder} (h : Folder.parse url text = .ok folder) :
    Folder.parse url folder.display = .ok folder := by
  obtain ⟨parsed, owner, repo, rest, hurl, hweb, _, _, hsegments, hrest, hdots, hfolder⟩ :=
    Folder.parse_eq_ok.mp h
  have hdisplay : folder.display = parsed.origin ++ '/' :: join (segments parsed.path) := by
    obtain ⟨first, others, rfl⟩ := List.exists_cons_of_ne_nil hrest
    rw [hsegments, hfolder]
    simp [Folder.display, join_cons_cons]
  rw [hdisplay]
  refine Folder.parse_eq_ok.mpr ⟨_, owner, repo, rest, laws.reparse hurl hweb, hweb, rfl, rfl, ?_,
    hrest, hdots, hfolder⟩
  rw [segments_slash, ← hsegments]
  refine segments_join (names_segments parsed.path) ?_
  rw [hsegments]
  exact List.cons_ne_nil _ _

/-- The path of a parsed folder is of its segments, of which there is one. -/
theorem Folder.path_eq {url : List Char → Option Url} {text : List Char} {folder : Folder}
    (h : Folder.parse url text = .ok folder) :
    segments folder.path ≠ [] ∧ Names (segments folder.path) ∧
      folder.path = join (segments folder.path) := by
  obtain ⟨parsed, owner, repo, rest, _, _, _, _, hsegments, hrest, _, hfolder⟩ :=
    Folder.parse_eq_ok.mp h
  have hnames : Names rest := by
    intro name hname
    refine names_segments parsed.path name ?_
    rw [hsegments]
    simp [hname]
  have hpath : folder.path = join rest := congrArg Folder.path hfolder
  rw [hpath, segments_join hnames hrest]
  exact ⟨hrest, hnames, rfl⟩

/-- The name and the version of a source are the last segments of its folder. -/
theorem last_two {folder : Folder} (hpath : folder.path = join (segments folder.path))
    (hnames : Names (segments folder.path)) (h : 2 ≤ (segments folder.path).length) :
    ∃ first, segments folder.path =
      first ++ [folder.source.name.toList, folder.source.version.toList] := by
  have hsplit : folder.source.folder.toList.splitOn '/' = segments folder.path := by
    have hne : segments folder.path ≠ [] := List.ne_nil_of_length_pos (Nat.zero_lt_of_lt h)
    have hlist : folder.source.folder.toList = folder.path := String.toList_ofList
    rw [hlist]
    exact (congrArg (List.splitOn '/') hpath).trans (splitOn_join hnames hne)
  unfold Install.Source.name Install.Source.version Install.Source.segmentFromEnd
  rw [hsplit]
  cases hreverse : (segments folder.path).reverse with
  | nil =>
      rw [List.reverse_eq_nil_iff.mp hreverse] at h
      cases h
  | cons version before =>
      cases before with
      | nil =>
          have hlength := congrArg List.length hreverse
          rw [List.length_reverse] at hlength
          rw [hlength, List.length_singleton] at h
          exact absurd h (Nat.not_succ_le_self 1)
      | cons name before =>
          refine ⟨before.reverse, ?_⟩
          rw [← List.reverse_reverse (segments folder.path), hreverse]
          simp

/-- Written folders are told apart by their URLs, and parsed back from them. A dependency's source
needs two segments, the last of which are its name and its version, and is parsed back as well. -/
theorem folder_round_trip {url : List Char → Option Url} (laws : UrlLaws url) {text : List Char}
    {folder : Folder} (h : Folder.parse url text = .ok folder) :
    Folder.parse url folder.display = .ok folder ∧
    (∀ text' other, Folder.parse url text' = .ok other → other.display = folder.display →
      other = folder) ∧
    ((segments folder.path).length = 1 ↔ parseSource url text = .error text) ∧
    ∀ source, parseSource url text = .ok source → parseSource url folder.display = .ok source ∧
      ∃ first, segments folder.path = first ++ [source.name.toList, source.version.toList] := by
  have hback := Folder.parse_display laws h
  obtain ⟨hne, hnames, hpath⟩ := Folder.path_eq h
  refine ⟨hback, fun text' other hother hdisplay => ?_, ?_, fun source hsource => ?_⟩
  · have hsame := Folder.parse_display laws hother
    rw [hdisplay, hback] at hsame
    exact (Except.ok.inj hsame).symm
  · have hlength := slash_mem_join hnames
    rw [← hpath] at hlength
    have hpos := List.length_pos_of_ne_nil hne
    simp only [parseSource, h, List.contains_iff_mem, hlength]
    by_cases htwo : 2 ≤ (segments folder.path).length
    · rw [if_pos htwo]
      exact ⟨fun hone => absurd hone (by omega), nofun⟩
    · rw [if_neg htwo]
      exact ⟨fun _ => rfl, fun _ => by omega⟩
  · have hlength := slash_mem_join hnames
    rw [← hpath] at hlength
    simp only [parseSource, h, List.contains_iff_mem, hlength] at hsource
    split at hsource
    · rename_i htwo
      refine ⟨?_, ?_⟩
      · simp only [parseSource, hback, List.contains_iff_mem, hlength, if_pos htwo]
        exact hsource
      · rw [← Except.ok.inj hsource]
        exact last_two hpath hnames htwo
    · cases hsource

/-- What two URLs of one folder are parsed to, and no other. -/
def twoUrls (text : List Char) : Option Url :=
  if text = "https://h/o/r/tree/main//deps/cuda/13/".toList then
    some ⟨"https".toList, some "h".toList, "https://h".toList,
      "/o/r/tree/main//deps/cuda/13/".toList, none, none⟩
  else if text = "https://h/o/r/tree/main/deps/cuda/13".toList then
    some ⟨"https".toList, some "h".toList, "https://h".toList,
      "/o/r/tree/main/deps/cuda/13".toList, none, none⟩
  else none

theorem folder_round_trip_twoUrls :
    let folder : Folder :=
      ⟨"https://h".toList, "o/r".toList, "main".toList, "deps/cuda/13".toList⟩
    folder.display = "https://h/o/r/tree/main/deps/cuda/13".toList ∧
      Folder.parse twoUrls folder.display = .ok folder := by
  have hlaws : UrlLaws twoUrls := by
    refine ⟨fun {text url} hurl _ => ?_⟩
    unfold twoUrls at hurl
    split at hurl
    · obtain rfl := Option.some.inj hurl
      decide
    · split at hurl
      · obtain rfl := Option.some.inj hurl
        decide
      · cases hurl
  have hparse : Folder.parse twoUrls "https://h/o/r/tree/main//deps/cuda/13/".toList =
      .ok ⟨"https://h".toList, "o/r".toList, "main".toList, "deps/cuda/13".toList⟩ := by
    decide
  exact ⟨by decide, (folder_round_trip hlaws hparse).1⟩

end Sources

end Ai

end RustSak
