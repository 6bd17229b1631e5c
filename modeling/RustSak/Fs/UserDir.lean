import RustSak.Fs.EntryName

/-!
# Configuration files

A configuration file lies below an application's directory, which lies below the
platform's. Where it lies is taken from the components of its path, at both
separators; the directory to create first from what Unix calls the parent of that
path, at slashes alone. Locations are lists of components from the file system's
root down.
-/

namespace RustSak

namespace Fs

open Library

/-- A path the caller gives: text, or something that is none, which is kept as it
is shown in an error. -/
inductive OsPath where
  | text (path : Name)
  | other (lossy : Name)

inductive UserDirError where
  | emptyName
  | fs (err : FsError)
  deriving DecidableEq

/-- The directory created with all that is missing above it, and the file that is
then opened or created, with the modes of what is new. -/
structure ConfigFile where
  dir : List Name
  dirMode : UInt32
  file : List Name
  fileMode : UInt32
  deriving DecidableEq

def configDirMode : UInt32 := 0o700

def fileMode : UInt32 := 0o600

/-- What becomes of a path's text. -/
def pathComponents : OsPath → FsResult (List Name)
  | .text path => validateEntryName path
  | .other lossy => .error (.illegalPath lossy "is not valid UTF-8")

/-- Joins `root`, `name` and `subPath` after validating the latter two. -/
def userPath (root : List Name) (name : Name) (subPath : OsPath) :
    Except UserDirError (List Name) :=
  match validateEntryName name with
  | .error err => .error (.fs err)
  | .ok [] => .error .emptyName
  | .ok nameComponents =>
      match pathComponents subPath with
      | .error err => .error (.fs err)
      | .ok components => .ok (root ++ nameComponents ++ components)

/-- A piece between slashes that names nothing by itself. -/
def isTrivial (piece : Name) : Bool := decide (piece = [] ∨ piece = dot)

/-- `Path::parent` on Unix: what is left without the last component, and without
the slashes and dots before it. -/
def parent (path : Name) : Option Name :=
  let pieces := path.splitOnP isSlash
  let body := pieces.rdropWhile isTrivial
  if body = [] then
    if pieces.head? = some dot then some [] else none
  else
    let rest := body.dropLast.rdropWhile isTrivial
    some (if rest ≠ [] then ['/'].intercalate rest
      else if path.head? = some '/' then ['/']
      else if pieces.head? = some dot then dot
      else [])

def OsPath.parent : OsPath → OsPath
  | .text path => .text ((Fs.parent path).getD [])
  | .other lossy => .other ((Fs.parent lossy).getD [])

/-- What the file system is asked for. -/
def mkConfigFileAt (root : List Name) (name : Name) (filePath : OsPath) :
    Except UserDirError ConfigFile :=
  match userPath root name filePath with
  | .error err => .error err
  | .ok path =>
      -- A file path that names no file lands back on the application's directory.
      if path.dropLast = root then
        .error .emptyName
      else
        match userPath root name filePath.parent with
        | .error err => .error err
        | .ok dir => .ok ⟨dir, configDirMode, path, fileMode⟩

/-! ## Components at slashes and at both separators -/

/-- The components of a piece between slashes. -/
def inner (piece : Name) : List Name :=
  (piece.splitOnP isBackslash).filter isComponent

theorem components_eq_flatMap (path : Name) :
    (splitComponents path).filter isComponent =
      (path.splitOnP isSlash).flatMap inner := by
  rw [splitComponents, Text.splitOnP_or, List.filter_flatMap]
  rfl

theorem inner_of_trivial {piece : Name} (h : isTrivial piece = true) :
    inner piece = [] := by
  rw [isTrivial, decide_eq_true_eq] at h
  rcases h with rfl | rfl
  · decide
  · decide

/-- Trivial pieces at the end hold no components. -/
theorem flatMap_inner_rdropWhile (pieces : List Name) :
    (pieces.rdropWhile isTrivial).flatMap inner = pieces.flatMap inner := by
  induction pieces using List.reverseRecOn with
  | nil => rfl
  | append_singleton pieces piece ih =>
      cases h : isTrivial piece with
      | true =>
          rw [List.rdropWhile_concat_pos _ _ _ (by simpa using h), ih, List.flatMap_append]
          simp [inner_of_trivial h]
      | false => rw [List.rdropWhile_concat_neg _ _ _ (by simp [h])]

theorem components_intercalate {pieces : List Name} (hne : pieces ≠ [])
    (h : ∀ piece ∈ pieces, ∀ x ∈ piece, isSlash x = false) :
    (splitComponents (['/'].intercalate pieces)).filter isComponent =
      pieces.flatMap inner := by
  rw [components_eq_flatMap, Text.splitOnP_intercalate rfl hne h]

/-- What is safe stays safe when it is cut short. -/
theorem unsafePrefix_of_append {path tail : Name}
    (h : unsafePrefix (path ++ tail) = none) : unsafePrefix path = none := by
  rw [unsafePrefix_eq_none_iff] at h ⊢
  obtain ⟨hnul, hhead, hdrive⟩ := h
  refine ⟨fun hmem => hnul (List.mem_append_left tail hmem), fun x hx => ?_, ?_⟩
  · exact hhead x (by
      rw [List.head?_append_of_ne_nil _ (by rintro rfl; cases hx)]
      exact hx)
  · unfold startsWithDrive
    split
    · exact hdrive
    · rfl

/-- The pieces between slashes, put together again from the first few on, begin
the path. -/
theorem intercalate_start {rest tail : List Name} (hne : rest ≠ []) :
    ['/'].intercalate rest <+: ['/'].intercalate (rest ++ tail) := by
  induction rest with
  | nil => exact absurd rfl hne
  | cons piece rest ih =>
      cases rest with
      | nil =>
          cases tail with
          | nil => exact List.prefix_rfl
          | cons next tail =>
              rw [List.singleton_append, List.intercalate_singleton,
                List.intercalate_cons_cons, List.append_assoc]
              exact List.prefix_append piece _
      | cons next rest =>
          rw [List.cons_append, List.cons_append, List.intercalate_cons_cons,
            List.intercalate_cons_cons]
          exact (List.prefix_append_right_inj _).mpr (ih (List.cons_ne_nil next rest))

theorem intercalate_splitOnP_isSlash (path : Name) :
    ['/'].intercalate (path.splitOnP isSlash) = path :=
  List.intercalate_splitOn '/'

/-! ## The parent of a path -/

/-- The last piece of a path between slashes that is not trivial. -/
def lastPiece (path : Name) : Option Name :=
  ((path.splitOnP isSlash).rdropWhile isTrivial).getLast?

/-- The parent of a safe path that names something is safe, and has its components
without those of its last piece. -/
theorem parent_spec {path : Name} (hsafe : unsafePrefix path = none)
    (hne : (splitComponents path).filter isComponent ≠ []) :
    ∃ piece dir, lastPiece path = some piece ∧ parent path = some dir ∧
      unsafePrefix dir = none ∧
      (splitComponents path).filter isComponent =
        (splitComponents dir).filter isComponent ++ inner piece := by
  have hcomponents := components_eq_flatMap path
  rw [← flatMap_inner_rdropWhile] at hcomponents
  rw [hcomponents] at hne ⊢
  unfold lastPiece parent
  dsimp only
  generalize hbody : (path.splitOnP isSlash).rdropWhile isTrivial = body at hne ⊢
  have hsub : body <+: path.splitOnP isSlash := hbody ▸ List.rdropWhile_prefix _ _
  rcases List.eq_nil_or_concat body with rfl | ⟨front, piece, rfl⟩
  · exact absurd rfl hne
  · rw [List.concat_eq_append] at *
    have hfront : front <+: path.splitOnP isSlash :=
      (List.prefix_append front [piece]).trans hsub
    rw [if_neg (by simp), List.dropLast_concat, List.getLast?_concat]
    refine ⟨piece, _, rfl, rfl, ?_⟩
    rw [List.flatMap_append, List.flatMap_singleton,
      ← flatMap_inner_rdropWhile front]
    have hrest : front.rdropWhile isTrivial <+: path.splitOnP isSlash :=
      (List.rdropWhile_prefix _ _).trans hfront
    generalize front.rdropWhile isTrivial = rest at hrest
    by_cases hnil : rest = []
    · subst hnil
      have hroot : ¬ path.head? = some '/' := fun h =>
        absurd ((unsafePrefix_eq_none_iff.mp hsafe).2.1 '/' h).1 (by decide)
      rw [if_neg (by simp), if_neg hroot]
      split
      · exact ⟨by decide, rfl⟩
      · exact ⟨by decide, rfl⟩
    · rw [if_pos hnil]
      obtain ⟨tail, htail⟩ := hrest
      obtain ⟨more, hmore⟩ := @intercalate_start rest tail hnil
      rw [htail, intercalate_splitOnP_isSlash] at hmore
      refine ⟨unsafePrefix_of_append (hmore ▸ hsafe), ?_⟩
      rw [components_intercalate hnil]
      exact fun q hq => Text.not_sep_of_mem_splitOnP
        (htail ▸ List.mem_append_left tail hq)

/-! ## The file and the directory -/

/-- Whether the path names anything. What is no text has a piece that is neither
empty nor a dot. -/
def OsPath.namesSome : OsPath → Bool
  | .text path => (firstComponent path).isSome
  | .other _ => true

/-- Exactly the names that say nothing are refused as empty, and the directory
that is created is the one the file is opened in. -/
def OpensInCreated (root : List Name) (name : Name) (filePath : OsPath) : Prop :=
  (mkConfigFileAt root name filePath = .error .emptyName ↔
      firstComponent name = none ∨ filePath.namesSome = false) ∧
    ∀ c, mkConfigFileAt root name filePath = .ok c → c.dir = c.file.dropLast

/-- The inputs that are handled as meant: nothing without a component is refused
as illegal, a file path without one comes with a name of one component, and no
backslash splits the last piece of a file path. -/
structure NamesOneFile (name : Name) (filePath : OsPath) : Prop where
  name_legal : firstComponent name = none → ∃ cs, validateEntryName name = .ok cs
  name_single : firstComponent name ≠ none → filePath.namesSome = false →
    ∃ c cs, validateEntryName name = .ok [c] ∧ pathComponents filePath = .ok cs
  last_single : ∀ path piece c cs d ds, filePath = .text path →
    validateEntryName name = .ok (c :: cs) → validateEntryName path = .ok (d :: ds) →
    lastPiece path = some piece → (inner piece).length = 1

theorem userPath_of_ok {root : List Name} {name : Name} {subPath : OsPath} {c : Name}
    {cs components : List Name} (hname : validateEntryName name = .ok (c :: cs))
    (hsub : pathComponents subPath = .ok components) :
    userPath root name subPath = .ok (root ++ (c :: cs) ++ components) := by
  unfold userPath
  rw [hname]
  simp only [hsub]

theorem userPath_of_refused {root : List Name} {name : Name} {subPath : OsPath}
    {c : Name} {cs : List Name} {err : FsError}
    (hname : validateEntryName name = .ok (c :: cs))
    (hsub : pathComponents subPath = .error err) :
    userPath root name subPath = .error (.fs err) := by
  unfold userPath
  rw [hname]
  simp only [hsub]

theorem userPath_ne_emptyName {root : List Name} {name : Name} {c : Name}
    {cs : List Name} (hname : validateEntryName name = .ok (c :: cs))
    (subPath : OsPath) : userPath root name subPath ≠ .error .emptyName := by
  cases hsub : pathComponents subPath with
  | error err =>
      rw [userPath_of_refused hname hsub]
      simp
  | ok components =>
      rw [userPath_of_ok hname hsub]
      simp

/-- The parent of an accepted path is accepted, as the components before those of
the last piece. -/
theorem pathComponents_parent {path : Name} {components : List Name}
    (h : validateEntryName path = .ok components) (hne : components ≠ []) :
    ∃ piece front, lastPiece path = some piece ∧
      pathComponents (OsPath.text path).parent = .ok front ∧
      components = front ++ inner piece := by
  obtain ⟨hsafe, rfl, hfine⟩ := validateEntryName_eq_ok_iff.mp h
  obtain ⟨piece, dir, hlast, hparent, hdir, hsplit⟩ := parent_spec hsafe hne
  refine ⟨piece, _, hlast, ?_, hsplit⟩
  change validateEntryName ((parent path).getD []) = _
  rw [hparent, Option.getD_some]
  refine validateEntryName_eq_ok_iff.mpr ⟨hdir, rfl, fun d hd => hfine d ?_⟩
  rw [hsplit]
  exact List.mem_append_left _ hd

theorem length_of_dropLast_append {α : Type} {front back : List α}
    (hne : front ++ back ≠ []) : front = (front ++ back).dropLast ↔ back.length = 1 := by
  constructor
  · intro h
    have hlen := congrArg List.length h
    rw [List.length_dropLast, List.length_append] at hlen
    have hpos := List.length_pos_iff.mpr hne
    rw [List.length_append] at hpos
    omega
  · intro h
    obtain ⟨x, rfl⟩ := List.length_eq_one_iff.mp h
    rw [List.dropLast_concat]

theorem opens_in_created_of_refused {name : Name} {err : FsError}
    (hname : validateEntryName name = .error err) (root : List Name)
    (filePath : OsPath) :
    OpensInCreated root name filePath ↔ NamesOneFile name filePath := by
  have hnot : ∀ cs, validateEntryName name ≠ .ok cs := by
    intro cs h
    rw [hname] at h
    cases h
  have hresult : mkConfigFileAt root name filePath = .error (.fs err) := by
    unfold mkConfigFileAt userPath
    rw [hname]
  unfold OpensInCreated
  rw [hresult]
  constructor
  · rintro ⟨hempty, _⟩
    have hno := mt hempty.mpr (by simp)
    rw [not_or] at hno
    exact ⟨fun h => absurd h hno.1, fun _ h => absurd h hno.2,
      fun path piece c cs d ds _ h => absurd h (hnot _)⟩
  · intro hnames
    have hsome : firstComponent name ≠ none := by
      intro h
      obtain ⟨cs, hcs⟩ := hnames.name_legal h
      exact hnot cs hcs
    refine ⟨⟨nofun, ?_⟩, nofun⟩
    rintro (h | h)
    · exact absurd h hsome
    · obtain ⟨c, cs, hc, _⟩ := hnames.name_single hsome h
      exact absurd hc (hnot [c])

theorem opens_in_created_of_empty {name : Name} (hname : validateEntryName name = .ok [])
    (root : List Name) (filePath : OsPath) :
    OpensInCreated root name filePath ↔ NamesOneFile name filePath := by
  have hfirst : firstComponent name = none := firstComponent_of_accepted hname
  have hresult : mkConfigFileAt root name filePath = .error .emptyName := by
    unfold mkConfigFileAt userPath
    rw [hname]
  unfold OpensInCreated
  rw [hresult]
  constructor
  · intro _
    refine ⟨fun _ => ⟨[], hname⟩, fun h => absurd hfirst h, ?_⟩
    intro path piece c cs d ds _ h
    rw [hname] at h
    cases h
  · intro _
    exact ⟨⟨fun _ => .inl hfirst, fun _ => rfl⟩, nofun⟩

section

variable {name n : Name} {ns : List Name}
  (hname : validateEntryName name = .ok (n :: ns)) (root : List Name)
include hname

omit root in
theorem firstComponent_ne_none : firstComponent name ≠ none := by
  rw [firstComponent_of_accepted hname]
  exact Option.some_ne_none n

theorem opens_in_created_of_refused_file {filePath : OsPath} {err : FsError}
    (hfile : pathComponents filePath = .error err) :
    OpensInCreated root name filePath ↔ NamesOneFile name filePath := by
  have hfirst := firstComponent_ne_none hname
  have hresult : mkConfigFileAt root name filePath = .error (.fs err) := by
    rw [mkConfigFileAt, userPath_of_refused hname hfile]
  unfold OpensInCreated
  rw [hresult]
  constructor
  · rintro ⟨hempty, _⟩
    have hno := mt hempty.mpr (by simp)
    rw [not_or] at hno
    refine ⟨fun h => absurd h hfirst, fun _ h => absurd h hno.2, ?_⟩
    rintro path piece c cs d ds rfl _ hpath _
    rw [pathComponents, hpath] at hfile
    cases hfile
  · intro hnames
    refine ⟨⟨nofun, ?_⟩, nofun⟩
    rintro (h | h)
    · exact absurd h hfirst
    · obtain ⟨c, cs, _, hcs⟩ := hnames.name_single hfirst h
      rw [hfile] at hcs
      cases hcs

/-- A file path that names nothing comes to the application's directory, which is
refused only where it lies directly below the root. -/
theorem opens_in_created_of_no_file {path : Name} (hpath : validateEntryName path = .ok []) :
    OpensInCreated root name (.text path) ↔ NamesOneFile name (.text path) := by
  have hfirst := firstComponent_ne_none hname
  have hnone : (OsPath.text path).namesSome = false := by
    rw [OsPath.namesSome, firstComponent_of_accepted hpath]
    rfl
  have huser := @userPath_of_ok root name (.text path) n ns [] hname hpath
  rw [List.append_nil] at huser
  cases ns with
  | nil =>
      have hresult : mkConfigFileAt root name (.text path) = .error .emptyName := by
        rw [mkConfigFileAt, huser]
        simp
      unfold OpensInCreated
      rw [hresult]
      constructor
      · intro _
        refine ⟨fun h => absurd h hfirst, fun _ _ => ⟨n, [], hname, hpath⟩, ?_⟩
        intro path' piece c cs d ds heq _ h _
        cases heq
        rw [hpath] at h
        cases h
      · intro _
        exact ⟨⟨fun _ => .inr hnone, fun _ => rfl⟩, nofun⟩
  | cons m ms =>
      have hroot : ¬ (root ++ n :: m :: ms).dropLast = root := by
        rw [eq_comm, length_of_dropLast_append (by simp)]
        simp
      have hresult : mkConfigFileAt root name (.text path) ≠ .error .emptyName := by
        have hne := @userPath_ne_emptyName root name n (m :: ms) hname
          (OsPath.text path).parent
        rw [mkConfigFileAt, huser]
        dsimp only
        rw [if_neg hroot]
        cases hdir : userPath root name (OsPath.text path).parent with
        | error err =>
            rw [hdir] at hne
            intro h
            cases h
            exact hne rfl
        | ok dir => simp
      constructor
      · rintro ⟨hempty, _⟩
        exact absurd (hempty.mpr (.inr hnone)) hresult
      · intro hnames
        obtain ⟨c, cs, hc, _⟩ := hnames.name_single hfirst hnone
        rw [hname] at hc
        cases hc

/-- A file is opened in the directory that was created for it when its last piece
is one component. -/
theorem opens_in_created_of_file {path d : Name} {ds : List Name}
    (hpath : validateEntryName path = .ok (d :: ds)) :
    OpensInCreated root name (.text path) ↔ NamesOneFile name (.text path) := by
  have hfirst := firstComponent_ne_none hname
  have hsome : (OsPath.text path).namesSome = true := by
    rw [OsPath.namesSome, firstComponent_of_accepted hpath]
    rfl
  obtain ⟨piece, front, hlast, hparent, hsplit⟩ :=
    pathComponents_parent hpath (List.cons_ne_nil d ds)
  have hne : front ++ inner piece ≠ [] := hsplit ▸ List.cons_ne_nil d ds
  have hroot : ¬ (root ++ (n :: ns) ++ (d :: ds)).dropLast = root := by
    rw [List.append_assoc, eq_comm, length_of_dropLast_append (by simp)]
    simp
  have hresult : mkConfigFileAt root name (.text path) =
      .ok ⟨root ++ (n :: ns) ++ front, configDirMode, root ++ (n :: ns) ++ (d :: ds),
        fileMode⟩ := by
    rw [mkConfigFileAt, @userPath_of_ok root name (.text path) n ns _ hname hpath]
    dsimp only
    rw [if_neg hroot, userPath_of_ok hname hparent]
  have hdrop : (root ++ (n :: ns) ++ (d :: ds)).dropLast =
      root ++ (n :: ns) ++ (d :: ds).dropLast :=
    List.dropLast_append_of_ne_nil (List.cons_ne_nil d ds)
  unfold OpensInCreated
  rw [hresult]
  constructor
  · rintro ⟨_, hopens⟩
    refine ⟨fun h => absurd h hfirst, fun _ h => ?_, ?_⟩
    · rw [hsome] at h
      cases h
    · intro path' piece' c cs d' ds' heq _ _ hlast'
      cases heq
      rw [hlast] at hlast'
      cases hlast'
      have hdir := hopens _ rfl
      dsimp only at hdir
      rw [hdrop, hsplit] at hdir
      exact (length_of_dropLast_append hne).mp (List.append_cancel_left hdir)
  · intro hnames
    refine ⟨⟨nofun, ?_⟩, ?_⟩
    · rintro (h | h)
      · exact absurd h hfirst
      · rw [hsome] at h
        cases h
    · rintro c hc
      cases hc
      have hone := hnames.last_single path piece n ns d ds rfl hname hpath hlast
      dsimp only
      rw [hdrop, hsplit, ← (length_of_dropLast_append hne).mpr hone]

theorem opens_in_created_of_named (filePath : OsPath) :
    OpensInCreated root name filePath ↔ NamesOneFile name filePath := by
  cases hfile : pathComponents filePath with
  | error err => exact opens_in_created_of_refused_file hname root hfile
  | ok components =>
      cases filePath with
      | other lossy => cases hfile
      | text path =>
          cases components with
          | nil => exact opens_in_created_of_no_file hname root hfile
          | cons d ds => exact opens_in_created_of_file hname root hfile

end

/-- A configuration file is refused as empty exactly when it should be, and opened
in the directory created for it, exactly for the inputs that are handled as
meant. -/
theorem opens_in_created_iff (root : List Name) (name : Name) (filePath : OsPath) :
    OpensInCreated root name filePath ↔ NamesOneFile name filePath := by
  cases hname : validateEntryName name with
  | error err => exact opens_in_created_of_refused hname root filePath
  | ok nameComponents =>
      cases nameComponents with
      | nil => exact opens_in_created_of_empty hname root filePath
      | cons n ns => exact opens_in_created_of_named hname root filePath

/-- `a/b` with an empty file path comes to the directory `a/b` itself, which is
created and then opened as the file; and `x\y` is opened in `app/x`, with only
`app` created. -/
theorem not_opens_in_created :
    ¬ OpensInCreated [] "a/b".toList (.text []) ∧
      ¬ OpensInCreated [] "app".toList (.text "x\\y".toList) := by
  refine ⟨fun h => ?_, fun h => ?_⟩
  · have hno : mkConfigFileAt [] "a/b".toList (.text []) ≠ .error .emptyName := by
      decide +kernel
    exact hno (h.1.mpr (.inr rfl))
  · have hok : mkConfigFileAt [] "app".toList (.text "x\\y".toList) =
        .ok ⟨["app".toList], configDirMode, ["app".toList, ['x'], ['y']], fileMode⟩ := by
      decide +kernel
    exact absurd (h.2 _ hok) (by decide +kernel)

end Fs

end RustSak
