import RustSak.Library.Text

/-!
# Safe paths

What an archive may name: an entry's name is split into components that cannot
climb, a link's target is walked with the depth that is left. Both checks treat
`/` and `\` as separators on every platform. Names are lists of characters.
-/

namespace RustSak

namespace Fs

open Library

abbrev Name := List Char

/-- Which ceiling an extraction ran into. -/
inductive Limit where
  | totalBytes
  | fileBytes
  | entries
  deriving DecidableEq

/-- The errors of an extraction. What the file system reported is not kept. -/
inductive FsError where
  | io
  | illegalPath (path : Name) (reason : String)
  | illegalSymlink (link target : Name)
  | declaredSizeMismatch (entry : Name) (declared : UInt64)
  | limitExceeded (limit : Limit) (allowed : UInt64)
  deriving DecidableEq

abbrev FsResult (α : Type) := Except FsError α

def isSlash (c : Char) : Bool := c == '/'

def isBackslash (c : Char) : Bool := c == '\\'

/-- A name is split at both separators, whatever the platform. -/
def splitComponents (name : Name) : List Name :=
  name.splitOnP fun c => isSlash c || isBackslash c

def dot : Name := ['.']

def dotDot : Name := ['.', '.']

/-- Why a path cannot be trusted as a relative one, by how it starts. -/
def unsafePrefix (path : Name) : Option String :=
  if path.contains (Char.ofNat 0) then
    some "contains an embedded NUL byte"
  else
    match path with
    | '/' :: _ => some "is an absolute path"
    | '\\' :: _ => some "is an absolute path"
    | letter :: ':' :: _ =>
        if letter.isAlpha then some "starts with a Windows drive letter" else none
    | _ => none

def reservedStems : List Name :=
  ["CON", "PRN", "AUX", "NUL", "CLOCK$", "COM1", "COM2", "COM3", "COM4", "COM5",
    "COM6", "COM7", "COM8", "COM9", "COM¹", "COM²", "COM³", "LPT1", "LPT2", "LPT3",
    "LPT4", "LPT5", "LPT6", "LPT7", "LPT8", "LPT9", "LPT¹", "LPT²", "LPT³"].map
      String.toList

/-- Windows matches its devices on what stands before the first dot. -/
def isReservedDeviceName (component : Name) : Bool :=
  let stem := Text.trimEnd (component.takeWhile (· != '.'))
  reservedStems.any fun reserved => Text.eqIgnoreAsciiCase stem reserved

/-- The components of `name` that are left, up to the first one refused. -/
def keepComponents (name : Name) : List Name → FsResult (List Name)
  | [] => .ok []
  | component :: rest =>
      if component = [] ∨ component = dot then
        keepComponents name rest
      else if component = dotDot then
        .error (.illegalPath name "contains a `..` component")
      else if isReservedDeviceName component then
        .error (.illegalPath name "contains a reserved Windows device name")
      else
        (keepComponents name rest).map fun components => component :: components

/-- Splits an entry's name into its components. A name of the root itself has
none. -/
def validateEntryName (name : Name) : FsResult (List Name) :=
  match unsafePrefix name with
  | some reason => .error (.illegalPath name reason)
  | none => keepComponents name (splitComponents name)

/-- Whether a target may be walked from `depth` levels below the root: it climbs
before it names anything, and not above the root. -/
def climbsWithin : ℕ → Bool → List Name → Bool
  | _, _, [] => true
  | depth, descended, component :: rest =>
      if component = [] ∨ component = dot then
        climbsWithin depth descended rest
      else if component = dotDot then
        if descended then
          false
        else
          match depth with
          | 0 => false
          | depth + 1 => climbsWithin depth descended rest
      else
        climbsWithin depth true rest

/-- A link resolves from the directory that holds it, one level above its own
name. -/
def validateSymlinkTarget (linkComponents : List Name) (target : Name) :
    FsResult Unit :=
  if target = [] ∨ (unsafePrefix target).isSome = true then
    .error (.illegalSymlink (['/'].intercalate linkComponents) target)
  else if climbsWithin (linkComponents.length - 1) false (splitComponents target)
      then
    .ok ()
  else
    .error (.illegalSymlink (['/'].intercalate linkComponents) target)

section KeepComponents

variable {name component : Name} {rest components : List Name}

theorem keepComponents_skipped (h : component = [] ∨ component = dot) :
    keepComponents name (component :: rest) = keepComponents name rest := by
  rw [keepComponents, if_pos h]

/-- A piece that names something is kept, unless it is one of those refused. -/
theorem keepComponents_cons_eq_ok_iff (hreal : ¬ (component = [] ∨ component = dot)) :
    keepComponents name (component :: rest) = .ok components ↔
      component ≠ dotDot ∧ isReservedDeviceName component = false ∧
        ∃ kept, keepComponents name rest = .ok kept ∧ components = component :: kept := by
  rw [keepComponents, if_neg hreal]
  by_cases hup : component = dotDot
  · rw [if_pos hup]
    exact ⟨nofun, fun h => absurd hup h.1⟩
  · rw [if_neg hup]
    cases hres : isReservedDeviceName component with
    | true =>
        rw [if_pos rfl]
        exact ⟨nofun, fun h => absurd h.2.1 (by decide)⟩
    | false =>
        rw [if_neg Bool.false_ne_true]
        cases hk : keepComponents name rest with
        | error err =>
            refine ⟨nofun, ?_⟩
            rintro ⟨_, _, _, hkept, _⟩
            cases hkept
        | ok kept =>
            constructor
            · intro h
              cases h
              exact ⟨hup, rfl, kept, rfl, rfl⟩
            · rintro ⟨_, _, kept', hkept, rfl⟩
              cases hkept
              rfl

end KeepComponents

/-- What is kept of a name are some of the pieces it was split into, none of
them a dot. -/
theorem mem_of_keepComponents {name : Name} {pieces components : List Name}
    (h : keepComponents name pieces = .ok components) :
    ∀ c ∈ components, c ∈ pieces ∧ c ≠ [] ∧ c ≠ dot ∧ c ≠ dotDot ∧
      isReservedDeviceName c = false := by
  induction pieces generalizing components with
  | nil =>
      cases h
      simp
  | cons piece pieces ih =>
      intro c hc
      by_cases hskip : piece = [] ∨ piece = dot
      · rw [keepComponents_skipped hskip] at h
        obtain ⟨hmem, hrest⟩ := ih h c hc
        exact ⟨List.mem_cons_of_mem _ hmem, hrest⟩
      · obtain ⟨hup, hres, kept, hk, rfl⟩ := (keepComponents_cons_eq_ok_iff hskip).mp h
        rcases List.mem_cons.mp hc with rfl | hc
        · rw [not_or] at hskip
          exact ⟨List.mem_cons_self, hskip.1, hskip.2, hup, hres⟩
        · obtain ⟨hmem, hrest⟩ := ih hk c hc
          exact ⟨List.mem_cons_of_mem _ hmem, hrest⟩

/-- The components of an accepted name are plain names. -/
theorem plain_of_validateEntryName {name : Name} {components : List Name}
    (h : validateEntryName name = .ok components) :
    ∀ c ∈ components, c ≠ [] ∧ c ≠ dot ∧ c ≠ dotDot ∧
      ∀ x ∈ c, isSlash x = false ∧ isBackslash x = false := by
  unfold validateEntryName at h
  split at h
  · cases h
  · intro c hc
    obtain ⟨hmem, hne, hdot, hup, _⟩ := mem_of_keepComponents h c hc
    refine ⟨hne, hdot, hup, fun x hx => ?_⟩
    have hsep := Text.not_sep_of_mem_splitOnP hmem x hx
    rwa [Bool.or_eq_false_iff] at hsep

theorem climbsWithin_of_accepted {linkComponents : List Name} {target : Name}
    (h : validateSymlinkTarget linkComponents target = .ok ()) :
    climbsWithin (linkComponents.length - 1) false (splitComponents target) =
      true := by
  unfold validateSymlinkTarget at h
  split at h
  · cases h
  · split at h
    · assumption
    · cases h

/-- An accepted target does not start at the root. -/
theorem not_absolute_of_accepted {linkComponents : List Name} {target : Name}
    (h : validateSymlinkTarget linkComponents target = .ok ()) :
    ∃ c cs, target = c :: cs ∧ c ≠ '/' := by
  unfold validateSymlinkTarget at h
  split at h
  · cases h
  · rename_i hno
    rw [not_or] at hno
    obtain ⟨c, cs, rfl⟩ := List.exists_cons_of_ne_nil hno.1
    refine ⟨c, cs, rfl, ?_⟩
    rintro rfl
    refine hno.2 ?_
    unfold unsafePrefix
    split
    · rfl
    · rfl

end Fs

end RustSak
