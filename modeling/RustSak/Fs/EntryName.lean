import RustSak.Fs.SafePath
import Mathlib.Data.List.Infix

/-!
# Names and the paths they come to

An accepted name is created under its components, joined with `/`. That path is
a name too, and whether it is accepted again comes down to its start: what is
dropped in front of the first component no longer hides how that one begins.
-/

namespace RustSak

namespace Fs

open Library

/-- The path an entry's components are created under. -/
def joined (components : List Name) : Name := ['/'].intercalate components

/-- Whether a piece of a name is one of its components: empty pieces and dots are
dropped. -/
def isComponent (piece : Name) : Bool := !(decide (piece = [] ∨ piece = dot))

/-- What a name says first, past empty pieces and dots. -/
def firstComponent (name : Name) : Option Name :=
  (splitComponents name).find? isComponent

/-- An ASCII letter and a colon, which Windows takes for a drive. -/
def startsWithDrive : Name → Bool
  | letter :: ':' :: _ => letter.isAlpha
  | _ => false

/-- A component that is a plain name on every platform. -/
structure IsPlain (component : Name) : Prop where
  ne_nil : component ≠ []
  ne_dot : component ≠ dot
  ne_dotDot : component ≠ dotDot
  not_reserved : isReservedDeviceName component = false
  no_sep : ∀ x ∈ component, isSlash x = false ∧ isBackslash x = false
  no_nul : Char.ofNat 0 ∉ component

/-- The components are plain, and their own path is accepted as them. -/
def IsStable (components : List Name) : Prop :=
  (∀ c ∈ components, IsPlain c) ∧
    (components ≠ [] → validateEntryName (joined components) = .ok components)

/-! ## What the components are -/

/-- A path is safe to take as a relative one when it holds no zero byte and
begins neither at a separator nor as a drive. -/
theorem unsafePrefix_eq_none_iff {path : Name} :
    unsafePrefix path = none ↔ Char.ofNat 0 ∉ path ∧
      (∀ x ∈ path.head?, isSlash x = false ∧ isBackslash x = false) ∧
        startsWithDrive path = false := by
  unfold unsafePrefix
  by_cases hnul : Char.ofNat 0 ∈ path
  · rw [if_pos (List.contains_iff_mem.mpr hnul)]
    exact ⟨nofun, fun h => absurd hnul h.1⟩
  · rw [if_neg (mt List.contains_iff_mem.mp hnul)]
    split
    · exact ⟨nofun, fun h => absurd (h.2.1 '/' rfl).1 (by decide)⟩
    · exact ⟨nofun, fun h => absurd (h.2.1 '\\' rfl).2 (by decide)⟩
    · rename_i letter rest hslash hback
      have hsep : ∀ x ∈ (letter :: ':' :: rest).head?,
          isSlash x = false ∧ isBackslash x = false := by
        intro x hx
        cases hx
        exact ⟨beq_eq_false_iff_ne.mpr hslash, beq_eq_false_iff_ne.mpr hback⟩
      have hdrive : startsWithDrive (letter :: ':' :: rest) = letter.isAlpha := rfl
      rw [hdrive]
      split
      · rename_i halpha
        exact ⟨nofun, fun h => absurd halpha (by rw [h.2.2]; exact Bool.false_ne_true)⟩
      · rename_i halpha
        exact ⟨fun _ => ⟨hnul, hsep, Bool.not_eq_true _ ▸ halpha⟩, fun _ => rfl⟩
    · rename_i hslash hback hcolon
      have hdrive : startsWithDrive path = false := by
        unfold startsWithDrive
        split
        · rename_i letter rest
          exact absurd rfl (hcolon letter rest)
        · rfl
      refine ⟨fun _ => ⟨hnul, fun x hx => ?_, hdrive⟩, fun _ => rfl⟩
      obtain ⟨rest, rfl⟩ : ∃ rest, path = x :: rest := by
        cases path with
        | nil => cases hx
        | cons y rest =>
            cases hx
            exact ⟨rest, rfl⟩
      refine ⟨beq_eq_false_iff_ne.mpr ?_, beq_eq_false_iff_ne.mpr ?_⟩
      · rintro rfl
        exact hslash rest rfl
      · rintro rfl
        exact hback rest rfl

theorem unsafePrefix_of_accepted {name : Name} {components : List Name}
    (h : validateEntryName name = .ok components) : unsafePrefix name = none := by
  unfold validateEntryName at h
  split at h
  · cases h
  · assumption

/-- What is kept are all components, if none of them is refused. -/
theorem keepComponents_eq_ok_iff {name : Name} {pieces components : List Name} :
    keepComponents name pieces = .ok components ↔
      components = pieces.filter isComponent ∧
        ∀ c ∈ components, c ≠ dotDot ∧ isReservedDeviceName c = false := by
  induction pieces generalizing components with
  | nil =>
      unfold keepComponents
      rw [Except.ok.injEq, List.filter_nil]
      constructor
      · rintro rfl
        simp
      · exact fun h => h.1.symm
  | cons piece pieces ih =>
      by_cases hskip : piece = [] ∨ piece = dot
      · rw [keepComponents_skipped hskip,
          List.filter_cons_of_neg (by simp [isComponent, hskip])]
        exact ih
      · have hreal : isComponent piece = true := by simpa [isComponent] using hskip
        rw [keepComponents_cons_eq_ok_iff hskip, List.filter_cons_of_pos hreal]
        constructor
        · rintro ⟨hup, hres, kept, hk, rfl⟩
          obtain ⟨rfl, hkept⟩ := ih.mp hk
          exact ⟨rfl, List.forall_mem_cons.mpr ⟨⟨hup, hres⟩, hkept⟩⟩
        · rintro ⟨rfl, h⟩
          obtain ⟨⟨hup, hres⟩, hkept⟩ := List.forall_mem_cons.mp h
          exact ⟨hup, hres, _, ih.mpr ⟨rfl, hkept⟩, rfl⟩

/-- A name is accepted as all of its components, when nothing in it is unsafe. -/
theorem validateEntryName_eq_ok_iff {name : Name} {components : List Name} :
    validateEntryName name = .ok components ↔
      unsafePrefix name = none ∧
        components = (splitComponents name).filter isComponent ∧
          ∀ c ∈ components, c ≠ dotDot ∧ isReservedDeviceName c = false := by
  rw [← @keepComponents_eq_ok_iff name]
  constructor
  · intro h
    have hsafe := unsafePrefix_of_accepted h
    rw [validateEntryName, hsafe] at h
    exact ⟨hsafe, h⟩
  · rintro ⟨hsafe, h⟩
    rw [validateEntryName, hsafe]
    exact h

/-- The components of an accepted name are plain. -/
theorem isPlain_of_accepted {name : Name} {components : List Name}
    (h : validateEntryName name = .ok components) : ∀ c ∈ components, IsPlain c := by
  obtain ⟨hsafe, hcomponents, hfine⟩ := validateEntryName_eq_ok_iff.mp h
  intro c hc
  obtain ⟨hne, hdot, hup, hsep⟩ := plain_of_validateEntryName h c hc
  refine ⟨hne, hdot, hup, (hfine c hc).2, hsep, fun hnul => ?_⟩
  rw [hcomponents] at hc
  exact (unsafePrefix_eq_none_iff.mp hsafe).1
    (Text.mem_of_mem_splitOnP (List.mem_filter.mp hc).1 _ hnul)

theorem IsPlain.isComponent {c : Name} (h : IsPlain c) : isComponent c = true := by
  simp [Fs.isComponent, h.ne_nil, h.ne_dot]

theorem firstComponent_of_accepted {name : Name} {components : List Name}
    (h : validateEntryName name = .ok components) :
    firstComponent name = components.head? := by
  rw [(validateEntryName_eq_ok_iff.mp h).2.1, List.head?_filter]
  rfl

/-! ## The joined path -/

theorem splitComponents_joined {components : List Name} (hne : components ≠ [])
    (h : ∀ c ∈ components, IsPlain c) :
    splitComponents (joined components) = components := by
  refine Text.splitOnP_intercalate rfl hne fun c hc x hx => ?_
  obtain ⟨hslash, hback⟩ := (h c hc).no_sep x hx
  rw [hslash, hback]
  rfl

theorem no_nul_joined {components : List Name} (h : ∀ c ∈ components, IsPlain c) :
    Char.ofNat 0 ∉ joined components := by
  induction components with
  | nil => simp [joined]
  | cons c components ih =>
      have hc := (h c List.mem_cons_self).no_nul
      have hrest := ih fun d hd => h d (List.mem_cons_of_mem c hd)
      cases components with
      | nil => rwa [joined, List.intercalate_singleton]
      | cons d rest =>
          rw [joined, List.intercalate_cons_cons, List.mem_append, List.mem_append,
            not_or, not_or]
          exact ⟨⟨hc, by decide⟩, hrest⟩

/-- The path starts as its first component does: a slash never follows the
component's first letter within two characters unless the component ends. -/
theorem startsWithDrive_joined (c : Name) (rest : List Name) (hne : c ≠ []) :
    startsWithDrive (joined (c :: rest)) = startsWithDrive c := by
  obtain ⟨x, c, rfl⟩ := List.exists_cons_of_ne_nil hne
  cases rest with
  | nil => rw [joined, List.intercalate_singleton]
  | cons d rest =>
      rw [joined, List.intercalate_cons_cons, List.append_assoc]
      cases c with
      | nil => rfl
      | cons y c =>
          rw [List.cons_append, List.cons_append]
          by_cases hy : y = ':'
          · subst hy
            rfl
          · simp [startsWithDrive, hy]

theorem unsafePrefix_joined {c : Name} {rest : List Name}
    (h : ∀ d ∈ c :: rest, IsPlain d) :
    unsafePrefix (joined (c :: rest)) = none ↔ startsWithDrive c = false := by
  have hc := h c List.mem_cons_self
  have hhead : (joined (c :: rest)).head? = c.head? := by
    obtain ⟨x, xs, rfl⟩ := List.exists_cons_of_ne_nil hc.ne_nil
    cases rest with
    | nil => rw [joined, List.intercalate_singleton]
    | cons d rest => rw [joined, List.intercalate_cons_cons, List.append_assoc]; rfl
  rw [unsafePrefix_eq_none_iff, startsWithDrive_joined c rest hc.ne_nil, hhead]
  constructor
  · exact fun hsafe => hsafe.2.2
  · exact fun hdrive => ⟨no_nul_joined h,
      fun x hx => hc.no_sep x (List.mem_of_mem_head? hx), hdrive⟩

/-- An accepted name is stable exactly when its first component does not begin
as a drive: a leading `./` hides the drive from the check of the name, and is
dropped from the path. -/
theorem accepted_name_stable_iff {name : Name} {components : List Name}
    (h : validateEntryName name = .ok components) :
    IsStable components ↔
      ∀ c, firstComponent name = some c → startsWithDrive c = false := by
  have hplain := isPlain_of_accepted h
  rw [firstComponent_of_accepted h]
  cases components with
  | nil => simp [IsStable]
  | cons c rest =>
      have hsplit : (splitComponents (joined (c :: rest))).filter isComponent =
          c :: rest := by
        rw [splitComponents_joined (List.cons_ne_nil c rest) hplain, List.filter_eq_self]
        exact fun d hd => (hplain d hd).isComponent
      have hstart := unsafePrefix_joined hplain
      constructor
      · intro hstable d hd
        cases hd
        exact hstart.mp (unsafePrefix_of_accepted (hstable.2 (List.cons_ne_nil c rest)))
      · intro hdrive
        refine ⟨hplain, fun _ => ?_⟩
        exact validateEntryName_eq_ok_iff.mpr ⟨hstart.mpr (hdrive c rfl), hsplit.symm,
          fun d hd => ⟨(hplain d hd).ne_dotDot, (hplain d hd).not_reserved⟩⟩

/-- `a//./b` comes to `a/b`. -/
theorem accepted_name_stable_doubled :
    validateEntryName "a//./b".toList = .ok [['a'], ['b']] ∧
      IsStable [['a'], ['b']] := by
  have hok : validateEntryName "a//./b".toList = .ok [['a'], ['b']] := by
    decide +kernel
  refine ⟨hok, (accepted_name_stable_iff hok).mpr fun c hc => ?_⟩
  have hfirst : firstComponent "a//./b".toList = some ['a'] := by decide +kernel
  rw [hfirst] at hc
  cases hc
  rfl

/-- `./C:x` is accepted, and comes to `C:x`, which is not. -/
theorem not_accepted_name_stable :
    ¬ ∀ name components, validateEntryName name = .ok components →
      IsStable components := by
  intro h
  have hok : validateEntryName "./C:x".toList = .ok ["C:x".toList] := by
    decide +kernel
  have hno : validateEntryName (joined ["C:x".toList]) ≠ .ok ["C:x".toList] := by
    decide +kernel
  exact hno ((h _ _ hok).2 (List.cons_ne_nil _ _))

end Fs

end RustSak
