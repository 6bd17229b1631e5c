import RustSak.Fs.SafePath
import RustSak.Library.Machine
import Mathlib.Logic.Function.Basic

/-!
# A tree with links, and how a Unix kernel walks it

The tree below the extraction root, addressed by locations: paths of names
through real directories. The kernel splits at `/` only, takes a `..` from
where it really is, and goes on with a link's target in place of the link; the
walk is a machine, so nothing bounds how many links it follows.
-/

namespace RustSak

namespace Fs

open Library

/-- Where something really is, from the root down. -/
abbrev Location := List Name

inductive Node where
  | dir
  | file
  | link (target : Name)
  deriving DecidableEq

/-- What is at each location below the root. -/
abbrev Tree := Location → Option Node

namespace Tree

/-- The location is reached through real directories only, and is one. -/
def IsRealDir (t : Tree) (location : Location) : Prop :=
  ∀ p, p <+: location → p ≠ [] → t p = some .dir

def IsFileName (name : Name) : Prop :=
  name ≠ [] ∧ name ≠ dot ∧ name ≠ dotDot ∧ ∀ c ∈ name, isSlash c = false

end Tree

/-- What an extraction does to the tree. -/
inductive TreeEvent where
  | dir (parent : Location) (name : Name)
  | file (parent : Location) (name : Name)
  | link (entry : Name) (target : Name)
  | remove (location : Location)

/-- The location a new node may be put at: below a real directory, where there
is nothing yet. -/
def Tree.Vacant (t : Tree) (location : Location) : Prop :=
  location ≠ [] ∧ t.IsRealDir location.dropLast ∧ t location = none

/-- An extraction may create directories and files wherever a real directory
is, a file also over a file; a link only as `validateEntryName` and
`validateSymlinkTarget` accept it, along real directories; and it may remove
what is no directory. -/
inductive Tree.Step (t : Tree) : TreeEvent → Tree → Prop where
  | dir {parent : Location} {name : Name} (hname : Tree.IsFileName name)
      (hv : t.Vacant (parent ++ [name])) :
      Step t (.dir parent name) (Function.update t (parent ++ [name]) (some .dir))
  | file {parent : Location} {name : Name} (hname : Tree.IsFileName name)
      (hv : t.Vacant (parent ++ [name]) ∨ t (parent ++ [name]) = some .file) :
      Step t (.file parent name) (Function.update t (parent ++ [name]) (some .file))
  | link {entry target : Name} {components : List Name}
      (hname : validateEntryName entry = .ok components)
      (htarget : validateSymlinkTarget components target = .ok ())
      (hv : t.Vacant components) :
      Step t (.link entry target) (Function.update t components (some (.link target)))
  | remove {location : Location} (hno : t location ≠ some .dir) :
      Step t (.remove location) (Function.update t location none)

/-- The trees an extraction passes through, from any tree without links. -/
def extraction : Machine Tree TreeEvent where
  init t := ∀ location target, t location ≠ some (.link target)
  step t e t' := t.Step e t'

/-- A walk: where it is, `none` once it has left the root, and the components
that are left. -/
structure Walk where
  at' : Option Location
  rest : List Name
  deriving DecidableEq

/-- One component of a walk. There is no next step at the end, where nothing is
found, and at a file that more is asked of. -/
def Walk.next (t : Tree) (w : Walk) (_ : Unit) : Option Walk :=
  match w.at', w.rest with
  | some here, component :: rest =>
      if component = [] ∨ component = dot then
        some ⟨some here, rest⟩
      else if component = dotDot then
        if here = [] then some ⟨none, rest⟩ else some ⟨some here.dropLast, rest⟩
      else
        match t (here ++ [component]) with
        | none => none
        | some .dir => some ⟨some (here ++ [component]), rest⟩
        | some .file =>
            if rest = [] then some ⟨some (here ++ [component]), []⟩ else none
        | some (.link target) =>
            if target.head? = some '/' then
              some ⟨none, target.splitOnP isSlash ++ rest⟩
            else
              some ⟨some here, target.splitOnP isSlash ++ rest⟩
  | _, _ => none

/-- The walks from the root along `path`. -/
def resolution (t : Tree) (path : List Name) : Machine Walk Unit :=
  .ofPartial (fun w => w = ⟨some [], path⟩) (Walk.next t)

/-! ## What accepted targets leave to climb -/

/-- The components of a walk climb no higher than `depth`, and not at all after
they have named something a link may stand for; a name with a backslash in it
is no link, so the walk may climb back out of it. -/
def Contained : ℕ → List Name → Prop
  | _, [] => True
  | depth, component :: rest =>
      if component = [] ∨ component = dot then
        Contained depth rest
      else if component = dotDot then
        0 < depth ∧ Contained (depth - 1) rest
      else if component.any isBackslash = true then
        Contained (depth + 1) rest
      else
        ∀ c ∈ rest, c ≠ dotDot

theorem contained_of_no_dotDot {rest : List Name} (h : ∀ c ∈ rest, c ≠ dotDot)
    (depth : ℕ) : Contained depth rest := by
  induction rest generalizing depth with
  | nil => trivial
  | cons component rest ih =>
      have hrest := fun c hc => h c (List.mem_cons_of_mem _ hc)
      have hup := h component List.mem_cons_self
      unfold Contained
      by_cases hskip : component = [] ∨ component = dot
      · rw [if_pos hskip]
        exact ih hrest depth
      · rw [if_neg hskip, if_neg hup]
        split
        · exact ih hrest (depth + 1)
        · exact hrest

/-- A walk that climbs within bounds from some depth does so from every greater
one, and every piece of it leaves a walk that does. -/
theorem climbsWithin_append {depth : ℕ} {descended : Bool} {pieces rest : List Name}
    (h : climbsWithin depth descended (pieces ++ rest) = true) :
    ∃ depth' descended', depth' ≤ depth ∧
      (descended = true → descended' = true) ∧
      climbsWithin depth' descended' rest = true := by
  induction pieces generalizing depth descended with
  | nil => exact ⟨depth, descended, le_rfl, id, h⟩
  | cons piece pieces ih =>
      rw [List.cons_append] at h
      unfold climbsWithin at h
      split at h
      · exact ih h
      · split at h
        · cases descended with
          | true => cases h
          | false =>
              cases depth with
              | zero => cases h
              | succ depth =>
                  obtain ⟨depth', descended', hle, hd, h⟩ := ih h
                  exact ⟨depth', descended', hle.trans (Nat.le_succ _), hd, h⟩
        · obtain ⟨depth', descended', hle, hd, h⟩ := ih h
          exact ⟨depth', descended', hle, fun _ => hd rfl, h⟩

theorem splitOnP_isBackslash {component : Name}
    (h : component.any isBackslash = false) :
    component.splitOnP isBackslash = [component] := by
  refine List.splitOnP_eq_singleton fun x hx => ?_
  rw [List.any_eq_false] at h
  exact Bool.eq_false_iff.mpr (h x hx)

/-- After the check has descended, no component of the kernel's is `..`. -/
theorem no_dotDot_of_descended {depth : ℕ} {components : List Name}
    (h : climbsWithin depth true
      (components.flatMap fun c => c.splitOnP isBackslash) = true) :
    ∀ c ∈ components, c ≠ dotDot := by
  induction components generalizing depth with
  | nil => simp
  | cons component components ih =>
      rw [List.flatMap_cons] at h
      intro c hc
      rcases List.mem_cons.mp hc with rfl | hc
      · rintro rfl
        have hsplit : dotDot.splitOnP isBackslash = [dotDot] :=
          splitOnP_isBackslash (by decide)
        rw [hsplit, List.singleton_append] at h
        exact absurd h (by simp [climbsWithin, dotDot, dot])
      · obtain ⟨depth', descended', _, hd, h⟩ := climbsWithin_append h
        rw [hd rfl] at h
        exact ih h c hc

/-- What the check accepts, walking both separators, the kernel may walk with
its own. -/
theorem contained_of_climbsWithin {depth depth' : ℕ} (hle : depth ≤ depth')
    {components rest : List Name}
    (h : climbsWithin depth false
      (components.flatMap fun c => c.splitOnP isBackslash) = true)
    (hrest : ∀ c ∈ rest, c ≠ dotDot) : Contained depth' (components ++ rest) := by
  induction components generalizing depth depth' with
  | nil => exact contained_of_no_dotDot hrest depth'
  | cons component components ih =>
      have hsome : ∀ d, (climbsWithin d true
          (components.flatMap fun c => c.splitOnP isBackslash) = true) →
          ∀ c ∈ components ++ rest, c ≠ dotDot := by
        intro d hd c hc
        rcases List.mem_append.mp hc with hc | hc
        · exact no_dotDot_of_descended hd c hc
        · exact hrest c hc
      rw [List.flatMap_cons] at h
      rw [List.cons_append]
      cases hb : component.any isBackslash with
      | false =>
          rw [splitOnP_isBackslash hb, List.singleton_append] at h
          unfold climbsWithin at h
          unfold Contained
          split
          · rename_i hskip
            rw [if_pos hskip] at h
            exact ih hle h
          · rename_i hskip
            rw [if_neg hskip] at h
            split
            · rename_i hup
              rw [if_pos hup, if_neg Bool.false_ne_true] at h
              cases depth with
              | zero => cases h
              | succ depth =>
                  refine ⟨Nat.lt_of_lt_of_le (Nat.succ_pos _) hle, ih ?_ h⟩
                  exact Nat.le_sub_one_of_lt hle
            · rename_i hup
              rw [if_neg hup] at h
              rw [hb, if_neg Bool.false_ne_true]
              exact hsome depth h
      | true =>
          have hne : ¬ (component = [] ∨ component = dot) := by
            rintro (rfl | rfl) <;> cases hb
          have hup : component ≠ dotDot := by
            rintro rfl
            cases hb
          unfold Contained
          rw [if_neg hne, if_neg hup, if_pos hb]
          obtain ⟨depth₁, descended, hle₁, _, h⟩ := climbsWithin_append h
          cases descended with
          | true => exact contained_of_no_dotDot (hsome depth₁ h) _
          | false => exact ih (by omega) h

/-! ## Walks stay below the root -/

def Tree.Accepted (t : Tree) : Prop :=
  ∀ location target, t location = some (.link target) →
    ∃ here name, location = here ++ [name] ∧ name.any isBackslash = false ∧
      validateSymlinkTarget location target = .ok ()

theorem Tree.Accepted.update {t : Tree} (h : t.Accepted) {location : Location}
    {node : Option Node} (hno : ∀ target, node ≠ some (.link target)) :
    Tree.Accepted (Function.update t location node) := by
  intro l target hl
  rw [Function.update_apply] at hl
  by_cases heq : l = location
  · rw [if_pos heq] at hl
    exact absurd hl (hno target)
  · rw [if_neg heq] at hl
    exact h l target hl

/-- An extraction only ever holds links that were accepted. -/
theorem accepted_of_reachable {t : Tree} (hr : extraction.Reachable t) :
    t.Accepted := by
  refine hr.invariant (I := Tree.Accepted) ?_ ?_
  · intro t ht location target hl
    exact absurd hl (ht location target)
  · intro t e t' h hstep
    cases hstep with
    | dir hname hv => exact h.update (by simp)
    | file hname hv => exact h.update (by simp)
    | remove hno => exact h.update (by simp)
    | @link entry target components hname htarget hv =>
        intro l target' hl
        rw [Function.update_apply] at hl
        by_cases heq : l = components
        · rw [if_pos heq] at hl
          cases hl
          subst heq
          obtain ⟨here, name, rfl⟩ := List.eq_nil_or_concat l |>.resolve_left hv.1
          refine ⟨here, name, List.concat_eq_append .., ?_, htarget⟩
          rw [List.any_eq_false]
          intro x hx
          have hplain := plain_of_validateEntryName hname name (by simp)
          exact Bool.eq_false_iff.mp (hplain.2.2.2 x hx).2
        · rw [if_neg heq] at hl
          exact h l target' hl

/-- A walk is below the root and has no more to climb than its depth. -/
def Walk.Inside (w : Walk) : Prop :=
  ∃ here, w.at' = some here ∧ Contained here.length w.rest

theorem Walk.Inside.next {t : Tree} (ht : t.Accepted) {w w' : Walk}
    (hw : w.Inside) (h : w.next t () = some w') : w'.Inside := by
  obtain ⟨at', rest⟩ := w
  obtain ⟨here, rfl, hc⟩ := hw
  cases rest with
  | nil => cases h
  | cons component rest =>
      unfold Walk.next at h
      unfold Contained at hc
      dsimp only at h hc
      split at h
      · rename_i hskip
        rw [if_pos hskip] at hc
        cases h
        exact ⟨here, rfl, hc⟩
      · rename_i hskip
        rw [if_neg hskip] at hc
        split at h
        · rename_i hup
          rw [if_pos hup] at hc
          have hne : here ≠ [] := List.length_pos_iff.mp hc.1
          rw [if_neg hne] at h
          cases h
          exact ⟨here.dropLast, rfl, by rw [List.length_dropLast]; exact hc.2⟩
        · rename_i hup
          rw [if_neg hup] at hc
          split at h
          · cases h
          · cases h
            refine ⟨here ++ [component], rfl, ?_⟩
            rw [List.length_append, List.length_singleton]
            split at hc
            · exact hc
            · exact contained_of_no_dotDot hc _
          · split at h
            · cases h
              exact ⟨here ++ [component], rfl, trivial⟩
            · cases h
          · rename_i target hlink
            obtain ⟨here', name, heq, hb, hok⟩ := ht _ target hlink
            obtain ⟨rfl, rfl⟩ := List.append_singleton_inj.mp heq
            obtain ⟨c, cs, rfl, hslash⟩ := not_absolute_of_accepted hok
            have hhead : ¬ (c :: cs).head? = some '/' := by simpa using hslash
            rw [if_neg hhead] at h
            cases h
            rw [hb, if_neg Bool.false_ne_true] at hc
            have hclimbs := climbsWithin_of_accepted hok
            rw [splitComponents, Text.splitOnP_or, List.length_append,
              List.length_singleton, Nat.add_sub_cancel] at hclimbs
            exact ⟨here, rfl, contained_of_climbsWithin le_rfl hclimbs hc⟩

/-- In every tree an extraction passes through, a walk from the root along names
alone never leaves the root, whatever links it follows. -/
theorem accepted_links_contained {t : Tree} (ht : extraction.Reachable t)
    {path : List Name} (hpath : ∀ c ∈ path, c ≠ dotDot) {w : Walk}
    (hw : (resolution t path).Reachable w) : ∃ location, w.at' = some location := by
  have hinside : w.Inside := by
    refine hw.invariant (I := Walk.Inside) ?_ ?_
    · rintro _ rfl
      exact ⟨[], rfl, contained_of_no_dotDot hpath 0⟩
    · intro w e w' hw hstep
      exact hw.next (accepted_of_reachable ht) hstep
  obtain ⟨here, hat, _⟩ := hinside
  exact ⟨here, hat⟩

/-- A directory `a`, and in it a link `u` to `../b`. -/
def linked : Tree :=
  Function.update (Function.update (fun _ => none) [['a']] (some .dir))
    [['a'], ['u']] (some (.link "../b".toList))

theorem linked_reachable : extraction.Reachable linked := by
  have hempty : extraction.Reachable fun _ => none :=
    .start fun _ _ h => by cases h
  have hdir : extraction.step (fun _ => none) (.dir [] ['a'])
      (Function.update (fun _ => none) [['a']] (some .dir)) := by
    have hslash : ∀ c ∈ ['a'], isSlash c = false := fun c hc => by
      rw [List.mem_singleton.mp hc]
      rfl
    refine Tree.Step.dir ⟨by decide, by decide, by decide, hslash⟩
      ⟨by decide, fun p hp hne => ?_, rfl⟩
    exact absurd (List.prefix_nil.mp hp) hne
  have hlink : extraction.step
      (Function.update (fun _ => none) [['a']] (some .dir))
      (.link "a/u".toList "../b".toList) linked := by
    have hname : validateEntryName "a/u".toList = .ok [['a'], ['u']] := by decide
    refine Tree.Step.link hname (by decide) ⟨by decide, fun p hp hne => ?_, by decide⟩
    rcases List.prefix_cons_iff.mp hp with rfl | ⟨q, rfl, hq⟩
    · exact absurd rfl hne
    · rw [List.prefix_nil.mp hq]
      rfl
  exact (hempty.next hdir).next hlink

/-- The link is followed up to the root, and no further. -/
theorem accepted_links_contained_climb :
    ∃ w, (resolution linked [['a'], ['u']]).Reachable w ∧ w.rest = [['b']] ∧
      ∃ location, w.at' = some location := by
  have hsteps : Machine.replay (Walk.next linked) ⟨some [], [['a'], ['u']]⟩
      [(), (), ()] = some ⟨some [], [['b']]⟩ := by decide
  have hrun : (resolution linked [['a'], ['u']]).Run _ _ :=
    Machine.run_of_replay rfl hsteps
  exact ⟨_, ⟨_, hrun⟩, rfl,
    accepted_links_contained linked_reachable (by decide) ⟨_, hrun⟩⟩

end Fs

end RustSak
