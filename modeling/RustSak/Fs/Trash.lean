import RustSak.Library.Machine
import Mathlib.Data.List.Infix
import Mathlib.Logic.Function.Basic

/-!
# Moves to the trash and back

Calls of the program move files to the trash and put them back, step by step between the steps
of other programs, which may do anything to the files and to the trash. What the platform
answers is left open, within what it documents: a delete is a move to the trash, a listing has
all items, and a restore never replaces anything.
-/

namespace RustSak

namespace Fs

namespace Trash

open Library

/-- What stands at a path; `id` tells it from all others. -/
inductive Thing (ν : Type) where
  | file (id : ν)
  | link (id : ν)
  | dir
  deriving DecidableEq

/-- An item in the trash: what it is, where it was, and the second it was deleted in. -/
structure Item (ν : Type) where
  original : List String
  deleted : ℤ
  thing : Thing ν
  deriving DecidableEq

/-- A handle of a file moved to the trash. -/
structure Trashed where
  original : List String
  trashedAt : ℤ
  deriving DecidableEq

inductive FsError where
  | io (message : String)
  | isADirectory (path : List String)
  | alreadyExists (path : List String)
  | notInTrash (path : List String)
  | trash (path : List String) (message : String)
  | restore (path : List String) (message : String)
  deriving DecidableEq

/-- How far a call has come: a move in its first half, a restore with the handle it was given. -/
inductive Phase (ν : Type) where
  | idle
  | checked (path original : List String)
  | trashing (path original : List String) (trashedAt : ℤ)
  | trashed (handle : Trashed)
  | restoring (handle : Trashed)
  | selected (handle : Trashed) (item : Item ν)
  | ready (handle : Trashed) (item : Item ν)
  | restored (handle : Trashed) (item : Item ν)
  | failed (handle : Option Trashed) (error : FsError)

/-- How the platform refuses a restore. -/
inductive Refusal where
  | collision
  | other (message : String)

structure State (γ ν : Type) where
  files : List String → Option (Thing ν)
  trash : List (Item ν)
  calls : γ → Phase ν

/-- A step of a call, with what the platform answers, or of other programs. -/
inductive Event (γ ν : Type) where
  | metadata (call : γ) (path original : List String) (isDir : Except String Bool)
  | now (call : γ) (seconds : ℤ)
  | delete (call : γ) (answer : Except String ℤ)
  | symlinkMetadata (call : γ) (handle : Trashed) (taken : Bool)
  | list (call : γ) (items : Except String (List (Item ν)))
  | createDirAll (call : γ) (created : List String) (error : Option String)
  | restoreAll (call : γ) (answer : Except Refusal Unit)
  | others (files : List String → Option (Thing ν)) (trash : List (Item ν))

/-- `max_by_key`: the last of the greatest. -/
def maxByKey {α : Type} (key : α → ℤ) (xs : List α) : Option α := xs.reverse.maxOn? key

/-- The earliest second the item of a handle may have been deleted in, in 64 bits. -/
def earliest (trashedAt : ℤ) : ℤ := max (trashedAt - 2) (-2 ^ 63)

/-- The item to put back among those listed. -/
def newest {ν : Type} (handle : Trashed) (items : List (Item ν)) : Option (Item ν) :=
  maxByKey Item.deleted (items.filter fun item =>
    decide (earliest handle.trashedAt ≤ item.deleted) && decide (item.original = handle.original))

variable {γ ν : Type} [DecidableEq γ] [DecidableEq ν]

namespace State

def goto (s : State γ ν) (call : γ) (phase : Phase ν) : State γ ν :=
  { s with calls := Function.update s.calls call phase }

/-- The directories down to `path` are there from now on. -/
def mkdirs (files : List String → Option (Thing ν)) (path : List String) :
    List String → Option (Thing ν) :=
  fun place => files place <|> if place <+: path then some .dir else none

def next (s : State γ ν) : Event γ ν → State γ ν
  | .metadata call path original isDir =>
      match isDir with
      | .error message => s.goto call (.failed none (.io message))
      | .ok true => s.goto call (.failed none (.isADirectory path))
      | .ok false => s.goto call (.checked path original)
  | .now call seconds =>
      match s.calls call with
      | .checked path original => s.goto call (.trashing path original seconds)
      | _ => s
  | .delete call answer =>
      match s.calls call with
      | .trashing path original trashedAt =>
          match answer, s.files original with
          | .ok deleted, some thing =>
              { s.goto call (.trashed ⟨original, trashedAt⟩) with
                files := Function.update s.files original none
                trash := ⟨original, deleted, thing⟩ :: s.trash }
          | .ok _, none => s
          | .error message, _ => s.goto call (.failed none (.trash path message))
      | _ => s
  | .symlinkMetadata call handle taken =>
      if taken then s.goto call (.failed (some handle) (.alreadyExists handle.original))
      else s.goto call (.restoring handle)
  | .list call items =>
      match s.calls call with
      | .restoring handle =>
          match items with
          | .error message => s.goto call (.failed (some handle) (.restore handle.original message))
          | .ok items =>
              match newest handle items with
              | some item => s.goto call (.selected handle item)
              | none => s.goto call (.failed (some handle) (.notInTrash handle.original))
      | _ => s
  | .createDirAll call created error =>
      match s.calls call with
      | .selected handle item =>
          match error with
          | none => { s.goto call (.ready handle item) with files := mkdirs s.files created }
          | some message =>
              { s.goto call (.failed (some handle) (.io message)) with
                files := mkdirs s.files created }
      | _ => s
  | .restoreAll call answer =>
      match s.calls call with
      | .ready handle item =>
          match answer with
          | .ok _ =>
              { s.goto call (.restored handle item) with
                files := Function.update s.files item.original (some item.thing)
                trash := s.trash.erase item }
          | .error .collision =>
              s.goto call (.failed (some handle) (.alreadyExists handle.original))
          | .error (.other message) =>
              s.goto call (.failed (some handle) (.restore handle.original message))
      | _ => s
  | .others files trash => { s with files := files, trash := trash }

end State

/-- When a call may take a step, and what the platform documents of its answers. -/
def State.Enabled (s : State γ ν) : Event γ ν → Prop
  | .metadata call _ original isDir => s.calls call = .idle ∧
      (isDir = .ok false → s.files original ≠ none ∧ s.files original ≠ some .dir)
  | .now call seconds => (∃ path original, s.calls call = .checked path original) ∧
      0 ≤ seconds ∧ seconds < 2 ^ 63
  | .delete call answer => ∃ path original trashedAt,
      s.calls call = .trashing path original trashedAt ∧
      (∀ deleted, answer = .ok deleted → s.files original ≠ none)
  | .symlinkMetadata call handle taken => s.calls call = .idle ∧
      (taken = true → s.files handle.original ≠ none)
  | .list call items => (∃ handle, s.calls call = .restoring handle) ∧
      ∀ listed, items = .ok listed → listed.Perm s.trash
  | .createDirAll call created error => ∃ handle item, s.calls call = .selected handle item ∧
      created <+: handle.original.dropLast ∧ (error = none → created = handle.original.dropLast)
  | .restoreAll call answer => ∃ handle item, s.calls call = .ready handle item ∧
      (answer = .ok () → item ∈ s.trash ∧ s.files item.original = none)
  | .others _ _ => True

def machine (γ ν : Type) [DecidableEq γ] [DecidableEq ν] : Machine (State γ ν) (Event γ ν) :=
  .guarded (fun s => ∀ call, s.calls call = .idle) State.Enabled State.next

omit [DecidableEq ν] in
theorem newest_eq_some {handle : Trashed} {items : List (Item ν)} {item : Item ν}
    (h : newest handle items = some item) :
    item ∈ items ∧ earliest handle.trashedAt ≤ item.deleted ∧
      item.original = handle.original := by
  have hmem := List.mem_reverse.mp (List.maxOn?_mem h)
  simpa using hmem

omit [DecidableEq ν] in
theorem newest_eq_none {handle : Trashed} {items : List (Item ν)}
    (h : newest handle items = none) :
    ∀ item ∈ items, item.original = handle.original →
      item.deleted < earliest handle.trashedAt := by
  intro item hitem horiginal
  by_contra hle
  have hkept : item ∈ items.filter fun item =>
      decide (earliest handle.trashedAt ≤ item.deleted) &&
        decide (item.original = handle.original) := by
    simp [hitem, not_lt.mp hle, horiginal]
  have hsome := List.isSome_maxOn?_of_mem (f := Item.deleted) (List.mem_reverse.mpr hkept)
  exact Option.not_isSome_iff_eq_none.mpr h hsome

/-- What a step of a call does to it, to the files and to the trash. -/
inductive Does (s : State γ ν) (call : γ) :
    Phase ν → (List String → Option (Thing ν)) → List (Item ν) → Prop
  | checked {path original : List String} (h : s.calls call = .idle) :
      Does s call (.checked path original) s.files s.trash
  | trashing {path original : List String} {seconds : ℤ}
      (h : s.calls call = .checked path original) :
      Does s call (.trashing path original seconds) s.files s.trash
  | trashed {path original : List String} {trashedAt deleted : ℤ} {thing : Thing ν}
      (h : s.calls call = .trashing path original trashedAt)
      (hthing : s.files original = some thing) :
      Does s call (.trashed ⟨original, trashedAt⟩) (Function.update s.files original none)
        (⟨original, deleted, thing⟩ :: s.trash)
  | restoring {handle : Trashed} (h : s.calls call = .idle) :
      Does s call (.restoring handle) s.files s.trash
  | selected {handle : Trashed} {item : Item ν} {items : List (Item ν)}
      (h : s.calls call = .restoring handle) (hitems : items.Perm s.trash)
      (hnewest : newest handle items = some item) :
      Does s call (.selected handle item) s.files s.trash
  | missed {handle : Trashed} {items : List (Item ν)}
      (h : s.calls call = .restoring handle) (hitems : items.Perm s.trash)
      (hnewest : newest handle items = none) :
      Does s call (.failed (some handle) (.notInTrash handle.original)) s.files s.trash
  | ready {handle : Trashed} {item : Item ν} {created : List String}
      (h : s.calls call = .selected handle item) (hcreated : created <+: handle.original.dropLast) :
      Does s call (.ready handle item) (State.mkdirs s.files created) s.trash
  | restored {handle : Trashed} {item : Item ν} (h : s.calls call = .ready handle item)
      (hitem : item ∈ s.trash) (hfree : s.files item.original = none) :
      Does s call (.restored handle item)
        (Function.update s.files item.original (some item.thing)) (s.trash.erase item)
  | failed {handle : Trashed} {item : Item ν} {created : List String} {message : String}
      (h : s.calls call = .selected handle item) (hcreated : created <+: handle.original.dropLast) :
      Does s call (.failed (some handle) (.io message)) (State.mkdirs s.files created) s.trash
  | refused {handle : Option Trashed} {error : FsError}
      (h : ∀ handle item, s.calls call ≠ .restored handle item)
      (herror : ∀ path, error ≠ .notInTrash path) :
      Does s call (.failed handle error) s.files s.trash

/-- A step is one of a call, or of other programs. -/
theorem does_of_enabled {s : State γ ν} {e : Event γ ν} (he : s.Enabled e) :
    (∃ call phase files trash, Does s call phase files trash ∧
      s.next e = ⟨files, trash, Function.update s.calls call phase⟩) ∨
    ∃ files trash, e = .others files trash := by
  cases e with
  | others files trash => exact .inr ⟨files, trash, rfl⟩
  | metadata call path original isDir =>
      obtain ⟨hidle, _⟩ := he
      have hlive : ∀ handle item, s.calls call ≠ .restored handle item := by
        rw [hidle]
        nofun
      refine .inl ?_
      cases isDir with
      | error message => exact ⟨call, _, _, _, .refused hlive (by nofun), rfl⟩
      | ok isDir =>
          cases isDir with
          | true => exact ⟨call, _, _, _, .refused hlive (by nofun), rfl⟩
          | false => exact ⟨call, _, _, _, .checked hidle, rfl⟩
  | now call seconds =>
      obtain ⟨⟨path, original, hchecked⟩, _⟩ := he
      refine .inl ⟨call, .trashing path original seconds, _, _, .trashing hchecked, ?_⟩
      simp only [State.next, hchecked]
      rfl
  | delete call answer =>
      obtain ⟨path, original, trashedAt, htrashing, hthere⟩ := he
      have hlive : ∀ handle item, s.calls call ≠ .restored handle item := by
        rw [htrashing]
        nofun
      refine .inl ?_
      cases answer with
      | error message =>
          refine ⟨call, .failed none (.trash path message), _, _, .refused hlive nofun, ?_⟩
          simp only [State.next, htrashing]
          rfl
      | ok deleted =>
          obtain ⟨thing, hthing⟩ := Option.ne_none_iff_exists'.mp (hthere deleted rfl)
          refine ⟨call, _, _, ⟨original, deleted, thing⟩ :: s.trash, .trashed htrashing hthing, ?_⟩
          simp only [State.next, htrashing, hthing]
          rfl
  | symlinkMetadata call handle taken =>
      obtain ⟨hidle, _⟩ := he
      refine .inl ?_
      cases taken with
      | true =>
          refine ⟨call, _, _, _, .refused (fun _ _ => ?_) (by nofun), rfl⟩
          rw [hidle]
          nofun
      | false => exact ⟨call, _, _, _, .restoring hidle, rfl⟩
  | list call items =>
      obtain ⟨⟨handle, hrestoring⟩, hitems⟩ := he
      have hlive : ∀ handle item, s.calls call ≠ .restored handle item := by
        rw [hrestoring]
        nofun
      refine .inl ?_
      cases items with
      | error message =>
          refine ⟨call, .failed (some handle) (.restore handle.original message), _, _,
            .refused hlive nofun, ?_⟩
          simp only [State.next, hrestoring]
          rfl
      | ok items =>
          cases hnewest : newest handle items with
          | none =>
              refine ⟨call, _, _, _, .missed hrestoring (hitems items rfl) hnewest, ?_⟩
              simp only [State.next, hrestoring, hnewest]
              rfl
          | some item =>
              refine ⟨call, _, _, _, .selected hrestoring (hitems items rfl) hnewest, ?_⟩
              simp only [State.next, hrestoring, hnewest]
              rfl
  | createDirAll call created error =>
      obtain ⟨handle, item, hselected, hcreated, _⟩ := he
      refine .inl ?_
      cases error with
      | none =>
          refine ⟨call, _, State.mkdirs s.files created, _, .ready hselected hcreated, ?_⟩
          simp only [State.next, hselected]
          rfl
      | some message =>
          refine ⟨call, .failed (some handle) (.io message), State.mkdirs s.files created, _,
            .failed hselected hcreated, ?_⟩
          simp only [State.next, hselected]
          rfl
  | restoreAll call answer =>
      obtain ⟨handle, item, hready, hfree⟩ := he
      have hlive : ∀ handle item, s.calls call ≠ .restored handle item := by
        rw [hready]
        nofun
      refine .inl ?_
      cases answer with
      | ok done =>
          obtain ⟨hitem, hfree⟩ := hfree rfl
          refine ⟨call, _, _, _, .restored hready hitem hfree, ?_⟩
          simp only [State.next, hready]
          rfl
      | error refusal =>
          cases refusal with
          | collision =>
              refine ⟨call, .failed (some handle) (.alreadyExists handle.original), _, _,
                .refused hlive nofun, ?_⟩
              simp only [State.next, hready]
              rfl
          | other message =>
              refine ⟨call, .failed (some handle) (.restore handle.original message), _, _,
                .refused hlive nofun, ?_⟩
              simp only [State.next, hready]
              rfl

/-! ## What is touched -/

/-- The step is one of `call`'s that may change the files or the trash. -/
def Event.Touches (call : γ) : Event γ ν → Prop
  | .delete other (.ok _) => other = call
  | .createDirAll other _ _ => other = call
  | .restoreAll other (.ok _) => other = call
  | _ => False

/-- The call was refused before it had chosen anything. -/
def FsError.Early : FsError → Prop
  | .isADirectory _ => True
  | .notInTrash _ => True
  | _ => False

/-- The item is one of the handle's path, deleted no more than the tolerance before its time. -/
def Chosen (handle : Trashed) (item : Item ν) : Prop :=
  item.original = handle.original ∧ earliest handle.trashedAt ≤ item.deleted

/-- What is known of a call that has come so far, from the steps that were taken. -/
def Phase.Good (es : List (Event γ ν)) (call : γ) : Phase ν → Prop
  | .idle => ∀ e ∈ es, ¬e.Touches call
  | .checked path original | .trashing path original _ =>
      (∀ e ∈ es, ¬e.Touches call) ∧ .metadata call path original (.ok false) ∈ es
  | .trashed handle => ∃ path, .metadata call path handle.original (.ok false) ∈ es
  | .restoring _ => ∀ e ∈ es, ¬e.Touches call
  | .selected handle item => (∀ e ∈ es, ¬e.Touches call) ∧ Chosen handle item
  | .ready handle item =>
      (∀ e ∈ es, e.Touches call → ∃ created answer, e = .createDirAll call created answer) ∧
        Chosen handle item
  | .restored handle item => Chosen handle item
  | .failed _ error =>
      (∀ e ∈ es, e.Touches call → ∃ created answer, e = .createDirAll call created answer) ∧
        (error.Early → ∀ e ∈ es, ¬e.Touches call)

variable {s : State γ ν} {es : List (Event γ ν)} {e : Event γ ν} {call : γ} {phase : Phase ν}
  {files : List String → Option (Thing ν)} {trash : List (Item ν)}

omit [DecidableEq γ] [DecidableEq ν] in
theorem not_touches_cons (h : ∀ e ∈ es, ¬e.Touches call) (he : ¬e.Touches call) :
    ∀ e' ∈ e :: es, ¬e'.Touches call := by
  intro e' he'
  obtain rfl | he' := List.mem_cons.mp he'
  · exact he
  · exact h e' he'

omit [DecidableEq γ] [DecidableEq ν] in
/-- Another call's step. -/
theorem Phase.Good.other (h : phase.Good es call) (he : ¬e.Touches call) :
    phase.Good (e :: es) call := by
  have hfolders : (∀ e ∈ es, e.Touches call → ∃ created answer, e = .createDirAll call created
      answer) → ∀ e' ∈ e :: es, e'.Touches call →
        ∃ created answer, e' = .createDirAll call created answer := by
    intro hold e' he' htouches
    obtain rfl | he' := List.mem_cons.mp he'
    · exact absurd htouches he
    · exact hold e' he' htouches
  cases phase with
  | idle => exact not_touches_cons h he
  | checked path original => exact ⟨not_touches_cons h.1 he, List.mem_cons_of_mem _ h.2⟩
  | trashing path original trashedAt =>
      exact ⟨not_touches_cons h.1 he, List.mem_cons_of_mem _ h.2⟩
  | trashed handle =>
      obtain ⟨path, hmem⟩ := h
      exact ⟨path, List.mem_cons_of_mem _ hmem⟩
  | restoring handle => exact not_touches_cons h he
  | selected handle item => exact ⟨not_touches_cons h.1 he, h.2⟩
  | ready handle item => exact ⟨hfolders h.1, h.2⟩
  | restored handle item => exact h
  | failed handle error =>
      exact ⟨hfolders h.1, fun hearly => not_touches_cons (h.2 hearly) he⟩

/-- Any other step of a call leaves the files and the trash alone. -/
theorem untouched (hours : ∀ files trash, e ≠ .others files trash)
    (h : ∀ call, ¬e.Touches call) :
    (s.next e).files = s.files ∧ (s.next e).trash = s.trash := by
  cases e with
  | others files trash => exact absurd rfl (hours files trash)
  | metadata call path original isDir =>
      cases isDir with
      | error message => exact ⟨rfl, rfl⟩
      | ok isDir =>
          cases isDir with
          | true => exact ⟨rfl, rfl⟩
          | false => exact ⟨rfl, rfl⟩
  | now call seconds =>
      rw [State.next]
      split
      · exact ⟨rfl, rfl⟩
      · exact ⟨rfl, rfl⟩
  | delete call answer =>
      cases answer with
      | ok deleted => exact absurd rfl (h call)
      | error message =>
          rw [State.next]
          split
          · exact ⟨rfl, rfl⟩
          · exact ⟨rfl, rfl⟩
  | symlinkMetadata call handle taken =>
      cases taken with
      | true => exact ⟨rfl, rfl⟩
      | false => exact ⟨rfl, rfl⟩
  | list call items =>
      rw [State.next]
      split
      · split
        · exact ⟨rfl, rfl⟩
        · split
          · exact ⟨rfl, rfl⟩
          · exact ⟨rfl, rfl⟩
      · exact ⟨rfl, rfl⟩
  | createDirAll call created error => exact absurd rfl (h call)
  | restoreAll call answer =>
      cases answer with
      | ok done => exact absurd rfl (h call)
      | error refusal =>
          rw [State.next]
          split
          · cases refusal with
            | collision => exact ⟨rfl, rfl⟩
            | other message => exact ⟨rfl, rfl⟩
          · exact ⟨rfl, rfl⟩

omit [DecidableEq γ] [DecidableEq ν] in
theorem mkdirs_ne {created place : List String}
    (h : State.mkdirs s.files created place ≠ s.files place) :
    place <+: created ∧ State.mkdirs s.files created place = some .dir := by
  cases hplace : s.files place with
  | some thing => simp [State.mkdirs, hplace] at h
  | none =>
      by_cases hbelow : place <+: created
      · simp [State.mkdirs, hplace, hbelow]
      · simp [State.mkdirs, hplace, hbelow] at h

omit [DecidableEq γ] in
/-- Where a step of a call changes the files. -/
theorem Does.changed (h : Does s call phase files trash) (hgood : (s.calls call).Good es call)
    {place : List String} (hchanged : files place ≠ s.files place) :
    (∃ given trashedAt, s.calls call = .trashing given place trashedAt ∧ files place = none) ∨
    ∃ handle item, Chosen handle item ∧
      (s.calls call = .selected handle item ∧ place <+: handle.original.dropLast ∧
        files place = some .dir ∨
      s.calls call = .ready handle item ∧ place = handle.original ∧
        files place = some item.thing) := by
  cases h with
  | @trashed given original trashedAt deleted thing hcall hthing =>
      by_cases hplace : place = original
      · subst hplace
        exact .inl ⟨given, trashedAt, hcall, Function.update_self ..⟩
      · exact absurd (Function.update_of_ne hplace ..) hchanged
  | @ready handle item created hcall hcreated =>
      rw [hcall] at hgood
      obtain ⟨hbelow, hdir⟩ := mkdirs_ne hchanged
      exact .inr ⟨handle, item, hgood.2, .inl ⟨hcall, hbelow.trans hcreated, hdir⟩⟩
  | @failed handle item created message hcall hcreated =>
      rw [hcall] at hgood
      obtain ⟨hbelow, hdir⟩ := mkdirs_ne hchanged
      exact .inr ⟨handle, item, hgood.2, .inl ⟨hcall, hbelow.trans hcreated, hdir⟩⟩
  | @restored handle item hcall hitem hfree =>
      rw [hcall] at hgood
      by_cases hplace : place = item.original
      · subst hplace
        exact .inr ⟨handle, item, hgood.2, .inr ⟨hcall, hgood.2.1, Function.update_self ..⟩⟩
      · exact absurd (Function.update_of_ne hplace ..) hchanged
  | _ => exact absurd rfl hchanged

/-- A file is moved to the trash, other programs empty it, and a restore looks for the file. -/
def emptied : List (Event Bool ℕ) :=
  [.metadata false ["a"] ["a"] (.ok false), .now false 10, .delete false (.ok 10),
    .others (fun _ => none) [], .symlinkMetadata true ⟨["a"], 10⟩ false, .list true (.ok [])]

def full : State Bool ℕ where
  files path := if path = ["a"] then some (.file 0) else none
  trash := []
  calls _ := .idle

/-- A call that is about to delete a file. -/
def about : State Bool ℕ where
  files path := if path = ["a"] then some (.file 0) else none
  trash := []
  calls call := if call then .idle else .trashing ["a"] ["a"] 10

/-! ## Put back -/

variable {handle : Trashed} {item : Item ν}

/-- Other programs leave the path's items in the trash alone, and no call is moving that path. -/
def Apart (path : List String) (s : State γ ν) (e : Event γ ν) : Prop :=
  (∀ call given trashedAt, s.calls call ≠ .trashing given path trashedAt) ∧
    ∀ files trash, e = .others files trash →
      ∀ item : Item ν, item.original = path → (item ∈ trash ↔ item ∈ s.trash)

/-- A restore has put the item back. -/
def Back (calls : γ → Phase ν) (item : Item ν) : Prop :=
  ∃ call handle, calls call = .restored handle item

/-- What is known of a call once the trash has no item of the handle's but `item`. -/
def Knows (handle : Trashed) (item : Item ν) (back : Prop) : Phase ν → Prop
  | .selected other chosen | .ready other chosen | .restored other chosen =>
      other = handle → chosen = item
  | .failed (some other) (.notInTrash _) => other = handle → back
  | _ => True

/-- `item` is what `handle` finds, until it is put back; `fresh` are the calls begun since. -/
structure Kept (handle : Trashed) (item : Item ν) (fresh : γ → Prop) (s : State γ ν) : Prop where
  recent : ∀ other ∈ s.trash, other.original = handle.original →
    other = item ∨ other.deleted < earliest handle.trashedAt
  there : item ∈ s.trash ∨ Back s.calls item
  knows : ∀ call, fresh call → Knows handle item (Back s.calls item) (s.calls call)

omit [DecidableEq ν] in
theorem Knows.mono {back back' : Prop} (h : Knows handle item back phase) (hback : back → back') :
    Knows handle item back' phase := by
  cases phase with
  | failed other error =>
      cases other with
      | none => trivial
      | some other =>
          cases error with
          | notInTrash path => exact fun heq => hback (h heq)
          | _ => trivial
  | _ => exact h

omit [DecidableEq γ] in
theorem Does.ne_restored (h : Does s call phase files trash) (handle : Trashed) (item : Item ν) :
    s.calls call ≠ .restored handle item := by
  cases h with
  | failed h => rw [h]; nofun
  | refused h => exact h handle item
  | checked h => rw [h]; nofun
  | trashing h => rw [h]; nofun
  | trashed h => rw [h]; nofun
  | restoring h => rw [h]; nofun
  | selected h => rw [h]; nofun
  | missed h => rw [h]; nofun
  | ready h => rw [h]; nofun
  | restored h => rw [h]; nofun

/-- What a call has put back stays so. -/
theorem Does.back (h : Does s call phase files trash) (hback : Back s.calls item) :
    Back (Function.update s.calls call phase) item := by
  obtain ⟨other, handle, hrestored⟩ := hback
  refine ⟨other, handle, (Function.update_of_ne (fun heq => ?_) ..).trans hrestored⟩
  rw [heq] at hrestored
  exact h.ne_restored handle item hrestored

variable {fresh : γ → Prop}

/-- A step of a call: the path's items in the trash become fewer. -/
theorem Kept.moved (h : Kept handle item fresh s) (hdoes : Does s call phase files trash)
    (hrecent : ∀ other ∈ trash, other.original = handle.original → other ∈ s.trash)
    (hthere : item ∈ s.trash → item ∈ trash ∨ Back (Function.update s.calls call phase) item)
    (hknows : fresh call → Knows handle item (Back s.calls item) phase) :
    Kept handle item fresh ⟨files, trash, Function.update s.calls call phase⟩ := by
  have hback : Back s.calls item → Back (Function.update s.calls call phase) item := hdoes.back
  refine ⟨fun other hother horiginal => h.recent other (hrecent other hother horiginal) horiginal,
    h.there.elim hthere fun hold => .inr (hback hold), fun other hfresh => ?_⟩
  change Knows handle item (Back (Function.update s.calls call phase) item)
    (Function.update s.calls call phase other)
  by_cases heq : other = call
  · rw [heq, Function.update_self]
    exact (hknows (heq ▸ hfresh)).mono hback
  · rw [Function.update_of_ne heq]
    exact (h.knows other hfresh).mono hback

omit [DecidableEq γ] [DecidableEq ν] in
/-- The item is what the handle finds in the trash. -/
theorem Kept.eq_of_newest (h : Kept handle item fresh s) {items : List (Item ν)} {chosen : Item ν}
    (hitems : items.Perm s.trash) (hnewest : newest handle items = some chosen) :
    chosen = item := by
  obtain ⟨hmem, hearliest, horiginal⟩ := newest_eq_some hnewest
  obtain heq | hlt := h.recent chosen (hitems.mem_iff.mp hmem) horiginal
  · exact heq
  · exact absurd hlt (not_lt.mpr hearliest)

theorem Kept.does (h : Kept handle item fresh s) (hdoes : Does s call phase files trash)
    (horiginal : item.original = handle.original)
    (hearliest : earliest handle.trashedAt ≤ item.deleted)
    (hapart : ∀ call given trashedAt, s.calls call ≠ .trashing given handle.original trashedAt) :
    Kept handle item fresh ⟨files, trash, Function.update s.calls call phase⟩ := by
  have hsame : item ∈ s.trash →
      item ∈ s.trash ∨ Back (Function.update s.calls call phase) item := .inl
  cases hdoes with
  | checked hcall =>
      exact h.moved (.checked hcall) (fun _ hother _ => hother) hsame fun _ => trivial
  | trashing hcall =>
      exact h.moved (.trashing hcall) (fun _ hother _ => hother) hsame fun _ => trivial
  | @trashed given original trashedAt deleted thing hcall hthing =>
      refine h.moved (.trashed hcall hthing) (fun other hother hpath => ?_)
        (fun hitem => .inl (List.mem_cons_of_mem _ hitem)) fun _ => trivial
      obtain rfl | hother := List.mem_cons.mp hother
      · have hpath : original = handle.original := hpath
        rw [hpath] at hcall
        exact absurd hcall (hapart call _ _)
      · exact hother
  | restoring hcall =>
      exact h.moved (.restoring hcall) (fun _ hother _ => hother) hsame fun _ => trivial
  | selected hcall hitems hnewest =>
      refine h.moved (.selected hcall hitems hnewest) (fun _ hother _ => hother) hsame
        fun _ heq => ?_
      exact h.eq_of_newest hitems (heq ▸ hnewest)
  | missed hcall hitems hnewest =>
      refine h.moved (.missed hcall hitems hnewest) (fun _ hother _ => hother) hsame fun _ heq => ?_
      refine h.there.resolve_left fun hitem => ?_
      exact absurd (newest_eq_none (heq ▸ hnewest) item (hitems.mem_iff.mpr hitem) horiginal)
        (not_lt.mpr hearliest)
  | ready hcall hcreated =>
      refine h.moved (.ready hcall hcreated) (fun _ hother _ => hother) hsame fun hfresh => ?_
      have hknows := h.knows call hfresh
      rwa [hcall] at hknows
  | @restored other chosen hcall hchosen hfree =>
      refine h.moved (.restored hcall hchosen hfree)
        (fun _ hother _ => List.mem_of_mem_erase hother) (fun hitem => ?_) fun hfresh => ?_
      · by_cases heq : item = chosen
        · rw [heq]
          exact .inr ⟨call, other, Function.update_self ..⟩
        · exact .inl ((List.mem_erase_of_ne heq).mpr hitem)
      · have hknows := h.knows call hfresh
        rwa [hcall] at hknows
  | failed hcall hcreated =>
      exact h.moved (.failed hcall hcreated) (fun _ hother _ => hother) hsame fun _ => trivial
  | @refused other error hcall herror =>
      refine h.moved (.refused hcall herror) (fun _ hother _ => hother) hsame fun _ => ?_
      cases other with
      | none => trivial
      | some other =>
          cases error with
          | notInTrash path => exact absurd rfl (herror path)
          | _ => trivial

theorem Kept.next (h : Kept handle item fresh s) {e : Event γ ν} (he : s.Enabled e)
    (horiginal : item.original = handle.original)
    (hearliest : earliest handle.trashedAt ≤ item.deleted)
    (hapart : Apart handle.original s e) : Kept handle item fresh (s.next e) := by
  obtain ⟨hmoving, hothers⟩ := hapart
  obtain ⟨call, phase, files, trash, hdoes, hnext⟩ | ⟨files, trash, rfl⟩ := does_of_enabled he
  · rw [hnext]
    exact h.does hdoes horiginal hearliest hmoving
  · have hsame := hothers files trash rfl
    refine ⟨fun other hother hpath => ?_, ?_, h.knows⟩
    · exact h.recent other ((hsame other hpath).mp hother) hpath
    · exact h.there.imp_left (hsame item horiginal).mpr

/-- A file moved to the trash is in it, or some restore has put it back. If nothing of its path
was deleted in the two seconds before, and neither other programs nor other moves meddle with
that path's items, then a restore begun later with its handle puts back this file and no other,
and finds it missing only if some restore has put it back. -/
theorem restored_own {s s' : State γ ν} {mover : γ} {given original : List String}
    {trashedAt deleted : ℤ} {thing : Thing ν}
    (hmover : s.calls mover = .trashing given original trashedAt)
    (hthing : s.files original = some thing)
    (hdeleted : earliest trashedAt ≤ deleted)
    (hearlier : ∀ item ∈ s.trash, item.original = original → item.deleted < earliest trashedAt)
    (h : ((machine γ ν).restrict (Apart original)).Later
      (s.next (.delete mover (.ok deleted))) s') :
    (⟨original, deleted, thing⟩ ∈ s'.trash ∨ Back s'.calls ⟨original, deleted, thing⟩) ∧
    ∀ call, s.calls call = .idle →
      (∀ item, s'.calls call = .restored ⟨original, trashedAt⟩ item →
        item = ⟨original, deleted, thing⟩) ∧
      (s'.calls call = .failed (some ⟨original, trashedAt⟩) (.notInTrash original) →
        Back s'.calls ⟨original, deleted, thing⟩) := by
  have hnext : s.next (.delete mover (.ok deleted)) = ⟨Function.update s.files original none,
      ⟨original, deleted, thing⟩ :: s.trash,
      Function.update s.calls mover (.trashed ⟨original, trashedAt⟩)⟩ := by
    simp only [State.next, hmover, hthing]
    rfl
  have hkept : Kept ⟨original, trashedAt⟩ ⟨original, deleted, thing⟩
      (fun call => s.calls call = .idle) (s.next (.delete mover (.ok deleted))) := by
    rw [hnext]
    refine ⟨fun other hother hpath => ?_, .inl List.mem_cons_self, fun call hidle => ?_⟩
    · exact (List.mem_cons.mp hother).imp_right fun hother => hearlier other hother hpath
    · have hne : call ≠ mover := by
        intro heq
        rw [heq, hmover] at hidle
        cases hidle
      change Knows _ _ _ (Function.update s.calls mover _ call)
      rw [Function.update_of_ne hne, hidle]
      trivial
  have hlater : Kept ⟨original, trashedAt⟩ ⟨original, deleted, thing⟩
      (fun call => s.calls call = .idle) s' := by
    induction h with
    | refl => exact hkept
    | tail _ hstep ih =>
        obtain ⟨e, hapart, he, rfl⟩ := hstep
        exact ih.next he rfl hdeleted hapart
  refine ⟨hlater.there, fun call hidle => ⟨fun item hrestored => ?_, fun hfailed => ?_⟩⟩
  · have hknows := hlater.knows call hidle
    rw [hrestored] at hknows
    exact hknows rfl
  · have hknows := hlater.knows call hidle
    rw [hfailed] at hknows
    exact hknows rfl

/-- The file is deleted, and a call puts it back. -/
def backAgain (n : ℕ) : State Bool ℕ :=
  ([.delete false (.ok 10), .symlinkMetadata true ⟨["a"], 10⟩ false,
    .list true (.ok [⟨["a"], 10, .file 0⟩]), .createDirAll true [] none,
    .restoreAll true (.ok ())].take n).foldl State.next about

theorem restored_own_about :
    (backAgain 5).calls true = .restored ⟨["a"], 10⟩ ⟨["a"], 10, .file 0⟩ ∧
    (backAgain 5).files ["a"] = some (.file 0) ∧
    ∀ item, (backAgain 5).calls true = .restored ⟨["a"], 10⟩ item →
      item = ⟨["a"], 10, .file 0⟩ := by
  have hapart : ∀ n, 1 ≤ n → n < 5 → ∀ call given trashedAt,
      (backAgain n).calls call ≠ .trashing given ["a"] trashedAt := by
    intro n hfirst hlast call given trashedAt
    have hcases : n = 1 ∨ n = 2 ∨ n = 3 ∨ n = 4 := by omega
    rcases hcases with rfl | rfl | rfl | rfl <;> cases call <;> nofun
  have hlater : ((machine Bool ℕ).restrict (Apart ["a"])).Later (backAgain 1) (backAgain 5) := by
    refine .trans (.single ⟨.symlinkMetadata true ⟨["a"], 10⟩ false, ?_, ⟨rfl, nofun⟩, rfl⟩)
      (.trans (.single ⟨.list true (.ok [⟨["a"], 10, .file 0⟩]), ?_, ⟨⟨_, rfl⟩, ?_⟩, rfl⟩)
        (.trans (.single ⟨.createDirAll true [] none, ?_, ⟨_, _, rfl, ?_, fun _ => rfl⟩, rfl⟩)
          (.single ⟨.restoreAll true (.ok ()), ?_, ⟨_, _, rfl, fun _ => ⟨?_, rfl⟩⟩, rfl⟩)))
    · exact ⟨hapart 1 (by decide) (by decide), nofun⟩
    · exact ⟨hapart 2 (by decide) (by decide), nofun⟩
    · rintro listed ⟨⟩
      exact .refl _
    · exact ⟨hapart 3 (by decide) (by decide), nofun⟩
    · exact List.prefix_rfl
    · exact ⟨hapart 4 (by decide) (by decide), nofun⟩
    · exact List.mem_cons_self
  have hmover : about.calls false = .trashing ["a"] ["a"] 10 := rfl
  have hdeleted : earliest 10 ≤ 10 := by decide
  have hown := restored_own hmover rfl hdeleted nofun hlater
  exact ⟨rfl, rfl, (hown.2 true rfl).1⟩

end Trash

end Fs

end RustSak
