import Mathlib.Data.List.Basic
import Mathlib.Data.List.TakeWhile

/-!
# Commit logs that a crash may cut

A commit log lists what has been committed, the newest first, and marks the
commits that were forced to disk. A durable commit carries every earlier one
with it, so a crash cuts off some of the newest commits and never a durable
one: `Survives log left` says that `left` is what may remain of `log`. What the
log means is replayed from the content below it.
-/

namespace RustSak

namespace Library

/-- One commit: what it wrote, and whether it was forced to disk. -/
structure Commit (α : Type*) where
  write : α
  durable : Bool

namespace CommitLog

variable {α β : Type*}

/-- The content a log leads to, from the content below its oldest commit. -/
def replay (apply : α → β → β) (base : β) (log : List (Commit α)) : β :=
  log.foldr (fun c content => apply c.write content) base

/-- The commits that no durable commit has carried to disk yet. -/
def undurable (log : List (Commit α)) : List (Commit α) :=
  log.takeWhile fun c => !c.durable

@[simp] theorem undurable_nil : undurable ([] : List (Commit α)) = [] := rfl

@[simp] theorem undurable_durable (w : α) (log : List (Commit α)) :
    undurable (⟨w, true⟩ :: log) = [] := rfl

@[simp] theorem undurable_deferred (w : α) (log : List (Commit α)) :
    undurable (⟨w, false⟩ :: log) = ⟨w, false⟩ :: undurable log := rfl

/-- `left` is what a crash may leave of `log`. -/
def Survives (log left : List (Commit α)) : Prop :=
  ∃ lost, log = lost ++ left ∧ ∀ c ∈ lost, c.durable = false

/-- What a crash loses is a stretch of the undurable commits, the newest
ones. -/
theorem Survives.lost_prefix {log left lost : List (Commit α)}
    (heq : log = lost ++ left) (hlost : ∀ c ∈ lost, c.durable = false) :
    lost <+: undurable log := by
  subst heq
  unfold undurable
  rw [List.takeWhile_append_of_pos (by simpa using hlost)]
  exact List.prefix_append _ _

/-- A log that ends in a durable commit, or holds none, is untouched by a crash
of any log grown from it. -/
theorem Survives.suffix_of_settled {log left base : List (Commit α)}
    (h : Survives log left) (hbase : base <:+ log)
    (hsettled : undurable base = []) : base <:+ left := by
  obtain ⟨lost, rfl, hlost⟩ := h
  rcases List.suffix_or_suffix_of_suffix hbase (List.suffix_append lost left)
    with hle | hle
  · exact hle
  · obtain ⟨extra, rfl⟩ := hle
    cases extra with
    | nil => exact List.suffix_refl _
    | cons c extra =>
        -- `c` would be a commit of `base` that the crash lost, so not durable
        have hmem : c ∈ lost := by
          obtain ⟨front, hfront⟩ := hbase
          rw [← List.append_assoc] at hfront
          have hsplit := List.append_cancel_right hfront
          rw [← hsplit]
          simp
        have hc := hlost c hmem
        simp [undurable, hc] at hsettled

end CommitLog

end Library

end RustSak
