import RustSak.Fs.Extract
import Mathlib.Data.List.Sort

/-!
# Whole archives

An adapter visits the entries of its archive in order, up to the first that fails,
and then finishes: every link is looked at again, and the directories get their
modes, the deepest first.
-/

namespace RustSak

namespace Fs

open Library

/-- A handle on Unix, where a directory's mode can be set. -/
structure UnixRoot (ρ : Type) extends Root ρ where
  setDirMode : ρ → Location → UInt32 → ρ × FsResult Unit

namespace Extractor

variable {ρ : Type}

/-- The re-check of every link, up to the first that leads out. -/
def verifyLinks (R : Root ρ) : ρ → List (Location × Name × Name) → ρ × FsResult Unit
  | root, [] => (root, .ok ())
  | root, (path, link, target) :: links =>
      match R.verifySymlink root path link target with
      | (root, .error err) => (root, .error err)
      | (root, .ok ()) => verifyLinks R root links

def setDirModes (R : UnixRoot ρ) : ρ → List (Location × UInt32) → ρ × FsResult Unit
  | root, [] => (root, .ok ())
  | root, (path, mode) :: dirModes =>
      match R.setDirMode root path mode with
      | (root, .error err) => (root, .error err)
      | (root, .ok ()) => setDirModes R root dirModes

/-- Stable, as a directory may be listed more than once. -/
def deepestFirst (dirModes : List (Location × UInt32)) : List (Location × UInt32) :=
  dirModes.insertionSort fun a b => b.1.length ≤ a.1.length

def finish (R : UnixRoot ρ) (x : Extractor ρ) : ρ × FsResult ExtractSummary :=
  match verifyLinks R.toRoot x.root x.links with
  | (root, .error err) => (root, .error err)
  | (root, .ok ()) =>
      match setDirModes R root (deepestFirst x.dirModes) with
      | (root, .error err) => (root, .error err)
      | (root, .ok ()) => (root, .ok x.summary)

/-- The visits of the entries, up to the first that fails. -/
def visitAll (options : ExtractOptions) (R : Root ρ) :
    Extractor ρ → List (RawEntry × Data) → Extractor ρ × FsResult Unit
  | x, [] => (x, .ok ())
  | x, (entry, data) :: entries =>
      let visited := x.visit options R entry data
      match visited.result with
      | .error err => (visited.extractor, .error err)
      | .ok () => visitAll options R visited.extractor entries

/-- Extracts the entries, and finishes if all went well. -/
def extract (options : ExtractOptions) (R : UnixRoot ρ) (x : Extractor ρ)
    (entries : List (RawEntry × Data)) : ρ × FsResult ExtractSummary :=
  match x.visitAll options R.toRoot entries with
  | (x, .error err) => (x.root, .error err)
  | (x, .ok ()) => x.finish R

variable {options : ExtractOptions} {R : Root ρ}

theorem visitAll_cons_ok {x : Extractor ρ} {entry : RawEntry} {data : Data}
    (h : (x.visit options R entry data).result = .ok ())
    (entries : List (RawEntry × Data)) :
    x.visitAll options R ((entry, data) :: entries) =
      (x.visit options R entry data).extractor.visitAll options R entries := by
  rw [visitAll]
  rw [h]

theorem visitAll_cons_error {x : Extractor ρ} {entry : RawEntry} {data : Data}
    (h : (x.visit options R entry data).result ≠ .ok ())
    (entries : List (RawEntry × Data)) :
    (x.visitAll options R ((entry, data) :: entries)).1 =
      (x.visit options R entry data).extractor := by
  rw [visitAll]
  cases hresult : (x.visit options R entry data).result with
  | error err => rfl
  | ok u => exact absurd hresult h

/-- Visits that all went well went well one by one. -/
theorem of_visitAll_cons {x x' : Extractor ρ} {entry : RawEntry} {data : Data}
    {entries : List (RawEntry × Data)}
    (h : x.visitAll options R ((entry, data) :: entries) = (x', .ok ())) :
    (x.visit options R entry data).result = .ok () ∧
      (x.visit options R entry data).extractor.visitAll options R entries =
        (x', .ok ()) := by
  cases hresult : (x.visit options R entry data).result with
  | error err =>
      rw [visitAll] at h
      rw [hresult] at h
      cases h
  | ok u =>
      rw [visitAll_cons_ok hresult] at h
      exact ⟨rfl, h⟩

theorem visitAll_append_ok {x x' : Extractor ρ} {before : List (RawEntry × Data)}
    (h : x.visitAll options R before = (x', .ok ())) (after : List (RawEntry × Data)) :
    x.visitAll options R (before ++ after) = x'.visitAll options R after := by
  induction before generalizing x with
  | nil =>
      cases h
      rfl
  | cons e before ih =>
      obtain ⟨hvisit, hrest⟩ := of_visitAll_cons h
      rw [List.cons_append, visitAll_cons_ok hvisit]
      exact ih hrest

theorem visitAll_of_extract {R : UnixRoot ρ} {x : Extractor ρ}
    {entries : List (RawEntry × Data)} {summary : ExtractSummary}
    (h : (x.extract options R entries).2 = .ok summary) :
    ∃ x', x.visitAll options R.toRoot entries = (x', .ok ()) := by
  unfold extract at h
  split at h
  · cases h
  · rename_i x' heq
    exact ⟨x', heq⟩

end Extractor

end Fs

end RustSak
