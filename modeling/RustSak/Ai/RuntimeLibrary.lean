import RustSak.Library.Text
import Mathlib.Data.List.Infix
import Mathlib.Data.List.Sort
import Mathlib.Data.List.Lex
import Mathlib.Data.Prod.Lex
import Mathlib.Data.Char
import Mathlib.Order.OrderDual

/-!
# The runtime's library

Which file of a folder is the library of the runtime installed in it: the first of those with
the platform's name, a real file over a link to it and a longer name over a shorter one.
-/

namespace RustSak

namespace Ai

namespace Runtime

open Library.Text

/-- What a folder says of one of its entries. -/
structure DirEntry where
  name : List Char
  isFile : Bool
  isLink : Bool

/-- Whether a file named `name` is the runtime library on `os`. -/
def isRuntimeLibrary (name : List Char) (os : String) : Bool :=
  if "_providers_".toList <:+: name then
    false
  else if os = "macos" then
    decide ("libonnxruntime".toList <+: name) && decide (".dylib".toList <:+ name)
  else if os = "windows" then
    eqIgnoreAsciiCase name "onnxruntime.dll".toList
  else
    decide ("libonnxruntime.so".toList <+: name)

def byteLength (name : List Char) : ℕ := (name.map Char.utf8Size).sum

/-- What candidates are sorted by: a real file over a link, and the longest name. -/
def rank (candidate : Bool × List Char) : Bool ×ₗ ℕᵒᵈ ×ₗ List Char :=
  toLex (candidate.1, toLex (OrderDual.toDual (byteLength candidate.2), candidate.2))

def candidates (entries : List DirEntry) (os : String) : List (Bool × List Char) :=
  entries.filterMap fun entry =>
    if entry.isFile && isRuntimeLibrary entry.name os then some (entry.isLink, entry.name)
    else none

/-- The runtime library among the entries of a folder, if that can be read. -/
def libraryIn (entries : Option (List DirEntry)) (os : String) : Option (List Char) :=
  entries.bind fun entries =>
    (((candidates entries os).insertionSort fun a b => rank a ≤ rank b).head?).map Prod.snd

theorem rank_injective : Function.Injective rank := by
  rintro ⟨link, name⟩ ⟨link', name'⟩ h
  have hpair := congrArg ofLex h
  have hrest : toLex (OrderDual.toDual (byteLength name), name) =
      toLex (OrderDual.toDual (byteLength name'), name') := congrArg Prod.snd hpair
  have hlink : link = link' := congrArg Prod.fst hpair
  have hname : name = name' := congrArg (fun pair => (ofLex pair).2) hrest
  rw [hlink, hname]

theorem mem_candidates {entries : List DirEntry} {os : String} {candidate : Bool × List Char} :
    candidate ∈ candidates entries os ↔ ∃ entry ∈ entries, entry.isFile = true ∧
      isRuntimeLibrary entry.name os = true ∧ (entry.isLink, entry.name) = candidate := by
  unfold candidates
  rw [List.mem_filterMap]
  refine exists_congr fun entry => and_congr_right fun _ => ?_
  simp [and_assoc]

/-- The library is the first of the candidates, in whatever order the folder is read. -/
theorem libraryIn_eq_some {entries : List DirEntry} {os : String} {name : List Char} :
    libraryIn (some entries) os = some name ↔
      ∃ link, (link, name) ∈ candidates entries os ∧
        ∀ other ∈ candidates entries os, rank (link, name) ≤ rank other := by
  have hsorted := List.pairwise_insertionSort (fun a b => rank a ≤ rank b) (candidates entries os)
  have hmem : ∀ candidate, candidate ∈ (candidates entries os).insertionSort
      (fun a b => rank a ≤ rank b) ↔ candidate ∈ candidates entries os :=
    fun _ => List.mem_insertionSort _
  unfold libraryIn
  rw [Option.bind_some]
  generalize (candidates entries os).insertionSort (fun a b => rank a ≤ rank b) = sorted
    at hsorted hmem
  cases sorted with
  | nil =>
      constructor
      · nofun
      · rintro ⟨link, hname, _⟩
        exact absurd ((hmem _).mpr hname) List.not_mem_nil
  | cons first sorted =>
      have hfirst : ∀ other ∈ candidates entries os, rank first ≤ rank other := by
        intro other hother
        obtain rfl | hlater := List.mem_cons.mp ((hmem other).mpr hother)
        · exact le_rfl
        · exact (List.pairwise_cons.mp hsorted).1 other hlater
      have hin := (hmem first).mp List.mem_cons_self
      simp only [List.head?_cons, Option.map_some, Option.some.injEq]
      constructor
      · rintro rfl
        exact ⟨first.1, hin, hfirst⟩
      · rintro ⟨link, hname, hleast⟩
        have heq := rank_injective (le_antisymm (hfirst _ hname) (hleast first hin))
        rw [heq]

theorem libraryIn_eq_none {entries : List DirEntry} {os : String} :
    libraryIn (some entries) os = none ↔ candidates entries os = [] := by
  have hperm := List.perm_insertionSort (fun a b => rank a ≤ rank b) (candidates entries os)
  unfold libraryIn
  rw [Option.bind_some, Option.map_eq_none_iff, List.head?_eq_none_iff]
  constructor
  · intro hnil
    rw [hnil] at hperm
    exact hperm.symm.eq_nil
  · intro hnil
    rw [hnil]
    rfl

/-- The order in which a folder is read does not matter. A link is taken only if every library
is one, and a shorter name only over links. -/
theorem library_chosen (entries : List DirEntry) (os : String) :
    (∀ entries', entries.Perm entries' →
      libraryIn (some entries') os = libraryIn (some entries) os) ∧
    (libraryIn (some entries) os = none ↔
      ∀ entry ∈ entries, entry.isFile = true → isRuntimeLibrary entry.name os = false) ∧
    ∀ name, libraryIn (some entries) os = some name →
      ∃ entry ∈ entries, entry.name = name ∧ entry.isFile = true ∧
        isRuntimeLibrary name os = true ∧
        ∀ other ∈ entries, other.isFile = true → isRuntimeLibrary other.name os = true →
          (entry.isLink = true → other.isLink = true) ∧
          (entry.isLink = other.isLink → byteLength other.name ≤ byteLength name) := by
  refine ⟨fun entries' hperm => ?_, ?_, fun name hname => ?_⟩
  · have hmem : ∀ candidate, candidate ∈ candidates entries' os ↔
        candidate ∈ candidates entries os := fun candidate => (hperm.filterMap _).symm.mem_iff
    refine Option.ext fun name => ?_
    simp only [libraryIn_eq_some, hmem]
  · rw [libraryIn_eq_none, List.eq_nil_iff_forall_not_mem]
    constructor
    · intro hnone entry hentry hfile
      by_contra hlibrary
      rw [Bool.not_eq_false] at hlibrary
      exact hnone _ (mem_candidates.mpr ⟨entry, hentry, hfile, hlibrary, rfl⟩)
    · intro hnone candidate hcandidate
      obtain ⟨entry, hentry, hfile, hlibrary, _⟩ := mem_candidates.mp hcandidate
      rw [hnone entry hentry hfile] at hlibrary
      cases hlibrary
  · obtain ⟨link, hin, hleast⟩ := libraryIn_eq_some.mp hname
    obtain ⟨entry, hentry, hfile, hlibrary, heq⟩ := mem_candidates.mp hin
    obtain ⟨rfl, rfl⟩ := Prod.mk.inj heq
    refine ⟨entry, hentry, rfl, hfile, hlibrary, fun other hother hfile' hlibrary' => ?_⟩
    have hle := hleast _ (mem_candidates.mpr ⟨other, hother, hfile', hlibrary', rfl⟩)
    rw [rank, rank, Prod.Lex.toLex_le_toLex, Prod.Lex.toLex_le_toLex] at hle
    obtain hlt | ⟨hlink, hlt | ⟨hlength, _⟩⟩ := hle
    · obtain ⟨hlink, hlink'⟩ := Bool.lt_iff.mp hlt
      refine ⟨fun _ => hlink', fun h => ?_⟩
      cases hlink.symm.trans (h.trans hlink')
    · exact ⟨fun h => hlink.symm.trans h, fun _ => (OrderDual.toDual_lt_toDual.mp hlt).le⟩
    · exact ⟨fun h => hlink.symm.trans h, fun _ => (OrderDual.toDual.injective hlength).ge⟩

end Runtime

end Ai

end RustSak
