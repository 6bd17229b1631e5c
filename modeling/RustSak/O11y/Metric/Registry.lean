import RustSak.Library.Machine
import Mathlib.Data.List.Sort
import Mathlib.Data.List.Range

/-!
# The list of live instruments

Every instrument enters one list when it is created, as a handle that does not keep it alive.
The list is swept of dead handles when it has grown to a watermark, which is then set to twice
what survived, and whenever the exporter reads it. A sweep on creation costs the length of the
list; all of them together cost no more than two for each instrument.
-/

namespace RustSak

namespace O11y

namespace Metric

open Library

/-- The least the watermark falls to. -/
def minPruneAt : ℕ := 64

/-- The list, its watermark, the instruments some caller still has a handle of, and those an
exporter has upgraded and not read to the end. `walked` is how many handles the sweeps on creation
have looked at, `peak` how many instruments were alive at once. -/
structure Registry where
  instruments : List ℕ
  pruneAt : ℕ
  created : ℕ
  owned : ℕ → Bool
  upgraded : List (List ℕ)
  walked : ℕ
  peak : ℕ

namespace Registry

inductive Event where
  | create
  /-- The last handle of an instrument goes. -/
  | drop (k : ℕ)
  /-- A snapshot upgrades the handles, under the lock. -/
  | collect
  /-- A snapshot has read what it upgraded. -/
  | read (i : ℕ)

def new : Registry where
  instruments := []
  pruneAt := minPruneAt
  created := 0
  owned _ := false
  upgraded := []
  walked := 0
  peak := 0

section Definitions

variable (s : Registry)

/-- Something keeps the instrument. -/
def alive (k : ℕ) : Bool := s.owned k || s.upgraded.any fun live => live.contains k

/-- The instruments that are alive, in the order they were created. -/
def living : List ℕ := (List.range s.created).filter s.alive

/-- No list in memory is so long that its doubled length saturates. -/
def register (k : ℕ) : Registry :=
  let instruments := s.instruments ++ [k]
  if s.pruneAt ≤ instruments.length then
    let kept := instruments.filter s.alive
    { s with
      instruments := kept
      pruneAt := max (kept.length * 2) minPruneAt
      walked := s.walked + instruments.length }
  else { s with instruments := instruments }

/-- An instrument, and the handle its creator gets. -/
def born : Registry :=
  { s with owned := Function.update s.owned s.created true, created := s.created + 1 }

def Enabled : Event → Prop
  | .create => True
  | .drop k => s.owned k = true
  | .collect => True
  | .read i => i < s.upgraded.length

def next : Event → Registry
  | .create =>
      let born := { s.born with peak := max s.peak s.born.living.length }
      born.register s.created
  | .drop k => { s with owned := Function.update s.owned k false }
  | .collect =>
      { s with
        instruments := s.instruments.filter s.alive
        upgraded := s.instruments.filter s.alive :: s.upgraded }
  | .read i => { s with upgraded := s.upgraded.eraseIdx i }

end Definitions

def machine : Machine Registry Event := .guarded (· = new) Enabled next

/-- The list is in the order of creation and has every instrument that is alive. The last part
is the potential of a watermark that is coming near. -/
structure Inv (s : Registry) : Prop where
  sorted : s.instruments.Pairwise (· < ·)
  created : ∀ k ∈ s.instruments, k < s.created
  alive : ∀ k, s.alive k = true → k ∈ s.instruments
  peak : s.living.length ≤ s.peak
  short : s.instruments.length < s.pruneAt
  pruneAt : s.pruneAt ≤ max (s.peak * 2) minPruneAt
  walked : s.walked + (2 * s.instruments.length - s.pruneAt) ≤ 2 * s.created

section Steps

variable {s : Registry}

/-- What a sweep keeps of a list that is in order and has all that is alive. -/
theorem filter_eq_living {instruments : List ℕ} (hsorted : instruments.Pairwise (· < ·))
    (hcreated : ∀ k ∈ instruments, k < s.created)
    (halive : ∀ k, s.alive k = true → k ∈ instruments) :
    instruments.filter s.alive = s.living := by
  have hkept : (instruments.filter s.alive).Pairwise (· < ·) := hsorted.filter _
  have hliving : s.living.Pairwise (· < ·) := List.pairwise_lt_range.filter _
  refine List.Perm.eq_of_pairwise
    (fun a b _ _ hab hba => absurd (hab.trans hba) (Nat.lt_irrefl a)) hkept hliving ?_
  refine (List.perm_ext_iff_of_nodup (hkept.imp Nat.ne_of_lt) (hliving.imp Nat.ne_of_lt)).mpr
    fun k => ?_
  rw [living, List.mem_filter, List.mem_filter, List.mem_range]
  exact ⟨fun ⟨hk, ha⟩ => ⟨hcreated k hk, ha⟩, fun ⟨_, ha⟩ => ⟨halive k ha, ha⟩⟩

theorem Inv.filter_alive (h : Inv s) : s.instruments.filter s.alive = s.living :=
  filter_eq_living h.sorted h.created h.alive

/-- Fewer are alive, and the list is shorter or the same. -/
theorem Inv.shrink (h : Inv s) {instruments : List ℕ} {owned : ℕ → Bool}
    {upgraded : List (List ℕ)} (hsub : instruments.Sublist s.instruments)
    (hle : ∀ k, Registry.alive { s with owned := owned, upgraded := upgraded } k = true →
      s.alive k = true ∧ k ∈ instruments) :
    Inv { s with instruments := instruments, owned := owned, upgraded := upgraded } := by
  have hlength := hsub.length_le
  refine ⟨h.sorted.sublist hsub, fun k hk => h.created k (hsub.subset hk), fun k hk => (hle k hk).2,
    ?_, hlength.trans_lt h.short, h.pruneAt, ?_⟩
  · refine le_trans (List.Sublist.length_le ?_) h.peak
    exact List.monotone_filter_right _ fun k hk => (hle k hk).1
  · have hwalked := h.walked
    change s.walked + (2 * instruments.length - s.pruneAt) ≤ 2 * s.created
    omega

/-- What is upgraded was alive. -/
theorem Inv.collect (h : Inv s) : Inv (s.next .collect) := by
  have halive : ∀ k, Registry.alive { s with upgraded := s.instruments.filter s.alive ::
      s.upgraded } k = true → s.alive k = true ∧ k ∈ s.instruments.filter s.alive := by
    intro k hk
    have hold : s.alive k = true := by
      rw [Registry.alive, List.any_cons, Bool.or_eq_true, Bool.or_eq_true] at hk
      rcases hk with howned | hlisted | hupgraded
      · rw [Registry.alive, howned, Bool.true_or]
      · exact (List.mem_filter.mp (List.contains_iff_mem.mp hlisted)).2
      · rw [Registry.alive, hupgraded, Bool.or_true]
    exact ⟨hold, List.mem_filter.mpr ⟨h.alive k hold, hold⟩⟩
  exact h.shrink List.filter_sublist halive

/-- An instrument is put in the list, and the list is swept if it has come to the watermark. -/
theorem Inv.create (h : Inv s) : Inv (s.next .create) := by
  have hborn : ∀ k, s.born.alive k = true ↔ k = s.created ∨ s.alive k = true := by
    intro k
    have howned : s.born.owned k = if k = s.created then true else s.owned k :=
      Function.update_apply ..
    have hupgraded : s.born.upgraded = s.upgraded := rfl
    rw [Registry.alive, Registry.alive, howned, hupgraded]
    split
    · rename_i heq
      simp [heq]
    · rename_i hne
      simp [hne]
  have hmem : ∀ k, s.born.alive k = true → k ∈ s.instruments ++ [s.created] := by
    intro k hk
    rcases (hborn k).mp hk with heq | hold
    · exact List.mem_append_right _ (List.mem_singleton.mpr heq)
    · exact List.mem_append_left _ (h.alive k hold)
  have hsorted : (s.instruments ++ [s.created]).Pairwise (· < ·) := by
    refine List.pairwise_append.mpr ⟨h.sorted, List.pairwise_singleton _ _, fun a ha b hb => ?_⟩
    rw [List.mem_singleton.mp hb]
    exact h.created a ha
  have hlt : ∀ k ∈ s.instruments ++ [s.created], k < s.created + 1 := by
    intro k hk
    rcases List.mem_append.mp hk with hk | hk
    · exact Nat.lt_succ_of_lt (h.created k hk)
    · rw [List.mem_singleton.mp hk]
      exact Nat.lt_succ_self _
  have hlength : (s.instruments ++ [s.created]).length = s.instruments.length + 1 :=
    List.length_append
  have hshort := h.short
  have hwalked := h.walked
  have hpruneAt := h.pruneAt
  have hpeak : s.born.living.length ≤ max s.peak s.born.living.length := Nat.le_max_right _ _
  rw [next, register]
  split
  · rename_i hfull
    change s.pruneAt ≤ (s.instruments ++ [s.created]).length at hfull
    have hsub : ((s.instruments ++ [s.created]).filter s.born.alive).Sublist
        (s.instruments ++ [s.created]) := List.filter_sublist
    have hkept : (s.instruments ++ [s.created]).filter s.born.alive = s.born.living :=
      filter_eq_living hsorted hlt hmem
    have hkeptLength : ((s.instruments ++ [s.created]).filter s.born.alive).length ≤
        max s.peak s.born.living.length := by
      rw [hkept]
      exact hpeak
    refine ⟨hsorted.sublist hsub, fun k hk => hlt k (hsub.subset hk),
      fun k hk => List.mem_filter.mpr ⟨hmem k hk, hk⟩, hpeak, ?_, ?_, ?_⟩
    · change ((s.instruments ++ [s.created]).filter s.born.alive).length <
        max (((s.instruments ++ [s.created]).filter s.born.alive).length * 2) minPruneAt
      rw [minPruneAt]
      omega
    · change max (((s.instruments ++ [s.created]).filter s.born.alive).length * 2) minPruneAt ≤
        max (max s.peak s.born.living.length * 2) minPruneAt
      omega
    -- the list has just come to the watermark
    · change s.walked + (s.instruments ++ [s.created]).length +
        (2 * ((s.instruments ++ [s.created]).filter s.born.alive).length -
          max (((s.instruments ++ [s.created]).filter s.born.alive).length * 2) minPruneAt) ≤
        2 * (s.created + 1)
      omega
  · rename_i hroom
    change ¬s.pruneAt ≤ (s.instruments ++ [s.created]).length at hroom
    refine ⟨hsorted, hlt, hmem, hpeak, Nat.lt_of_not_le hroom, ?_, ?_⟩
    · change s.pruneAt ≤ max (max s.peak s.born.living.length * 2) minPruneAt
      omega
    · change s.walked + (2 * (s.instruments ++ [s.created]).length - s.pruneAt) ≤
        2 * (s.created + 1)
      omega

theorem Inv.next (h : Inv s) {e : Event} (he : s.Enabled e) : Inv (s.next e) := by
  cases e with
  | create => exact h.create
  | drop k =>
      refine h.shrink (List.Sublist.refl _) fun k' hk' => ?_
      have hold : s.alive k' = true := by
        change (Function.update s.owned k false k' || _) = true at hk'
        rw [Function.update_apply] at hk'
        split at hk'
        · rw [Registry.alive, Bool.or_eq_true]
          exact .inr hk'
        · exact hk'
      exact ⟨hold, h.alive k' hold⟩
  | collect => exact h.collect
  | read i =>
      refine h.shrink (List.Sublist.refl _) fun k' hk' => ?_
      have hold : s.alive k' = true := by
        rw [Registry.alive, Bool.or_eq_true, List.any_eq_true] at hk' ⊢
        exact hk'.imp_right fun ⟨live, hlive, hmem⟩ =>
          ⟨live, (List.eraseIdx_sublist ..).subset hlive, hmem⟩
      exact ⟨hold, h.alive k' hold⟩

theorem inv_of_reachable (hr : machine.Reachable s) : Inv s := by
  refine hr.invariant ?_ ?_
  · rintro _ rfl
    exact ⟨List.Pairwise.nil, nofun, nofun, Nat.le_refl 0, by decide, by decide, by decide⟩
  · rintro s e _ h ⟨he, rfl⟩
    exact h.next he

/-- However instruments come and go while snapshots are read, a snapshot gets every instrument that
is alive once, in the order of creation; the list is shorter than the least watermark or twice
the instruments there were at once; and the sweeps look at two handles at most for each
instrument created. -/
theorem collected_once (hr : machine.Reachable s) :
    (s.next .collect).upgraded = s.living :: s.upgraded ∧
    (s.next .collect).instruments = s.living ∧
    s.instruments.length < max (s.peak * 2) minPruneAt ∧ s.walked ≤ 2 * s.created := by
  have h := inv_of_reachable hr
  refine ⟨?_, h.filter_alive, h.short.trans_le h.pruneAt, ?_⟩
  · change s.instruments.filter s.alive :: s.upgraded = _
    rw [h.filter_alive]
  · have hwalked := h.walked
    omega

end Steps

/-- One of three instruments is dropped while a snapshot holds it. -/
def reading : List Event := [.create, .create, .collect, .drop 0, .create, .drop 1]

/-- The next snapshot still gets what the first has not read to the end. -/
theorem collected_once_reading :
    ((reading.foldl next new).next .collect).instruments = [0, 1, 2] := by
  have hlegal : Machine.Legal Enabled next new reading :=
    ⟨trivial, trivial, trivial, rfl, trivial, rfl, trivial⟩
  have hr := (Machine.Reachable.start (M := machine) rfl).legal hlegal
  rw [(collected_once hr).2.1]
  decide

end Registry

end Metric

end O11y

end RustSak
