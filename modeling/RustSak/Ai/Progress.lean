import RustSak.Ai.FilesKept
import RustSak.Ai.Install
import RustSak.Library.Word64
import Mathlib.Algebra.Order.Field.Rat
import Mathlib.Algebra.BigOperators.Group.List.Basic

/-!
# Progress of an install

What the two installs report, with their fractions as rationals. Of each report it is
kept whether the marker or the record of the install was on disk by then, and of an
install of files every addition it made. What a download tells its caller, what an
extraction does and what fails come from outside.
-/

namespace RustSak

namespace Ai

namespace Progress

open Library FileInstall

def DOWNLOAD_SHARE : ℚ := 4 / 5

def ratio (done total : UInt64) : ℚ :=
  if total = 0 then 1 else min ((done.toNat : ℚ) / total.toNat) 1

/-- One dependency's fraction, and the most that it reads before the end. -/
structure Fraction (unfinished : ℚ) where
  high : ℚ

namespace Fraction

variable {unfinished : ℚ} (f : Fraction unfinished)

def report (fraction : ℚ) : Fraction unfinished :=
  ⟨max f.high (min fraction unfinished)⟩

def download (done total : UInt64) : Fraction unfinished :=
  f.report (DOWNLOAD_SHARE * ratio done total)

/-- For an install with no extraction. -/
def whole (done total : UInt64) : Fraction unfinished := f.report (ratio done total)

def extract (done total : UInt64) : Fraction unfinished :=
  f.report (DOWNLOAD_SHARE + (1 - DOWNLOAD_SHARE) * ratio done total)

def finish (_ : Fraction unfinished) : Fraction unfinished := ⟨1⟩

end Fraction

inductive Event where
  | progress (phase : Install.Phase) (bytes total : UInt64) (fraction : ℚ)
  | verifying
  | current

/-- An event of a dependency, and whether what marks it as installed was on disk. -/
structure Report where
  dependency : String
  event : Event
  recorded : Bool

/-- What an install has reported, the fraction it has got to, and what it has added. -/
structure Log (unfinished : ℚ) where
  fraction : Fraction unfinished
  reports : List Report
  sums : List (UInt64 × UInt64)

namespace Log

variable {unfinished : ℚ} (log : Log unfinished)

def new : Log unfinished := ⟨⟨0⟩, [], []⟩

def event (name : String) (event : Event) : Log unfinished :=
  { log with reports := log.reports ++ [⟨name, event, false⟩] }

def progress (name : String) (phase : Install.Phase) (bytes total : UInt64)
    (recorded : Bool) (fraction : Fraction unfinished) : Log unfinished :=
  { log with
    fraction := fraction
    reports := log.reports ++
      [⟨name, .progress phase bytes total fraction.high, recorded⟩] }

def added (a b : UInt64) : Log unfinished := { log with sums := log.sums ++ [(a, b)] }

end Log

/-- What an install comes to. -/
structure Ended (unfinished : ℚ) (α : Type) where
  log : Log unfinished
  result : Except Failure α

section InstallOne

variable (unfinished : ℚ)

/-- What comes from outside during an install of an archive. An extraction tells how far
it is while the marker may or may not be written by then; what follows it removes
staging and other versions. -/
structure Archive where
  intact : Bool
  fails : Option Failure
  steps : List Install.Step
  fetched : Except Failure Unit
  extracted : List (UInt64 × UInt64 × Bool)
  unpacked : Except Failure Unit
  cleaned : Except Failure Unit

variable {unfinished}

def notifyDownload (name : String) (size : UInt64) (log : Log unfinished) :
    Install.Step → Log unfinished
  | .onDisk bytes =>
      let bytes := UInt64.ofNat bytes
      log.progress name .download bytes size false (log.fraction.download bytes size)
  | .verifying => log.event name .verifying

def notifyExtract (name : String) (log : Log unfinished) :
    UInt64 × UInt64 × Bool → Log unfinished
  | (done, total, recorded) =>
      log.progress name .extract done total recorded (log.fraction.extract done total)

/-- `install_one`: true if it installed, false if another process had. -/
def installOne (name : String) (size : UInt64) (w : Archive) : Ended unfinished Bool :=
  if w.intact then ⟨Log.new.event name .current, .ok false⟩
  else
    match w.fails with
    | some failure => ⟨.new, .error failure⟩
    | none =>
        let log := w.steps.foldl (notifyDownload name size) .new
        match w.fetched with
        | .error failure => ⟨log, .error failure⟩
        | .ok () =>
            let log := w.extracted.foldl (notifyExtract name) log
            match w.unpacked, w.cleaned with
            | .error failure, _ => ⟨log, .error failure⟩
            | .ok (), .error failure => ⟨log, .error failure⟩
            | .ok (), .ok () =>
                let total := (w.extracted.getLast?.map fun update => update.2.1).getD 0
                ⟨log.progress name .extract total total true log.fraction.finish,
                  .ok true⟩

end InstallOne

section InstallFiles

variable {unfinished : ℚ}

/-- What becomes of one file: whether what is there is hashed, whether it is kept, and
otherwise what its download tells and comes to. -/
structure Handling where
  hashed : Bool
  kept : Except Failure Bool
  steps : List Install.Step
  fetched : Except Failure Unit

/-- What comes from outside during an install of files. -/
structure Folder where
  cleared : Except Failure Unit
  handle : RemoteFile → Handling
  recorded : Except Failure Unit

def size (file : RemoteFile) : UInt64 := UInt64.ofNat file.size

def notifyWhole (name : String) (file : RemoteFile) (done total : UInt64)
    (log : Log unfinished) : Install.Step → Log unfinished
  | .onDisk bytes =>
      let onDisk := min (UInt64.ofNat bytes) (size file)
      let bytes := done + onDisk
      (log.added done onDisk).progress name .download bytes total false
        (log.fraction.whole bytes total)
  | .verifying => log.event name .verifying

/-- One file, kept or downloaded. -/
def handle (name : String) (total : UInt64) (w : Handling) (file : RemoteFile)
    (done : UInt64) (log : Log unfinished) : Ended unfinished Bool :=
  let log := if w.hashed then log.event name .verifying else log
  match w.kept with
  | .error failure => ⟨log, .error failure⟩
  | .ok true => ⟨log, .ok false⟩
  | .ok false =>
      ⟨w.steps.foldl (notifyWhole name file done total) log,
        w.fetched.map fun _ => true⟩

/-- The files in turn: whether any was downloaded. -/
def installFrom (name : String) (total : UInt64) (w : Folder) :
    List RemoteFile → UInt64 → Bool → Log unfinished → Ended unfinished Bool
  | [], _, downloaded, log => ⟨log, .ok downloaded⟩
  | file :: files, done, downloaded, log =>
      let handled := handle name total (w.handle file) file done log
      match handled.result with
      | .error failure => ⟨handled.log, .error failure⟩
      | .ok fetched =>
          let log := handled.log.added done (size file)
          let done := done + size file
          installFrom name total w files done (downloaded || fetched)
            (log.progress name .download done total false
              (log.fraction.whole done total))

/-- The sizes summed up, from the first on. -/
def sum (files : List RemoteFile) (log : Log unfinished) : UInt64 × Log unfinished :=
  files.foldl (fun (total, log) file =>
    (total + size file, log.added total (size file))) (0, log)

/-- `install`, in install/files.rs. -/
def install (name : String) (w : Folder) (wanted : List RemoteFile) :
    Ended unfinished Outcome :=
  match w.cleared with
  | .error failure => ⟨.new, .error failure⟩
  | .ok () =>
      let (total, log) := sum wanted .new
      let through := installFrom name total w wanted 0 false log
      match through.result, w.recorded with
      | .error failure, _ => ⟨through.log, .error failure⟩
      | .ok _, .error failure => ⟨through.log, .error failure⟩
      | .ok downloaded, .ok () =>
          ⟨through.log.progress name .download total total true
              through.log.fraction.finish,
            .ok (if downloaded then .installed else .adopted)⟩

/-- What a run can come to before it installs anything. -/
inductive Early where
  | current
  | offline
  | trusted
  | failed (failure : Failure)

def Early.result : Early → Except Failure Outcome
  | current => .ok .current
  | offline => .ok .offline
  | trusted => .ok .trusted
  | failed failure => .error failure

/-- `install_files`, of the files that are selected. -/
def installFiles (name : String) (early : Option Early) (w : Folder) (select : Select)
    (listing : Listing) : Ended unfinished Outcome :=
  match early, wanted select listing with
  | some early, _ => ⟨.new, early.result⟩
  | none, .error failure => ⟨.new, .error failure⟩
  | none, .ok wanted => install name w wanted

end InstallFiles

section Climbing

variable {unfinished : ℚ}

def Event.fraction : Event → Option ℚ
  | progress _ _ _ fraction => some fraction
  | verifying => none
  | current => none

/-- The fractions reported, in their order. -/
def fractions (reports : List Report) : List ℚ :=
  reports.filterMap fun report => report.event.fraction

/-- No fraction reaches 1 before what marks the install as done is on disk, and then
just the last one does, of a run that installed. -/
structure Climbs (reports : List Report) (installed : Prop) : Prop where
  rises : (fractions reports).Pairwise (· ≤ ·)
  unmarked : ∀ report ∈ reports, ∀ x ∈ report.event.fraction, report.recorded = false →
    x < 1
  done : installed → ∃ before last, reports = before ++ [last] ∧
    last.event.fraction = some 1 ∧ last.recorded = true ∧ ∀ x ∈ fractions before, x < 1
  undone : ¬installed → ∀ x ∈ fractions reports, x < 1

/-- The fractions so far are in order and none is above the last, which is below 1. -/
structure Log.Rising (log : Log unfinished) : Prop where
  high : log.fraction.high < 1
  rises : (fractions log.reports).Pairwise (· ≤ ·)
  bounded : ∀ x ∈ fractions log.reports, x ≤ log.fraction.high

theorem Fraction.report_high_lt (hunfinished : unfinished < 1) {f : Fraction unfinished}
    (hf : f.high < 1) (fraction : ℚ) : (f.report fraction).high < 1 :=
  max_lt hf ((min_le_right _ _).trans_lt hunfinished)

theorem Fraction.high_le_report (f : Fraction unfinished) (fraction : ℚ) :
    f.high ≤ (f.report fraction).high :=
  le_max_left _ _

theorem fractions_append (reports reports' : List Report) :
    fractions (reports ++ reports') = fractions reports ++ fractions reports' :=
  List.filterMap_append

namespace Log.Rising

variable {log : Log unfinished}

theorem new : (Log.new : Log unfinished).Rising :=
  ⟨zero_lt_one, .nil, by simp [Log.new, fractions]⟩

theorem event (h : log.Rising) {event : Event} (hevent : event.fraction = none)
    (name : String) : (log.event name event).Rising := by
  have hsame : fractions (log.event name event).reports = fractions log.reports := by
    simp [Log.event, fractions, hevent]
  refine ⟨h.high, ?_, ?_⟩
  · rw [hsame]
    exact h.rises
  · rw [hsame]
    exact h.bounded

theorem added (h : log.Rising) (a b : UInt64) : (log.added a b).Rising :=
  ⟨h.high, h.rises, h.bounded⟩

/-- The fractions once another is reported that is no lower. -/
theorem rises_progress (h : log.Rising) {f : Fraction unfinished}
    (hle : log.fraction.high ≤ f.high) (name : String) (phase : Install.Phase)
    (bytes total : UInt64) (recorded : Bool) :
    (fractions (log.progress name phase bytes total recorded f).reports).Pairwise
        (· ≤ ·) ∧
      ∀ x ∈ fractions (log.progress name phase bytes total recorded f).reports,
        x ≤ f.high := by
  have hmore : fractions (log.progress name phase bytes total recorded f).reports =
      fractions log.reports ++ [f.high] := fractions_append _ _
  rw [hmore]
  constructor
  · rw [List.pairwise_append]
    refine ⟨h.rises, List.pairwise_singleton _ _, fun x hx y hy => ?_⟩
    obtain rfl := List.mem_singleton.mp hy
    exact (h.bounded x hx).trans hle
  · intro x hx
    rcases List.mem_append.mp hx with hx | hx
    · exact (h.bounded x hx).trans hle
    · exact (List.mem_singleton.mp hx).le

theorem report (hunfinished : unfinished < 1) (h : log.Rising) (fraction : ℚ)
    (name : String) (phase : Install.Phase) (bytes total : UInt64) (recorded : Bool) :
    (log.progress name phase bytes total recorded
      (log.fraction.report fraction)).Rising := by
  obtain ⟨hrises, hbounded⟩ := h.rises_progress (log.fraction.high_le_report fraction)
    name phase bytes total recorded
  exact ⟨Fraction.report_high_lt hunfinished h.high fraction, hrises, hbounded⟩

theorem lt_one (h : log.Rising) : ∀ x ∈ fractions log.reports, x < 1 :=
  fun x hx => (h.bounded x hx).trans_lt h.high

/-- A run that ends before it is done. -/
theorem undone (h : log.Rising) {installed : Prop} (hnot : ¬installed) :
    Climbs log.reports installed where
  rises := h.rises
  unmarked report hreport x hx _ :=
    h.lt_one x (List.mem_filterMap.mpr ⟨report, hreport, hx⟩)
  done hinstalled := absurd hinstalled hnot
  undone _ := h.lt_one

/-- A run that installs. -/
theorem finish (h : log.Rising) {installed : Prop} (hinstalled : installed)
    (name : String) (phase : Install.Phase) (bytes total : UInt64) :
    Climbs (log.progress name phase bytes total true log.fraction.finish).reports
      installed where
  rises := (h.rises_progress h.high.le name phase bytes total true).1
  unmarked report hreport x hx hunmarked := by
    rcases List.mem_append.mp hreport with hbefore | hlast
    · exact h.lt_one x (List.mem_filterMap.mpr ⟨report, hbefore, hx⟩)
    · rw [List.mem_singleton.mp hlast] at hunmarked
      cases hunmarked
  done _ := ⟨log.reports, _, rfl, rfl, rfl, h.lt_one⟩
  undone hnot := absurd hinstalled hnot

end Log.Rising

theorem notifyDownload_rising (hunfinished : unfinished < 1) {log : Log unfinished}
    (h : log.Rising) (name : String) (size : UInt64) (step : Install.Step) :
    (notifyDownload name size log step).Rising := by
  cases step with
  | onDisk bytes => exact h.report hunfinished _ _ _ _ _ _
  | verifying => exact h.event rfl name

theorem notifyExtract_rising (hunfinished : unfinished < 1) {log : Log unfinished}
    (h : log.Rising) (name : String) (update : UInt64 × UInt64 × Bool) :
    (notifyExtract name log update).Rising :=
  h.report hunfinished _ _ _ _ _ _

theorem installOne_climbs (hunfinished : unfinished < 1) (name : String) (size : UInt64)
    (w : Archive) :
    Climbs (installOne name size w : Ended unfinished Bool).log.reports
      ((installOne name size w : Ended unfinished Bool).result = .ok true) := by
  have hdownloaded : (w.steps.foldl (notifyDownload name size)
      (.new : Log unfinished)).Rising :=
    List.foldlRecOn _ _ .new fun log h step _ =>
      notifyDownload_rising hunfinished h name size step
  have hextracted : (w.extracted.foldl (notifyExtract name) (w.steps.foldl
      (notifyDownload name size) (.new : Log unfinished))).Rising :=
    List.foldlRecOn _ _ hdownloaded fun log h update _ =>
      notifyExtract_rising hunfinished h name update
  unfold installOne
  split
  · exact (Log.Rising.new.event rfl name).undone (by simp)
  · split
    · exact Log.Rising.new.undone (by simp)
    · dsimp only
      split
      · exact hdownloaded.undone (by simp)
      · split
        · exact hextracted.undone (by simp)
        · exact hextracted.undone (by simp)
        · exact hextracted.finish rfl _ _ _ _

theorem notifyWhole_rising (hunfinished : unfinished < 1) {log : Log unfinished}
    (h : log.Rising) (name : String) (file : RemoteFile) (done total : UInt64)
    (step : Install.Step) : (notifyWhole name file done total log step).Rising := by
  cases step with
  | onDisk bytes => exact (h.added _ _).report hunfinished _ _ _ _ _ _
  | verifying => exact h.event rfl name

theorem handle_rising (hunfinished : unfinished < 1) {log : Log unfinished}
    (h : log.Rising) (name : String) (total : UInt64) (w : Handling) (file : RemoteFile)
    (done : UInt64) : (handle name total w file done log).log.Rising := by
  have hhashed : (if w.hashed then log.event name .verifying else log).Rising := by
    split
    · exact h.event rfl name
    · exact h
  unfold handle
  dsimp only
  split
  · exact hhashed
  · exact hhashed
  · exact List.foldlRecOn _ _ hhashed fun log h step _ =>
      notifyWhole_rising hunfinished h name file done total step

theorem installFrom_rising (hunfinished : unfinished < 1) (name : String)
    (total : UInt64) (w : Folder) (files : List RemoteFile) (done : UInt64)
    (downloaded : Bool) {log : Log unfinished} (h : log.Rising) :
    (installFrom name total w files done downloaded log).log.Rising := by
  induction files generalizing done downloaded log with
  | nil => exact h
  | cons file files ih =>
      have hhandled := handle_rising hunfinished h name total (w.handle file) file done
      unfold installFrom
      dsimp only
      split
      · exact hhandled
      · exact ih _ _ ((hhandled.added _ _).report hunfinished _ _ _ _ _ _)

theorem sum_rising {log : Log unfinished} (h : log.Rising) (files : List RemoteFile) :
    (sum files log).2.Rising := by
  have hfold : ∀ start : UInt64 × Log unfinished, start.2.Rising →
      (files.foldl (fun (total, log) file =>
        (total + size file, log.added total (size file))) start).2.Rising := by
    intro start hstart
    exact List.foldlRecOn (motive := fun p : UInt64 × Log unfinished => p.2.Rising)
      _ _ hstart fun p hp file _ => hp.added _ _
  exact hfold (0, log) h

def Installs (result : Except Failure Outcome) : Prop :=
  result = .ok .installed ∨ result = .ok .adopted

theorem install_climbs (hunfinished : unfinished < 1) (name : String) (w : Folder)
    (wanted : List RemoteFile) :
    Climbs (install name w wanted : Ended unfinished Outcome).log.reports
      (Installs (install name w wanted : Ended unfinished Outcome).result) := by
  have hrising := installFrom_rising hunfinished name
    (sum wanted (.new : Log unfinished)).1 w wanted 0 false (sum_rising .new wanted)
  unfold install
  split
  · exact Log.Rising.new.undone (by simp [Installs])
  · dsimp only
    split
    · exact hrising.undone (by simp [Installs])
    · exact hrising.undone (by simp [Installs])
    · rename_i downloaded _ _
      refine hrising.finish ?_ _ _ _ _
      cases downloaded <;> simp [Installs]

theorem installFiles_climbs (hunfinished : unfinished < 1) (name : String)
    (early : Option Early) (w : Folder) (select : Select) (listing : Listing) :
    Climbs (installFiles name early w select listing :
        Ended unfinished Outcome).log.reports
      (Installs (installFiles name early w select listing :
        Ended unfinished Outcome).result) := by
  unfold installFiles
  split
  · rename_i early
    refine Log.Rising.new.undone ?_
    cases early <;> simp [Installs, Early.result]
  · exact Log.Rising.new.undone (by simp [Installs])
  · exact install_climbs hunfinished name w _

end Climbing

section Summing

variable {unfinished : ℚ}

/-- An addition that does not overflow. -/
def Fits (pair : UInt64 × UInt64) : Prop := pair.1.toNat + pair.2.toNat < 2 ^ 64

theorem Fits.toNat_add {a b : UInt64} (h : Fits (a, b)) :
    (a + b).toNat = a.toNat + b.toNat := by
  rw [UInt64.toNat_add, Nat.mod_eq_of_lt h]

/-- Every byte count reported is within a total of `selected`, and no addition of the
run overflowed. -/
structure Exact (log : Log unfinished) (selected : ℕ) : Prop where
  bytes : ∀ report ∈ log.reports, ∀ phase bytes total fraction,
    report.event = .progress phase bytes total fraction →
      bytes ≤ total ∧ total.toNat = selected
  sums : ∀ pair ∈ log.sums, Fits pair

namespace Exact

variable {log : Log unfinished} {selected : ℕ}

theorem verifying (h : Exact log selected) (name : String) :
    Exact (log.event name .verifying) selected where
  bytes report hreport phase bytes total fraction hevent := by
    rcases List.mem_append.mp hreport with hbefore | hlast
    · exact h.bytes report hbefore phase bytes total fraction hevent
    · rw [List.mem_singleton.mp hlast] at hevent
      cases hevent
  sums := h.sums

theorem added (h : Exact log selected) {a b : UInt64} (hfits : Fits (a, b)) :
    Exact (log.added a b) selected where
  bytes := h.bytes
  sums pair hpair := by
    rcases List.mem_append.mp hpair with hbefore | hlast
    · exact h.sums pair hbefore
    · exact List.mem_singleton.mp hlast ▸ hfits

theorem progress (h : Exact log selected) {bytes total : UInt64} (hle : bytes ≤ total)
    (htotal : total.toNat = selected) (name : String) (phase : Install.Phase)
    (recorded : Bool) (fraction : Fraction unfinished) :
    Exact (log.progress name phase bytes total recorded fraction) selected where
  bytes report hreport phase' bytes' total' fraction' hevent := by
    rcases List.mem_append.mp hreport with hbefore | hlast
    · exact h.bytes report hbefore phase' bytes' total' fraction' hevent
    · rw [List.mem_singleton.mp hlast] at hevent
      obtain ⟨-, rfl, rfl, -⟩ := Event.progress.inj hevent
      exact ⟨hle, htotal⟩
  sums := h.sums

end Exact

/-- The sum of the sizes, which are 64-bit words. -/
def selected (files : List RemoteFile) : ℕ :=
  (files.map fun file => (size file).toNat).sum

theorem selected_cons (file : RemoteFile) (files : List RemoteFile) :
    selected (file :: files) = (size file).toNat + selected files := rfl

/-- The files' sizes are the listed ones. -/
theorem selected_eq {files : List RemoteFile}
    (hsizes : ∀ file ∈ files, file.size < 2 ^ 64) :
    selected files = (files.map RemoteFile.size).sum := by
  unfold selected
  congr 1
  refine List.map_congr_left fun file hfile => ?_
  exact UInt64.toNat_ofNat_of_lt' (hsizes file hfile)

theorem notifyWhole_exact {log : Log unfinished} {all : ℕ} (h : Exact log all)
    (name : String) {file : RemoteFile} {done total : UInt64}
    (htotal : total.toNat = all) (hroom : done.toNat + (size file).toNat ≤ all)
    (step : Install.Step) :
    Exact (notifyWhole name file done total log step) all := by
  cases step with
  | verifying => exact h.verifying name
  | onDisk bytes =>
      have hmin : (min (UInt64.ofNat bytes) (size file)).toNat ≤ (size file).toNat := by
        change (if _ ≤ _ then _ else size file).toNat ≤ _
        split
        · rename_i hle
          exact UInt64.le_iff_toNat_le.mp hle
        · exact Nat.le_refl _
      have hlt := total.toNat_lt
      have hfits : Fits (done, min (UInt64.ofNat bytes) (size file)) := by
        unfold Fits
        dsimp only
        omega
      refine (h.added hfits).progress ?_ htotal _ _ _ _
      rw [UInt64.le_iff_toNat_le, hfits.toNat_add]
      omega

theorem handle_exact {log : Log unfinished} {all : ℕ} (h : Exact log all)
    (name : String) {file : RemoteFile} {done total : UInt64} (htotal : total.toNat = all)
    (hroom : done.toNat + (size file).toNat ≤ all) (w : Handling) :
    Exact (handle name total w file done log).log all := by
  have hhashed : Exact (if w.hashed then log.event name .verifying else log) all := by
    split
    · exact h.verifying name
    · exact h
  unfold handle
  dsimp only
  split
  · exact hhashed
  · exact hhashed
  · exact List.foldlRecOn (motive := fun log => Exact log all) _ _ hhashed
      fun log h step _ => notifyWhole_exact h name htotal hroom step

/-- What is done and what is left come to the total throughout. -/
theorem installFrom_exact {all : ℕ} (name : String) {total : UInt64}
    (htotal : total.toNat = all) (w : Folder) (files : List RemoteFile) (done : UInt64)
    (hdone : done.toNat + selected files = all) (downloaded : Bool)
    {log : Log unfinished} (h : Exact log all) :
    Exact (installFrom name total w files done downloaded log).log all := by
  induction files generalizing done downloaded log with
  | nil => exact h
  | cons file files ih =>
      rw [selected_cons] at hdone
      have hlt := total.toNat_lt
      have hhandled : Exact (handle name total (w.handle file) file done log).log all :=
        handle_exact h name htotal (by omega) _
      have hfits : Fits (done, size file) := by
        unfold Fits
        dsimp only
        omega
      unfold installFrom
      dsimp only
      split
      · exact hhandled
      · refine ih _ ?_ _ ((hhandled.added hfits).progress ?_ htotal _ _ _ _)
        · rw [hfits.toNat_add]
          omega
        · rw [UInt64.le_iff_toNat_le, hfits.toNat_add]
          omega

/-- Summing the sizes up overflows exactly if the sum is too large for a word. -/
theorem foldl_sums (files : List RemoteFile) (total : UInt64) (log : Log unfinished) :
    let summed := files.foldl (fun (total, log) file =>
      (total + size file, log.added total (size file))) (total, log)
    summed.2.reports = log.reports ∧ log.sums ⊆ summed.2.sums ∧
      ((∀ pair ∈ summed.2.sums, Fits pair) ↔
        (∀ pair ∈ log.sums, Fits pair) ∧ total.toNat + selected files < 2 ^ 64) ∧
      (total.toNat + selected files < 2 ^ 64 →
        summed.1.toNat = total.toNat + selected files) := by
  induction files generalizing total log with
  | nil =>
      have hlt := total.toNat_lt
      exact ⟨rfl, List.Subset.refl _, (and_iff_left hlt).symm, fun _ => rfl⟩
  | cons file files ih =>
      obtain ⟨hreports, hsubset, hfits, hsum⟩ :=
        ih (total + size file) (log.added total (size file))
      have hadded : (∀ pair ∈ (log.added total (size file)).sums, Fits pair) ↔
          (∀ pair ∈ log.sums, Fits pair) ∧ Fits (total, size file) := by
        rw [Log.added, List.forall_mem_append, List.forall_mem_singleton]
      rw [selected_cons]
      have hmore := List.Subset.trans (List.subset_append_left _ _) hsubset
      refine ⟨hreports, hmore, ?_, fun hlt => ?_⟩
      · rw [List.foldl_cons, hfits, hadded, and_assoc]
        refine and_congr_right fun _ => ?_
        constructor
        · rintro ⟨hpair, hrest⟩
          rw [hpair.toNat_add] at hrest
          omega
        · intro hlt
          have hpair : Fits (total, size file) := by
            unfold Fits
            dsimp only
            omega
          refine ⟨hpair, ?_⟩
          rw [hpair.toNat_add]
          omega
      · have hpair : Fits (total, size file) := by
          unfold Fits
          dsimp only
          omega
        rw [List.foldl_cons, hsum (by rw [hpair.toNat_add]; omega), hpair.toNat_add,
          Nat.add_assoc]

theorem notifyWhole_sums (name : String) (file : RemoteFile) (done total : UInt64)
    (log : Log unfinished) (step : Install.Step) :
    log.sums ⊆ (notifyWhole name file done total log step).sums := by
  cases step with
  | onDisk bytes => exact List.subset_append_left _ _
  | verifying => exact List.Subset.refl _

theorem handle_sums (name : String) (total : UInt64) (w : Handling) (file : RemoteFile)
    (done : UInt64) (log : Log unfinished) :
    log.sums ⊆ (handle name total w file done log).log.sums := by
  have hhashed : log.sums ⊆
      (if w.hashed then log.event name .verifying else log).sums := by
    split
    · exact List.Subset.refl _
    · exact List.Subset.refl _
  unfold handle
  dsimp only
  split
  · exact hhashed
  · exact hhashed
  · exact List.foldlRecOn
      (motive := fun log' : Log unfinished => log.sums ⊆ log'.sums) _ _ hhashed
      fun log' h step _ =>
        List.Subset.trans h (notifyWhole_sums name file done total log' step)

theorem installFrom_sums (name : String) (total : UInt64) (w : Folder)
    (files : List RemoteFile) (done : UInt64) (downloaded : Bool)
    (log : Log unfinished) :
    log.sums ⊆ (installFrom name total w files done downloaded log).log.sums := by
  induction files generalizing done downloaded log with
  | nil => exact List.Subset.refl _
  | cons file files ih =>
      have hhandled := handle_sums name total (w.handle file) file done log
      unfold installFrom
      dsimp only
      split
      · exact hhandled
      · refine List.Subset.trans hhandled (List.Subset.trans ?_ (ih _ _ _))
        exact List.subset_append_left _ _

/-- What an install of files reports and adds is right exactly if the sizes' sum is a
word, where it comes to the sum at all. -/
theorem install_exact (name : String) (w : Folder) (wanted : List RemoteFile) :
    Exact (install name w wanted : Ended unfinished Outcome).log (selected wanted) ↔
      (w.cleared = .ok () → selected wanted < 2 ^ 64) := by
  obtain ⟨hreports, -, hfits, hsum⟩ := foldl_sums wanted 0 (.new : Log unfinished)
  rw [UInt64.toNat_zero, Nat.zero_add] at hfits hsum
  have hall : (∀ pair ∈ (sum wanted (.new : Log unfinished)).2.sums, Fits pair) ↔
      selected wanted < 2 ^ 64 := hfits.trans (and_iff_right (by simp [Log.new]))
  constructor
  · intro hexact hcleared
    refine hall.mp fun pair hpair => hexact.sums pair ?_
    have hmore := installFrom_sums name (sum wanted (.new : Log unfinished)).1 w wanted
      0 false (sum wanted .new).2 hpair
    unfold install
    rw [hcleared]
    dsimp only
    split
    · exact hmore
    · exact hmore
    · exact hmore
  · intro hlt
    unfold install
    split
    · exact ⟨by simp [Log.new], by simp [Log.new]⟩
    · rename_i hcleared
      have hselected := hlt hcleared
      have htotal : (sum wanted (.new : Log unfinished)).1.toNat = selected wanted :=
        hsum hselected
      have hstart : Exact (sum wanted (.new : Log unfinished)).2 (selected wanted) := by
        refine ⟨?_, hall.mpr hselected⟩
        intro report hreport
        change report ∈ (List.foldl _ (0, (.new : Log unfinished)) wanted).2.reports
          at hreport
        rw [hreports] at hreport
        cases hreport
      have hthrough := installFrom_exact name htotal w wanted 0
        (by rw [UInt64.toNat_zero, Nat.zero_add]) false hstart
      dsimp only
      split
      · exact hthrough
      · exact hthrough
      · exact hthrough.progress (UInt64.le_iff_toNat_le.mpr (Nat.le_refl _)) htotal
          _ _ _ _

/-- The fractions of an install climb to 1 and reach it just in the last report, with
the marker or the record on disk, of a run that installs. What an install of files
reports of the selected ones is within their sizes' sum, and nothing overflows, exactly
if that sum is a word or no sum is taken. -/
theorem progress_exact (hunfinished : unfinished < 1) (name : String) :
    (∀ (size : UInt64) (w : Archive),
      Climbs (installOne name size w : Ended unfinished Bool).log.reports
        ((installOne name size w : Ended unfinished Bool).result = .ok true)) ∧
    ∀ (early : Option Early) (w : Folder) (select : Select) (listing : Listing),
      (∀ file ∈ listing.files, file.size < 2 ^ 64) →
      Climbs (installFiles name early w select listing :
          Ended unfinished Outcome).log.reports
        (Installs (installFiles name early w select listing :
          Ended unfinished Outcome).result) ∧
      ∀ files, wanted select listing = .ok files →
        (Exact (installFiles name early w select listing :
            Ended unfinished Outcome).log (files.map RemoteFile.size).sum ↔
          (early = none → w.cleared = .ok () →
            (files.map RemoteFile.size).sum < 2 ^ 64)) := by
  refine ⟨installOne_climbs hunfinished name, fun early w select listing hsizes => ?_⟩
  refine ⟨installFiles_climbs hunfinished name early w select listing, ?_⟩
  intro files hwanted
  have hlisted : ∀ file ∈ files, file.size < 2 ^ 64 :=
    fun file hfile =>
      hsizes file (List.mem_of_mem_filter (wanted_eq_ok hwanted ▸ hfile))
  rw [← selected_eq hlisted]
  unfold installFiles
  cases early with
  | some early =>
      exact iff_of_true ⟨by simp [Log.new], by simp [Log.new]⟩ (by simp)
  | none =>
      rw [hwanted]
      dsimp only
      rw [install_exact]
      exact ⟨fun h _ => h, fun h => h rfl⟩

end Summing

section Examples

/-- A folder that lists two files of one size. -/
def twoOf (size : ℕ) : Listing where
  folder := "d"
  files := [⟨"d/a", size, .sha256 "aa"⟩, ⟨"d/b", size, .sha256 "bb"⟩]
  once := by
    simp only [List.map, RemoteFile.fileName]
    decide +kernel

/-- Files that are downloaded, with two updates each. -/
def downloads : Folder where
  cleared := .ok ()
  handle file := ⟨false, .ok false, [.onDisk 0, .onDisk file.size], .ok ()⟩
  recorded := .ok ()

theorem progress_exact_twoOf :
    Climbs (installFiles "d" none downloads (.starting "") (twoOf 5) :
        Ended (9 / 10) Outcome).log.reports
      (Installs (installFiles "d" none downloads (.starting "") (twoOf 5) :
        Ended (9 / 10) Outcome).result) ∧
    Exact (installFiles "d" none downloads (.starting "") (twoOf 5) :
      Ended (9 / 10) Outcome).log 10 := by
  have hunfinished : (9 / 10 : ℚ) < 1 := by decide +kernel
  have hsizes : ∀ file ∈ (twoOf 5).files, file.size < 2 ^ 64 := by simp [twoOf]
  have hwanted : wanted (.starting "") (twoOf 5) = .ok (twoOf 5).files := by
    decide +kernel
  obtain ⟨hclimbs, hexact⟩ := (progress_exact hunfinished "d").2 none downloads
    (.starting "") (twoOf 5) hsizes
  exact ⟨hclimbs, (hexact _ hwanted).mpr fun _ _ => by decide⟩

/-- Two files of 2⁶³ bytes are more than a word counts. -/
theorem sizes_overflow :
    (∀ file ∈ (twoOf (2 ^ 63)).files, file.size < 2 ^ 64) ∧
    ¬Exact (installFiles "d" none downloads (.starting "") (twoOf (2 ^ 63)) :
      Ended (9 / 10) Outcome).log ((twoOf (2 ^ 63)).files.map RemoteFile.size).sum := by
  have hsizes : ∀ file ∈ (twoOf (2 ^ 63)).files, file.size < 2 ^ 64 := by simp [twoOf]
  have hwanted : wanted (.starting "") (twoOf (2 ^ 63)) =
      .ok (twoOf (2 ^ 63)).files := by
    decide +kernel
  refine ⟨hsizes, fun hexact => ?_⟩
  rw [← selected_eq hsizes] at hexact
  unfold installFiles at hexact
  rw [hwanted] at hexact
  have hlt := (install_exact "d" downloads (twoOf (2 ^ 63)).files).mp hexact rfl
  rw [selected_eq hsizes] at hlt
  simp [twoOf] at hlt

end Examples

end Progress

end Ai

end RustSak
