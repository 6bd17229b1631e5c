import RustSak.Fs.SkippedLinks

/-!
# What an extraction reports

The reporter is fed by the copies as their bytes pass and once by every visit that
succeeds. It hands the hook a snapshot at the end of every entry, and in between when
enough bytes have passed or enough time. How a copy is cut into writes, and at which
of them the time is up, is left open.
-/

namespace RustSak

namespace Fs

open Library

def progressBytes : UInt64 := 256 * 1024

/-- What the archive's header says it holds. -/
structure Totals where
  entries : Option UInt64
  bytes : Option UInt64

structure ExtractProgress where
  entries : UInt64
  bytes : UInt64
  totalEntries : Option UInt64
  totalBytes : Option UInt64
  deriving DecidableEq

/-- One write of a copy: the bytes it took, and whether the interval since the last
report is over by then. -/
structure Chunk where
  bytes : ℕ
  due : Bool

/-- How copies are cut: of however many bytes, into writes of some each. -/
structure Copying where
  chunks : ℕ → List Chunk
  sum_chunks : ∀ n, ((chunks n).map Chunk.bytes).sum = n
  positive : ∀ n, ∀ chunk ∈ chunks n, 0 < chunk.bytes

/-- `reports` are what the hook was called with, in that order. -/
structure Reporter where
  hooked : Bool
  progress : ExtractProgress
  reportedBytes : UInt64
  reports : List ExtractProgress

namespace Reporter

def new (hooked : Bool) (totals : Totals) : Reporter where
  hooked := hooked
  progress := ⟨0, 0, totals.entries, totals.bytes⟩
  reportedBytes := 0
  reports := []

variable (r : Reporter)

def flush : Reporter :=
  { r with
    reports := if r.hooked then r.reports ++ [r.progress] else r.reports
    reportedBytes := r.progress.bytes }

def advance (chunk : Chunk) : Reporter :=
  let r := { r with
    progress := { r.progress with bytes := r.progress.bytes + UInt64.ofNat chunk.bytes } }
  if progressBytes ≤ r.progress.bytes - r.reportedBytes ∨ chunk.due = true then r.flush
  else r

def finishEntry : Reporter :=
  flush { r with progress := { r.progress with entries := r.progress.entries + 1 } }

end Reporter

/-- An extractor with its reporter. -/
structure Reporting (ρ : Type) where
  extractor : Extractor ρ
  reporter : Reporter

/-- An entry, its stream, and how its copy is cut. -/
abbrev Offered := RawEntry × Data × Copying

namespace Reporting

variable {ρ : Type}

def new (root : ρ) (hooked : Bool) (totals : Totals) : Reporting ρ :=
  ⟨.new root, .new hooked totals⟩

def visit (options : ExtractOptions) (R : Root ρ) (x : Reporting ρ) (offered : Offered) :
    Reporting ρ × FsResult Unit :=
  let visited := x.extractor.visit options R offered.1 offered.2.1
  let reporter := (offered.2.2.chunks visited.wrote).foldl Reporter.advance x.reporter
  match visited.result with
  | .ok () => (⟨visited.extractor, reporter.finishEntry⟩, .ok ())
  | .error err => (⟨visited.extractor, reporter⟩, .error err)

def visitAll (options : ExtractOptions) (R : Root ρ) :
    Reporting ρ → List Offered → Reporting ρ × FsResult Unit
  | x, [] => (x, .ok ())
  | x, offered :: entries =>
      match x.visit options R offered with
      | (x, .error err) => (x, .error err)
      | (x, .ok ()) => visitAll options R x entries

/-- Extracts the entries, and finishes if all went well; the reporter is as it was
left. -/
def extract (options : ExtractOptions) (R : UnixRoot ρ) (x : Reporting ρ)
    (entries : List Offered) : (ρ × FsResult ExtractSummary) × Reporter :=
  match x.visitAll options R.toRoot entries with
  | (x, .error err) => ((x.extractor.root, .error err), x.reporter)
  | (x, .ok ()) => (x.extractor.finish R, x.reporter)

/-- The lengths the visits write, of what is no file nothing. -/
def lengths (options : ExtractOptions) (R : Root ρ) : Extractor ρ → List Offered → List ℕ
  | _, [] => []
  | x, offered :: entries =>
      let visited := x.visit options R offered.1 offered.2.1
      visited.wrote :: lengths options R visited.extractor entries

/-- How long what is read of an entry's body is. -/
def bodyLength (offered : Offered) : ℕ :=
  (Visit.read ⟨offered.1, offered.2.1, .ok (), 0⟩).length

end Reporting

/-- An extraction has accounted for its `n` entries and the lengths it wrote. -/
structure Accounts (n : ℕ) (lengths : List ℕ) (summary : ExtractSummary)
    (reporter : Reporter) : Prop where
  visits : summary.files.toNat + summary.directories.toNat + summary.symlinks.toNat +
    summary.skipped.toNat = n
  entries : reporter.progress.entries.toNat = n
  bytes : reporter.progress.bytes = summary.bytes
  written : summary.bytes.toNat = lengths.sum
  nondecreasing : reporter.reports.Pairwise fun a b =>
    a.entries ≤ b.entries ∧ a.bytes ≤ b.bytes
  /-- Every visit is followed by a report. -/
  last : reporter.hooked = true →
    reporter.reports.getLast? = if n = 0 then none else some reporter.progress

/-! ## One visit -/

namespace Extractor

variable {ρ : Type} {options : ExtractOptions} {R : Root ρ} {x : Extractor ρ}

/-- A visit that succeeds is counted once in the summary, and with it what it wrote. -/
def Counts (s : ExtractSummary) (r : Visited ρ) : Prop :=
  r.result = .ok () →
    r.extractor.summary = { s with
        files := s.files + 1
        bytes := s.bytes + UInt64.ofNat r.wrote } ∨
    r.wrote = 0 ∧ (r.extractor.summary = { s with directories := s.directories + 1 } ∨
      r.extractor.summary = { s with symlinks := s.symlinks + 1 } ∨
      r.extractor.summary = { s with skipped := s.skipped + 1 })

theorem counts_error (s : ExtractSummary) (x' : Extractor ρ) (err : FsError) (n : ℕ) :
    Counts s ⟨x', .error err, n⟩ := nofun

theorem counts_skip (x : Extractor ρ) : Counts x.summary ⟨x.skip, .ok (), 0⟩ :=
  fun _ => .inr ⟨rfl, .inr (.inr rfl)⟩

theorem visitDir_counts (path : Location) (mode : Option UInt32) :
    Counts x.summary (visitDir R x path mode) := by
  unfold visitDir
  split
  · exact counts_error _ _ _ _
  · exact fun _ => .inr ⟨rfl, .inl rfl⟩

theorem visitFile_counts (entry : RawEntry) (path : Location) (data : Data) :
    Counts x.summary (visitFile options R x entry path data) := by
  unfold visitFile
  dsimp only
  split
  · exact counts_error _ _ _ _
  · split
    · exact counts_error _ _ _ _
    · split
      · exact counts_error _ _ _ _
      · split
        · exact counts_error _ _ _ _
        · exact fun _ => .inl rfl

theorem visitSymlink_counts (entry : RawEntry) (components : List Name) (data : Data) :
    Counts x.summary (visitSymlink options R x entry components data) := by
  have hskip : ∀ root : ρ, Counts x.summary ⟨({ x with root := root }).skip, .ok (), 0⟩ :=
    fun root => counts_skip { x with root := root }
  unfold visitSymlink
  split
  · exact hskip x.root
  · dsimp only
    split
    · exact counts_error _ _ _ _
    · split
      · exact counts_error _ _ _ _
      · split
        · exact counts_error _ _ _ _
        · exact hskip _
        · split
          · exact counts_error _ _ _ _
          · exact fun _ => .inr ⟨rfl, .inr (.inl rfl)⟩

theorem visit_counts (entry : RawEntry) (data : Data) :
    Counts x.summary (x.visit options R entry data) := by
  unfold visit
  split
  · exact counts_error _ _ _ _
  · rename_i budget _
    dsimp only
    split
    · exact counts_error _ _ _ _
    · exact counts_skip { x with budget := budget }
    · split
      · exact visitDir_counts (x := { x with budget := budget }) _ _
      · exact visitFile_counts (x := { x with budget := budget }) _ _ _
      · exact visitSymlink_counts (x := { x with budget := budget }) _ _ _
      · exact counts_skip { x with budget := budget }

/-- A visit that succeeds has written what it read. -/
theorem wrote_of_visit (offered : Offered)
    (h : (x.visit options R offered.1 offered.2.1).result = .ok ()) :
    (x.visit options R offered.1 offered.2.1).wrote = Reporting.bodyLength offered := by
  rcases visit_cases options R x ⟨offered.1, offered.2.1, .ok (), 0⟩ with
    ⟨max, -, herr, -⟩ | ⟨-, ⟨hquiet, hread⟩ | hwrote⟩
  · exact absurd (herr.symm.trans h) nofun
  · rw [hquiet.wrote, Reporting.bodyLength, hread h]
    rfl
  · exact (hwrote.kept h).1

end Extractor

/-! ## The extraction itself -/

namespace Reporting

variable {ρ : Type} {options : ExtractOptions}

/-- The entries without how they are copied. -/
def plain (entries : List Offered) : List (RawEntry × Data) :=
  entries.map fun offered => (offered.1, offered.2.1)

theorem visit_ok {R : Root ρ} {x : Reporting ρ} {offered : Offered}
    (h : (x.extractor.visit options R offered.1 offered.2.1).result = .ok ()) :
    x.visit options R offered =
      (⟨(x.extractor.visit options R offered.1 offered.2.1).extractor,
        ((offered.2.2.chunks (bodyLength offered)).foldl Reporter.advance
          x.reporter).finishEntry⟩, .ok ()) := by
  rw [← Extractor.wrote_of_visit offered h]
  unfold visit
  dsimp only
  rw [h]

theorem visit_error {R : Root ρ} {x : Reporting ρ} {offered : Offered} {err : FsError}
    (h : (x.extractor.visit options R offered.1 offered.2.1).result = .error err) :
    (x.visit options R offered).1.extractor =
        (x.extractor.visit options R offered.1 offered.2.1).extractor ∧
      (x.visit options R offered).2 = .error err := by
  unfold visit
  dsimp only
  rw [h]
  exact ⟨rfl, rfl⟩

theorem visitAll_cons_ok {R : Root ρ} {x : Reporting ρ} {offered : Offered}
    (h : (x.extractor.visit options R offered.1 offered.2.1).result = .ok ())
    (entries : List Offered) :
    x.visitAll options R (offered :: entries) =
      visitAll options R ⟨(x.extractor.visit options R offered.1 offered.2.1).extractor,
        ((offered.2.2.chunks (bodyLength offered)).foldl Reporter.advance
          x.reporter).finishEntry⟩ entries := by
  rw [visitAll, visit_ok h]

theorem visitAll_cons_error {R : Root ρ} {x : Reporting ρ} {offered : Offered}
    {err : FsError}
    (h : (x.extractor.visit options R offered.1 offered.2.1).result = .error err)
    (entries : List Offered) :
    (x.visitAll options R (offered :: entries)).1.extractor =
        (x.extractor.visit options R offered.1 offered.2.1).extractor ∧
      (x.visitAll options R (offered :: entries)).2 = .error err := by
  obtain ⟨hextractor, herr⟩ := visit_error (R := R) h
  rw [visitAll]
  cases hvisit : x.visit options R offered with
  | mk x' result =>
      rw [hvisit] at hextractor herr
      obtain rfl : result = .error err := herr
      exact ⟨hextractor, rfl⟩

/-- Reporting changes nothing of the visits. -/
theorem visitAll_extractor (R : Root ρ) (x : Reporting ρ) (entries : List Offered) :
    x.extractor.visitAll options R (plain entries) =
      ((x.visitAll options R entries).1.extractor, (x.visitAll options R entries).2) := by
  induction entries generalizing x with
  | nil => rfl
  | cons offered entries ih =>
      rw [plain, List.map_cons, ← plain]
      cases hresult : (x.extractor.visit options R offered.1 offered.2.1).result with
      | ok u =>
          rw [visitAll_cons_ok hresult, Extractor.visitAll_cons_ok hresult]
          exact ih ⟨_, _⟩
      | error err =>
          obtain ⟨hextractor, herr⟩ := visitAll_cons_error hresult entries
          rw [hextractor, herr, Extractor.visitAll, hresult]

/-- Nor of the extraction. -/
theorem extract_fst (R : UnixRoot ρ) (x : Reporting ρ) (entries : List Offered) :
    (x.extract options R entries).1 =
      x.extractor.extract options R (plain entries) := by
  rw [extract, Extractor.extract, visitAll_extractor]
  cases x.visitAll options R.toRoot entries with
  | mk x' result =>
      cases result with
      | ok u => rfl
      | error err => rfl

end Reporting

/-! ## The reports -/

namespace Reporter

variable {counts : List (ℕ × ℕ)} {n total : ℕ} {totals : Totals} {r : Reporter}

/-- Entries and bytes as the hook reads them. -/
def read (totals : Totals) (count : ℕ × ℕ) : ExtractProgress :=
  ⟨UInt64.ofNat count.1, UInt64.ofNat count.2, totals.entries, totals.bytes⟩

/-- The reporter has come to `n` entries and `total` bytes, and was at `counts`, one
after another, when it called the hook. -/
structure Tells (totals : Totals) (counts : List (ℕ × ℕ)) (n total : ℕ) (r : Reporter) :
    Prop where
  progress : r.progress = read totals (n, total)
  reports : r.reports = counts.map (read totals)
  sorted : (counts ++ [(n, total)]).Pairwise (· ≤ ·)

/-- What comes later is not less. -/
theorem Tells.pairwise (h : Tells totals counts n total r) {n' total' : ℕ} (hn : n ≤ n')
    (htotal : total ≤ total') : (counts ++ [(n', total')]).Pairwise (· ≤ ·) := by
  obtain ⟨hcounts, -, hle⟩ := List.pairwise_append.mp h.sorted
  refine List.pairwise_append.mpr ⟨hcounts, List.pairwise_singleton _ _, ?_⟩
  intro count hcount _ hlast
  rw [List.mem_singleton.mp hlast]
  exact (hle count hcount _ (List.mem_singleton_self _)).trans ⟨hn, htotal⟩

theorem Tells.flush (h : Tells totals counts n total r) :
    ∃ counts', Tells totals counts' n total r.flush := by
  cases hhooked : r.hooked with
  | false =>
      refine ⟨counts, h.progress, ?_, h.sorted⟩
      rw [Reporter.flush, hhooked]
      exact h.reports
  | true =>
      refine ⟨counts ++ [(n, total)], h.progress, ?_, ?_⟩
      · rw [Reporter.flush, hhooked, if_pos rfl, h.reports, h.progress, List.map_append]
        rfl
      · refine List.pairwise_append.mpr ⟨h.sorted, List.pairwise_singleton _ _, ?_⟩
        intro count hcount _ hlast
        rw [List.mem_singleton.mp hlast]
        rcases List.mem_append.mp hcount with hcount | hcount
        · exact (List.pairwise_append.mp h.sorted).2.2 count hcount _
            (List.mem_singleton_self _)
        · rw [List.mem_singleton.mp hcount]

theorem Tells.advance (h : Tells totals counts n total r) (chunk : Chunk) :
    ∃ counts', Tells totals counts' n (total + chunk.bytes) (r.advance chunk) := by
  have hbytes : Tells totals counts n (total + chunk.bytes) { r with
      progress := { r.progress with
        bytes := r.progress.bytes + UInt64.ofNat chunk.bytes } } := by
    refine ⟨?_, h.reports, h.pairwise le_rfl (Nat.le_add_right _ _)⟩
    rw [h.progress]
    simp only [read, UInt64.ofNat_add]
  unfold Reporter.advance
  dsimp only
  split
  · exact hbytes.flush
  · exact ⟨counts, hbytes⟩

theorem Tells.copied (h : Tells totals counts n total r) (chunks : List Chunk) :
    ∃ counts', Tells totals counts' n (total + (chunks.map Chunk.bytes).sum)
      (chunks.foldl Reporter.advance r) := by
  induction chunks generalizing counts total r with
  | nil => exact ⟨counts, h⟩
  | cons chunk chunks ih =>
      obtain ⟨counts', hadvance⟩ := h.advance chunk
      rw [List.map_cons, List.sum_cons, ← Nat.add_assoc]
      exact ih hadvance

theorem Tells.finishEntry (h : Tells totals counts n total r) :
    ∃ counts', Tells totals counts' (n + 1) total r.finishEntry := by
  have hentry : Tells totals counts (n + 1) total
      { r with progress := { r.progress with entries := r.progress.entries + 1 } } := by
    refine ⟨?_, h.reports, h.pairwise (Nat.le_succ n) le_rfl⟩
    rw [h.progress]
    simp only [read, UInt64.ofNat_add]
    rfl
  exact hentry.flush

theorem hooked_advance (chunk : Chunk) : (r.advance chunk).hooked = r.hooked := by
  unfold advance
  dsimp only
  split
  · rfl
  · rfl

theorem hooked_copied (chunks : List Chunk) :
    (chunks.foldl advance r).hooked = r.hooked := by
  induction chunks generalizing r with
  | nil => rfl
  | cons chunk chunks ih => rw [List.foldl_cons, ih, hooked_advance]

/-- The end of an entry is reported. -/
theorem getLast_finishEntry (h : r.hooked = true) :
    r.finishEntry.reports.getLast? = some r.finishEntry.progress := by
  simp [finishEntry, flush, h]

end Reporter

/-! ## The whole run -/

/-- The summary has counted `n` visits, each once, and `total` bytes. -/
def Books (n total : ℕ) (summary : ExtractSummary) : Prop :=
  ∃ files directories symlinks skipped, files + directories + symlinks + skipped = n ∧
    summary = ⟨UInt64.ofNat files, UInt64.ofNat directories, UInt64.ofNat symlinks,
      UInt64.ofNat skipped, UInt64.ofNat total⟩

theorem Books.visit {ρ : Type} {n total : ℕ} {summary : ExtractSummary} {r : Visited ρ}
    (h : Books n total summary) (hcounts : Extractor.Counts summary r)
    (hok : r.result = .ok ()) : Books (n + 1) (total + r.wrote) r.extractor.summary := by
  obtain ⟨files, directories, symlinks, skipped, rfl, rfl⟩ := h
  rcases hcounts hok with heq | ⟨hzero, heq | heq | heq⟩
  · refine ⟨files + 1, directories, symlinks, skipped, by omega, ?_⟩
    simp only [heq, UInt64.ofNat_add]
    rfl
  · refine ⟨files, directories + 1, symlinks, skipped, by omega, ?_⟩
    simp only [heq, hzero, Nat.add_zero, UInt64.ofNat_add]
    rfl
  · refine ⟨files, directories, symlinks + 1, skipped, by omega, ?_⟩
    simp only [heq, hzero, Nat.add_zero, UInt64.ofNat_add]
    rfl
  · refine ⟨files, directories, symlinks, skipped + 1, by omega, ?_⟩
    simp only [heq, hzero, Nat.add_zero, UInt64.ofNat_add]
    rfl

/-- Finishing leaves the summary as it is. -/
theorem Extractor.summary_of_finish {ρ : Type} {R : UnixRoot ρ} {x : Extractor ρ}
    {root : ρ} {summary : ExtractSummary} (h : x.finish R = (root, .ok summary)) :
    summary = x.summary := by
  unfold finish at h
  split at h
  · cases h
  · split at h
    · cases h
    · exact (Except.ok.inj (congrArg Prod.snd h)).symm

namespace Reporting

variable {ρ : Type} {options : ExtractOptions} {R : Root ρ}

/-- What the visits of some entries, all of which succeed, leave of an extraction that
has come to `n` entries and `total` bytes. -/
theorem visitAll_tells {totals : Totals} {x x' : Reporting ρ} {counts : List (ℕ × ℕ)}
    {n total : ℕ} {entries : List Offered} (h : x.reporter.Tells totals counts n total)
    (hbooks : Books n total x.extractor.summary)
    (hall : x.visitAll options R entries = (x', .ok ())) :
    lengths options R x.extractor entries = entries.map bodyLength ∧
      (∃ counts', x'.reporter.Tells totals counts' (n + entries.length)
        (total + (entries.map bodyLength).sum)) ∧
      Books (n + entries.length) (total + (entries.map bodyLength).sum)
        x'.extractor.summary ∧
      x'.reporter.hooked = x.reporter.hooked ∧
      (x.reporter.hooked = true → entries ≠ [] →
        x'.reporter.reports.getLast? = some x'.reporter.progress) := by
  induction entries generalizing x counts n total with
  | nil =>
      cases hall
      exact ⟨rfl, ⟨counts, h⟩, hbooks, rfl, fun _ hne => absurd rfl hne⟩
  | cons offered entries ih =>
      cases hresult : (x.extractor.visit options R offered.1 offered.2.1).result with
      | error err =>
          have herr := (visitAll_cons_error hresult entries).2
          rw [hall] at herr
          cases herr
      | ok u =>
          rw [visitAll_cons_ok hresult] at hall
          have hwrote := Extractor.wrote_of_visit offered hresult
          obtain ⟨counts₁, hcopied⟩ := h.copied (offered.2.2.chunks (bodyLength offered))
          obtain ⟨counts₂, hfinished⟩ := hcopied.finishEntry
          have hvisited := hbooks.visit (Extractor.visit_counts offered.1 offered.2.1) hresult
          rw [offered.2.2.sum_chunks] at hfinished
          rw [hwrote] at hvisited
          obtain ⟨hlengths, htells, hbooks', hhooked, hlast⟩ := ih hfinished hvisited hall
          have hhooked₁ : (((offered.2.2.chunks (bodyLength offered)).foldl Reporter.advance
              x.reporter).finishEntry).hooked = x.reporter.hooked :=
            Reporter.hooked_copied _
          rw [List.length_cons, List.map_cons, List.sum_cons, Nat.add_comm entries.length,
            ← Nat.add_assoc, ← Nat.add_assoc]
          refine ⟨?_, htells, hbooks', hhooked.trans hhooked₁, fun hhook _ => ?_⟩
          · rw [lengths, hwrote, hlengths]
          · cases entries with
            | nil =>
                cases hall
                exact Reporter.getLast_finishEntry ((Reporter.hooked_copied _).trans hhook)
            | cons next rest => exact hlast (hhooked₁.trans hhook) (List.cons_ne_nil _ _)

theorem of_extract {R : UnixRoot ρ} {x : Reporting ρ} {entries : List Offered}
    {root' : ρ} {summary : ExtractSummary} {reporter : Reporter}
    (h : x.extract options R entries = ((root', .ok summary), reporter)) :
    ∃ x', x.visitAll options R.toRoot entries = (x', .ok ()) ∧
      x'.extractor.finish R = (root', .ok summary) ∧ x'.reporter = reporter := by
  unfold extract at h
  split at h
  · cases h
  · rename_i x' hall
    exact ⟨x', hall, congrArg Prod.fst h, congrArg Prod.snd h⟩

section Finished

variable {R : UnixRoot ρ} {root root' : ρ} {hooked : Bool} {totals : Totals}
  {entries : List Offered} {summary : ExtractSummary} {reporter : Reporter}

/-- What a finished extraction has counted, in 64 bits. -/
theorem told_of_extract
    (h : (new root hooked totals).extract options R entries =
      ((root', .ok summary), reporter)) :
    lengths options R.toRoot (.new root) entries = entries.map bodyLength ∧
      (∃ counts, reporter.Tells totals counts entries.length
        (entries.map bodyLength).sum) ∧
      Books entries.length (entries.map bodyLength).sum summary ∧
      (reporter.hooked = true → reporter.reports.getLast? =
        if entries.length = 0 then none else some reporter.progress) := by
  obtain ⟨x, hall, hfinish, rfl⟩ := of_extract h
  have hstart : (Reporter.new hooked totals).Tells totals [] 0 0 :=
    ⟨rfl, rfl, List.pairwise_singleton _ _⟩
  obtain ⟨hlengths, htells, hbooks, hhooked, hlast⟩ :=
    visitAll_tells hstart ⟨0, 0, 0, 0, rfl, rfl⟩ hall
  rw [Nat.zero_add, Nat.zero_add] at htells hbooks
  rw [Extractor.summary_of_finish hfinish]
  refine ⟨hlengths, htells, hbooks, fun hhook => ?_⟩
  cases entries with
  | nil =>
      cases hall
      rfl
  | cons offered entries => exact hlast (hhooked.symm.trans hhook) (List.cons_ne_nil _ _)

theorem bounds_of_accounts
    (h : (new root hooked totals).extract options R entries =
      ((root', .ok summary), reporter))
    (haccounts : Accounts entries.length (lengths options R.toRoot (.new root) entries)
      summary reporter) :
    entries.length < 2 ^ 64 ∧ (entries.map bodyLength).sum < 2 ^ 64 := by
  have hentries := haccounts.entries
  have hbytes := haccounts.written
  rw [(told_of_extract h).1] at hbytes
  rw [← hentries, ← hbytes]
  exact ⟨UInt64.toNat_lt _, UInt64.toNat_lt _⟩

theorem accounts_of_bounds
    (h : (new root hooked totals).extract options R entries =
      ((root', .ok summary), reporter))
    (hentries : entries.length < 2 ^ 64) (hbytes : (entries.map bodyLength).sum < 2 ^ 64) :
    Accounts entries.length (lengths options R.toRoot (.new root) entries) summary
      reporter := by
  obtain ⟨hlengths, ⟨counts, htells⟩, hbooks, hlast⟩ := told_of_extract h
  obtain ⟨files, directories, symlinks, skipped, hsum, rfl⟩ := hbooks
  have hread : ∀ n < 2 ^ 64, (UInt64.ofNat n).toNat = n := fun n hn =>
    UInt64.toNat_ofNat_of_lt' hn
  refine ⟨?_, ?_, ?_, ?_, ?_, hlast⟩
  · dsimp only
    rw [hread _ (by omega), hread _ (by omega), hread _ (by omega), hread _ (by omega),
      hsum]
  · rw [htells.progress]
    exact hread _ hentries
  · rw [htells.progress]
    rfl
  · rw [hlengths]
    exact hread _ hbytes
  · obtain ⟨hcounts, -, hle⟩ := List.pairwise_append.mp htells.sorted
    rw [htells.reports, List.pairwise_map]
    have hfits : ∀ count ∈ counts, count.1 < 2 ^ 64 ∧ count.2 < 2 ^ 64 := by
      intro count hcount
      have hcount := hle count hcount _ (List.mem_singleton_self _)
      exact ⟨hcount.1.trans_lt hentries, hcount.2.trans_lt hbytes⟩
    refine hcounts.imp_of_mem fun {a b} ha hb hab => ?_
    rw [UInt64.le_iff_toNat_le, UInt64.le_iff_toNat_le, Reporter.read, Reporter.read,
      hread _ (hfits a ha).1, hread _ (hfits a ha).2, hread _ (hfits b hb).1,
      hread _ (hfits b hb).2]
    exact hab

/-- A finished extraction accounts for every entry if and only if there are fewer
entries, and fewer bytes in their files, than 64 bits count. -/
theorem progress_accounts_iff
    (h : (new root hooked totals).extract options R entries =
      ((root', .ok summary), reporter)) :
    Accounts entries.length (lengths options R.toRoot (.new root) entries) summary
        reporter ↔
      entries.length < 2 ^ 64 ∧ (entries.map bodyLength).sum < 2 ^ 64 :=
  ⟨bounds_of_accounts h, fun ⟨hentries, hbytes⟩ => accounts_of_bounds h hentries hbytes⟩

end Finished

/-- Copied a byte at a time. -/
def bytewise : Copying where
  chunks n := .replicate n ⟨1, false⟩
  sum_chunks n := by simp
  positive n chunk hchunk := by
    rw [List.eq_of_mem_replicate hchunk]
    exact Nat.one_pos

/-- A file of two bytes and what is no file. -/
def mixed : List Offered :=
  [(fileEntry ['a'] 2, zeros 2, bytewise),
    (⟨['b'], .other, 0, none, none⟩, zeros 3, bytewise)]

theorem progress_accounts_iff_mixed :
    Accounts 2 [2, 0] ⟨1, 0, 0, 1, 2⟩
      ⟨true, ⟨2, 2, none, none⟩, 2, [⟨1, 2, none, none⟩, ⟨2, 2, none, none⟩]⟩ := by
  have h : (new () true ⟨none, none⟩).extract .new obliging mixed = (((), .ok ⟨1, 0, 0, 1, 2⟩),
      ⟨true, ⟨2, 2, none, none⟩, 2, [⟨1, 2, none, none⟩, ⟨2, 2, none, none⟩]⟩) := by
    rfl
  exact (progress_accounts_iff h).mpr ⟨by decide, by decide⟩

/-- A file of as many bytes as 64 bits count, and one more of a single byte. -/
def tooLong : List Offered :=
  [(fileEntry ['a'] Word64.max, zeros Word64.max.toNat, bytewise),
    (fileEntry ['b'] 1, zeros 1, bytewise)]

theorem not_progress_accounts :
    ¬ ∀ (options : ExtractOptions) (R : UnixRoot Unit) (root root' : Unit) (hooked : Bool)
      (totals : Totals) (entries : List Offered) (summary : ExtractSummary)
      (reporter : Reporter),
      (new root hooked totals).extract options R entries =
          ((root', .ok summary), reporter) →
        Accounts entries.length (lengths options R.toRoot (.new root) entries) summary
          reporter := by
  intro h
  have hroom : ∀ used size, Word64.satAdd used size ≤ Word64.max := fun used size =>
    Word64.toNat_le_max (Word64.satAdd used size)
  have hfirst : validateEntryName ['a'] = .ok [['a']] := by decide
  have hsecond : validateEntryName ['b'] = .ok [['b']] := by decide
  obtain ⟨x, hall⟩ : ∃ x, (new () true ⟨none, none⟩).visitAll (totalOnly Word64.max)
      obliging.toRoot tooLong = (x, .ok ()) := by
    rw [tooLong, visitAll_cons_ok, visitAll_cons_ok]
    · exact ⟨_, rfl⟩
    · exact (visit_willing hsecond (hroom _ 1)).1
    · exact (visit_willing hfirst (hroom _ Word64.max)).1
  obtain ⟨summary, hfinish⟩ := finish_obliging x.extractor
  have hextract : (new () true ⟨none, none⟩).extract (totalOnly Word64.max) obliging
      tooLong = (((), .ok summary), x.reporter) := by
    rw [extract, hall, ← hfinish]
  have hbytes := (bounds_of_accounts hextract
    (h (totalOnly Word64.max) obliging () () true ⟨none, none⟩ tooLong _ _ hextract)).2
  have hlong : bodyLength (fileEntry ['a'] Word64.max, zeros Word64.max.toNat, bytewise) =
      Word64.max.toNat := length_take_zeros Word64.max
  have hone : bodyLength (fileEntry ['b'] 1, zeros 1, bytewise) = 1 := by decide
  rw [tooLong, List.map_cons, List.map_cons, List.map_nil, List.sum_cons, List.sum_cons,
    hlong, hone, Word64.toNat_max] at hbytes
  omega

end Reporting

end Fs

end RustSak
