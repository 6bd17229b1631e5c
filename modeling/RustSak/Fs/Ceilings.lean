import RustSak.Fs.Extract

/-!
# An extraction stays within its ceilings

The visits of one extraction, up to the first that fails. A ceiling below the
largest word is kept whatever an archive declares and holds. At the largest
word the counters wrap: `Fits` is the condition that they do not.
-/

namespace RustSak

namespace Fs

open Library

/-- One visit: the entry, its stream, what the visit returned and how many bytes
it wrote. -/
structure Visit where
  entry : RawEntry
  data : Data
  result : FsResult Unit
  wrote : ℕ

namespace Visit

def succeeded (v : Visit) : Bool := v.result = .ok ()

/-- The entry got past the entry ceiling. -/
def counted (max : UInt64) (v : Visit) : Bool :=
  v.result ≠ .error (.limitExceeded .entries max)

/-- What is read of the stream, of which nothing is for what is not a file. -/
def read (v : Visit) : List UInt8 :=
  if v.entry.kind = .file ∧ validateEntryName v.entry.name ≠ .ok [] then
    v.data.bytes.take (Word64.satAdd v.entry.size 1).toNat
  else
    []

end Visit

/-- The bytes that visits have written. -/
def written (vs : List Visit) : ℕ := (vs.map Visit.wrote).sum

structure Extraction (ρ : Type) where
  extractor : Extractor ρ
  failed : Bool

/-- The extractions through `R`: visits, one after another, until one fails. -/
def extracting {ρ : Type} (options : ExtractOptions) (R : Root ρ) :
    Machine (Extraction ρ) Visit where
  init s := ∃ root, s = ⟨.new root, false⟩
  step s v s' :=
    let r := s.extractor.visit options R v.entry v.data
    s.failed = false ∧ v.result = r.result ∧ v.wrote = r.wrote ∧
      s' = ⟨r.extractor, !v.succeeded⟩

/-- The ceilings of `options` have been kept. -/
structure WithinCeilings {ρ : Type} (options : ExtractOptions) (vs : List Visit)
    (s : Extraction ρ) : Prop where
  entries : ∀ max, options.maxEntries = some max →
    vs.countP (Visit.counted max) ≤ max.toNat
  file : ∀ max, options.maxFileBytes = some max → ∀ v ∈ vs,
    v.wrote ≤ max.toNat + 1 ∧ (v.succeeded = true → v.wrote ≤ max.toNat)
  total : ∀ max, options.maxTotalBytes = some max →
    written (vs.filter Visit.succeeded) ≤ max.toNat ∧ written vs ≤ max.toNat + 1
  used : ∀ max, options.maxTotalBytes = some max → max ≠ Word64.max →
    s.failed = false → s.extractor.budget.usedBytes = s.extractor.summary.bytes ∧
      s.extractor.summary.bytes.toNat = written (vs.filter Visit.succeeded)
  read : ∀ v ∈ vs, v.succeeded = true → v.wrote = v.read.length ∧
    v.wrote ≤ v.entry.size.toNat

/-- No counter that a ceiling of the largest word compares with wraps in the
visit. -/
def Fits {ρ : Type} (options : ExtractOptions) (s : Extraction ρ) (v : Visit) :
    Prop :=
  (options.maxEntries = some Word64.max →
    s.extractor.budget.usedEntries.toNat < Word64.max.toNat) ∧
  (options.maxTotalBytes = some Word64.max →
    s.extractor.summary.bytes.toNat + v.read.length ≤ Word64.max.toNat)

/-! ## One visit -/

namespace Budget

variable {options : ExtractOptions} {b b' : Budget}

theorem usedEntries_countEntry (options : ExtractOptions) (b : Budget) :
    (b.countEntry options).1.usedEntries = b.usedEntries + 1 ∧
      (b.countEntry options).1.usedBytes = b.usedBytes := by
  unfold countEntry
  cases options.maxEntries with
  | none => exact ⟨rfl, rfl⟩
  | some max =>
      dsimp only
      split
      · exact ⟨rfl, rfl⟩
      · exact ⟨rfl, rfl⟩

theorem countEntry_ok {max : UInt64} (hmax : options.maxEntries = some max)
    (h : (b.countEntry options).2 = .ok ()) : b.usedEntries + 1 ≤ max := by
  unfold countEntry at h
  rw [hmax] at h
  dsimp only at h
  split at h
  · cases h
  · rename_i hle
    exact UInt64.not_lt.mp hle

theorem countEntry_error {err : FsError}
    (h : (b.countEntry options).2 = .error err) :
    ∃ max, options.maxEntries = some max ∧ err = .limitExceeded .entries max ∧
      max < b.usedEntries + 1 := by
  unfold countEntry at h
  cases hmax : options.maxEntries with
  | none =>
      rw [hmax] at h
      cases h
  | some max =>
      rw [hmax] at h
      dsimp only at h
      split at h
      · rename_i hlt
        cases h
        exact ⟨max, rfl, rfl, hlt⟩
      · cases h

/-- What a reservation that is granted has found and leaves. -/
theorem reserve_ok {declared : UInt64} (h : b.reserve options declared = .ok b') :
    (∀ max, options.maxFileBytes = some max → declared ≤ max) ∧
    (∀ max, options.maxTotalBytes = some max →
      Word64.satAdd b.usedBytes declared ≤ max) ∧
    b' = { b with usedBytes := Word64.satAdd b.usedBytes declared } := by
  have hgranted : reserve.withinTotal options b
      (Word64.satAdd b.usedBytes declared) = .ok b' ∧
      ∀ max, options.maxFileBytes = some max → declared ≤ max := by
    unfold reserve at h
    cases hmax : options.maxFileBytes with
    | none =>
        rw [hmax] at h
        exact ⟨h, by simp⟩
    | some max =>
        rw [hmax] at h
        dsimp only at h
        split at h
        · cases h
        · rename_i hle
          refine ⟨h, ?_⟩
          rintro _ ⟨⟩
          exact UInt64.not_lt.mp hle
  obtain ⟨htotal, hfile⟩ := hgranted
  refine ⟨hfile, ?_⟩
  unfold reserve.withinTotal at htotal
  cases hmax : options.maxTotalBytes with
  | none =>
      rw [hmax] at htotal
      cases htotal
      exact ⟨by simp, rfl⟩
  | some max =>
      rw [hmax] at htotal
      dsimp only at htotal
      split at htotal
      · cases htotal
      · rename_i hle
        cases htotal
        refine ⟨?_, rfl⟩
        rintro _ ⟨⟩
        exact UInt64.not_lt.mp hle

/-- Settling what was reserved leaves what was written. -/
theorem settle_reserved {used declared entries : UInt64} {n : ℕ}
    (hle : n ≤ declared.toNat)
    (hfits : used.toNat + declared.toNat ≤ Word64.max.toNat) :
    ((Budget.settle declared (UInt64.ofNat n)
      ⟨Word64.satAdd used declared, entries⟩).usedBytes).toNat = used.toNat + n := by
  have hn : (UInt64.ofNat n).toNat = n :=
    UInt64.toNat_ofNat_of_lt' (hle.trans_lt declared.toNat_lt)
  have hsat : (Word64.satAdd used declared).toNat = used.toNat + declared.toNat := by
    rw [Word64.toNat_satAdd]
    exact min_eq_left hfits
  simp only [settle, Word64.toNat_satSub, hn, hsat]
  omega

end Budget

namespace Extractor

variable {ρ : Type} {options : ExtractOptions} {R : Root ρ} {x : Extractor ρ}

/-- A visit that writes no byte of a body. -/
structure Quiet (x : Extractor ρ) (r : Visited ρ) : Prop where
  wrote : r.wrote = 0
  entries : r.extractor.budget.usedEntries = x.budget.usedEntries
  kept : r.result = .ok () → r.extractor.budget.usedBytes = x.budget.usedBytes ∧
    r.extractor.summary.bytes = x.summary.bytes

/-- A visit that has been granted `size` bytes, and reads `body`. -/
structure Wrote (options : ExtractOptions) (x : Extractor ρ) (size : UInt64)
    (body : List UInt8) (r : Visited ρ) : Prop where
  file : ∀ max, options.maxFileBytes = some max → size ≤ max
  total : ∀ max, options.maxTotalBytes = some max →
    Word64.satAdd x.budget.usedBytes size ≤ max
  wrote_le : r.wrote ≤ body.length
  entries : r.extractor.budget.usedEntries = x.budget.usedEntries
  kept : r.result = .ok () → r.wrote = body.length ∧ r.wrote ≤ size.toNat ∧
    r.extractor.budget = Budget.settle size (UInt64.ofNat r.wrote)
      ⟨Word64.satAdd x.budget.usedBytes size, x.budget.usedEntries⟩ ∧
    r.extractor.summary.bytes = x.summary.bytes + UInt64.ofNat r.wrote

theorem quiet_error (x' : Extractor ρ) (err : FsError)
    (hbudget : x'.budget.usedEntries = x.budget.usedEntries) :
    Quiet x ⟨x', .error err, 0⟩ :=
  ⟨rfl, hbudget, fun h => by cases h⟩

theorem visitDir_quiet (path : Location) (mode : Option UInt32) :
    Quiet x (visitDir R x path mode) := by
  unfold visitDir
  split
  · exact quiet_error _ _ rfl
  · exact ⟨rfl, rfl, fun _ => ⟨rfl, rfl⟩⟩

theorem visitSymlink_quiet (entry : RawEntry) (components : List Name)
    (data : Data) : Quiet x (visitSymlink options R x entry components data) := by
  have hskip : ∀ root : ρ, Quiet x ⟨({ x with root := root }).skip, .ok (), 0⟩ :=
    fun _ => ⟨rfl, rfl, fun _ => ⟨rfl, rfl⟩⟩
  unfold visitSymlink
  split
  · exact hskip x.root
  · dsimp only
    split
    · exact quiet_error _ _ rfl
    · split
      · exact quiet_error _ _ rfl
      · split
        · exact quiet_error _ _ rfl
        · exact hskip _
        · split
          · exact quiet_error _ _ rfl
          · exact ⟨rfl, rfl, fun _ => ⟨rfl, rfl⟩⟩

theorem copyBody_written_le (root : ρ) (path : Location) (data : Data)
    (limit : UInt64) : (copyBody R root path data limit).2.written ≤
      (data.bytes.take limit.toNat).length := by
  unfold copyBody
  dsimp only
  split
  · exact Nat.min_le_right _ _
  · exact le_rfl

theorem copyBody_written (root : ρ) (path : Location) (data : Data)
    (limit : UInt64) (h : (copyBody R root path data limit).2.failed = false) :
    (copyBody R root path data limit).2.written =
      (data.bytes.take limit.toNat).length := by
  unfold copyBody at h ⊢
  dsimp only at h ⊢
  split at h
  · cases h
  · rfl

theorem visitFile_cases (entry : RawEntry) (path : Location) (data : Data) :
    Quiet x (visitFile options R x entry path data) ∧
      (visitFile options R x entry path data).result ≠ .ok () ∨
    Wrote options x entry.size
      (data.bytes.take (Word64.satAdd entry.size 1).toNat)
      (visitFile options R x entry path data) := by
  unfold visitFile
  dsimp only
  split
  · exact .inl ⟨quiet_error _ _ rfl, nofun⟩
  · rename_i budget hreserve
    obtain ⟨hfile, htotal, rfl⟩ := Budget.reserve_ok hreserve
    split
    · exact .inl ⟨quiet_error _ _ rfl, nofun⟩
    · rename_i root _
      have hle := copyBody_written_le (R := R) root path data
        (Word64.satAdd entry.size 1)
      refine .inr ?_
      split
      · exact ⟨hfile, htotal, hle, rfl, nofun⟩
      · rename_i hcopied
        split
        · exact ⟨hfile, htotal, hle, rfl, nofun⟩
        · rename_i hsize
          have heq := copyBody_written root path data (Word64.satAdd entry.size 1)
            (Bool.eq_false_iff.mpr hcopied)
          exact ⟨hfile, htotal, hle, rfl, fun _ => ⟨heq, not_lt.mp hsize, rfl, rfl⟩⟩

/-- The extractor once the entry has been counted. -/
def counted (options : ExtractOptions) (x : Extractor ρ) : Extractor ρ :=
  { x with budget := (x.budget.countEntry options).1 }

/-- Every visit: the entry is refused by the entry ceiling, or it is within it
and writes nothing or what it has been granted. -/
theorem visit_cases (options : ExtractOptions) (R : Root ρ) (x : Extractor ρ)
    (v : Visit) :
    (∃ max, options.maxEntries = some max ∧
      (x.visit options R v.entry v.data).result =
        .error (.limitExceeded .entries max) ∧
      Quiet (x.counted options) (x.visit options R v.entry v.data)) ∨
    ((∀ max, options.maxEntries = some max → x.budget.usedEntries + 1 ≤ max) ∧
      (Quiet (x.counted options) (x.visit options R v.entry v.data) ∧
        ((x.visit options R v.entry v.data).result = .ok () → v.read = []) ∨
      Wrote options (x.counted options) v.entry.size v.read
        (x.visit options R v.entry v.data))) := by
  unfold visit
  split
  · rename_i budget err hcount
    obtain ⟨max, hmax, rfl, _⟩ := Budget.countEntry_error
      (show (x.budget.countEntry options).2 = .error err by rw [hcount])
    refine .inl ⟨max, hmax, rfl, quiet_error _ _ ?_⟩
    rw [counted, hcount]
  · rename_i budget hcount
    have hx : ({ x with budget := budget } : Extractor ρ) = x.counted options := by
      rw [counted, hcount]
    have hadmitted : ∀ max, options.maxEntries = some max →
        x.budget.usedEntries + 1 ≤ max := fun max hmax =>
      Budget.countEntry_ok hmax (by rw [hcount])
    refine .inr ⟨hadmitted, ?_⟩
    dsimp only
    rw [hx]
    have hskip : Quiet (x.counted options)
        ⟨(x.counted options).skip, .ok (), 0⟩ := ⟨rfl, rfl, fun _ => ⟨rfl, rfl⟩⟩
    split
    · exact .inl ⟨quiet_error _ _ rfl, nofun⟩
    · rename_i hname
      exact .inl ⟨hskip, fun _ => if_neg fun h => h.2 hname⟩
    · rename_i components hne hname
      have hread : v.entry.kind ≠ .file → v.read = [] := fun h => if_neg fun hf => h hf.1
      split
      · rename_i hkind
        exact .inl ⟨visitDir_quiet _ _, fun _ => hread (by rw [hkind]; nofun)⟩
      · rename_i hkind
        have hfile : v.read =
            v.data.bytes.take (Word64.satAdd v.entry.size 1).toNat := by
          refine if_pos ⟨hkind, ?_⟩
          rw [hname]
          rintro ⟨⟩
          exact hne rfl
        rw [hfile]
        rcases visitFile_cases v.entry components v.data with ⟨hq, hno⟩ | hw
        · exact .inl ⟨hq, fun h => absurd h hno⟩
        · exact .inr hw
      · rename_i hkind
        exact .inl ⟨visitSymlink_quiet _ _ _, fun _ => hread (by rw [hkind]; nofun)⟩
      · rename_i hkind
        exact .inl ⟨hskip, fun _ => hread (by rw [hkind]; nofun)⟩

end Extractor

/-! ## Whole extractions -/

@[simp] theorem written_nil : written [] = 0 := rfl

@[simp] theorem written_cons (v : Visit) (vs : List Visit) :
    written (v :: vs) = v.wrote + written vs := by
  simp [written]

theorem read_length_le (v : Visit) : v.read.length ≤ v.entry.size.toNat + 1 := by
  unfold Visit.read
  split
  · have hlimit : (Word64.satAdd v.entry.size 1).toNat ≤ v.entry.size.toNat + 1 := by
      rw [Word64.toNat_satAdd]
      exact min_le_left _ _
    exact (List.length_take_le _ _).trans hlimit
  · exact Nat.zero_le _

/-- What is true of an extraction: it is within its ceilings, and while nothing
has failed the counters that a ceiling compares with are exact. -/
structure Exact {ρ : Type} (options : ExtractOptions) (vs : List Visit)
    (s : Extraction ρ) : Prop where
  within : WithinCeilings options vs s
  succeeded : s.failed = false → ∀ v ∈ vs, v.succeeded = true
  entries : s.failed = false → ∀ max, options.maxEntries = some max →
    s.extractor.budget.usedEntries.toNat = vs.length ∧ vs.length ≤ max.toNat
  total : s.failed = false → ∀ max, options.maxTotalBytes = some max →
    s.extractor.summary.bytes.toNat = written vs ∧ written vs ≤ max.toNat ∧
      (max ≠ Word64.max →
        s.extractor.budget.usedBytes = s.extractor.summary.bytes)

section Step

variable {ρ : Type} {options : ExtractOptions} {R : Root ρ} {vs : List Visit}
  {s s' : Extraction ρ} {v : Visit}

/-- A visit as `visit_cases` has it, told by its label. -/
theorem step_cases (h : (extracting options R).step s v s') :
    s.failed = false ∧ s'.failed = !v.succeeded ∧
    s'.extractor.budget.usedEntries = s.extractor.budget.usedEntries + 1 ∧
    ((∃ max, options.maxEntries = some max ∧
        v.result = .error (.limitExceeded .entries max) ∧ v.wrote = 0) ∨
      ((∀ max, options.maxEntries = some max →
          s.extractor.budget.usedEntries + 1 ≤ max) ∧
        (v.wrote = 0 ∧ (v.succeeded = true → v.read = [] ∧
            s'.extractor.budget.usedBytes = s.extractor.budget.usedBytes ∧
            s'.extractor.summary.bytes = s.extractor.summary.bytes) ∨
          Extractor.Wrote options (s.extractor.counted options) v.entry.size v.read
            ⟨s'.extractor, v.result, v.wrote⟩))) := by
  obtain ⟨hf, hres, hw, rfl⟩ := h
  have hused := Budget.usedEntries_countEntry options s.extractor.budget
  have hok : v.succeeded = true → (s.extractor.visit options R v.entry v.data).result =
      .ok () := by
    intro h
    rw [← hres]
    exact of_decide_eq_true h
  rcases s.extractor.visit_cases options R v with
    ⟨max, hmax, herr, hq⟩ | ⟨hadmitted, ⟨hq, hread⟩ | hwrote⟩
  · refine ⟨hf, rfl, hq.entries.trans hused.1, .inl ⟨max, hmax, ?_, ?_⟩⟩
    · rw [hres, herr]
    · rw [hw, hq.wrote]
  · refine ⟨hf, rfl, hq.entries.trans hused.1, .inr ⟨hadmitted, .inl ⟨?_, ?_⟩⟩⟩
    · rw [hw, hq.wrote]
    · intro h
      obtain ⟨hbytes, hsummary⟩ := hq.kept (hok h)
      exact ⟨hread (hok h), hbytes.trans hused.2, hsummary⟩
  · refine ⟨hf, rfl, hwrote.entries.trans hused.1, .inr ⟨hadmitted, .inr ?_⟩⟩
    rw [hres, hw]
    exact hwrote

theorem step_entries (hi : Exact options vs s) (hfits : Fits options s v)
    (h : (extracting options R).step s v s') {max : UInt64}
    (hmax : options.maxEntries = some max) :
    (v :: vs).countP (Visit.counted max) ≤ max.toNat ∧
      (s'.failed = false → s'.extractor.budget.usedEntries.toNat = (v :: vs).length ∧
        (v :: vs).length ≤ max.toNat) := by
  obtain ⟨hf, hf', hused, hcases⟩ := step_cases h
  obtain ⟨hlen, hle⟩ := hi.entries hf max hmax
  have hcount : vs.countP (Visit.counted max) ≤ vs.length := List.countP_le_length
  rw [List.countP_cons]
  rcases hcases with ⟨max', hmax', herr, _⟩ | ⟨hadmitted, _⟩
  · obtain rfl : max' = max := Option.some.inj (hmax'.symm.trans hmax)
    have hrefused : v.counted max' = false := by simp [Visit.counted, herr]
    have hfailed : v.succeeded = false := by simp [Visit.succeeded, herr]
    rw [hrefused, if_neg Bool.false_ne_true, hf', hfailed]
    exact ⟨hcount.trans hle, fun h => by cases h⟩
  · have hroom : s.extractor.budget.usedEntries.toNat + 1 ≤ Word64.max.toNat := by
      rcases Word64.eq_max_or_lt max with rfl | hlt
      · exact hfits.1 hmax
      · omega
    have hsucc : (s.extractor.budget.usedEntries + 1).toNat =
        s.extractor.budget.usedEntries.toNat + 1 := Word64.toNat_add_of_lt hroom
    have hwithin : (s.extractor.budget.usedEntries + 1).toNat ≤ max.toNat :=
      hadmitted max hmax
    rw [hsucc, hlen] at hwithin
    rw [hused, hsucc, hlen, List.length_cons]
    refine ⟨?_, fun _ => ⟨rfl, hwithin⟩⟩
    split <;> omega

/-- The bytes of a visit, its outcome, and what it leaves of the counters. -/
theorem step_total (hi : Exact options vs s) (hfits : Fits options s v)
    (h : (extracting options R).step s v s') {max : UInt64}
    (hmax : options.maxTotalBytes = some max) :
    written (v :: vs) ≤ max.toNat + 1 ∧
      (s'.failed = false →
        s'.extractor.summary.bytes.toNat = written (v :: vs) ∧
          written (v :: vs) ≤ max.toNat ∧ (max ≠ Word64.max →
            s'.extractor.budget.usedBytes = s'.extractor.summary.bytes)) := by
  obtain ⟨hf, hf', _, hcases⟩ := step_cases h
  obtain ⟨hsum, hle, hexact⟩ := hi.total hf max hmax
  have hidle : v.wrote = 0 → (v.succeeded = true →
      s'.extractor.budget.usedBytes = s.extractor.budget.usedBytes ∧
        s'.extractor.summary.bytes = s.extractor.summary.bytes) →
      written (v :: vs) ≤ max.toNat + 1 ∧
      (s'.failed = false →
        s'.extractor.summary.bytes.toNat = written (v :: vs) ∧
          written (v :: vs) ≤ max.toNat ∧ (max ≠ Word64.max →
            s'.extractor.budget.usedBytes = s'.extractor.summary.bytes)) := by
    intro hzero hkept
    rw [written_cons, hzero, Nat.zero_add]
    refine ⟨hle.trans (Nat.le_succ _), fun hok => ?_⟩
    rw [hf', Bool.not_eq_false'] at hok
    obtain ⟨hbytes, hsummary⟩ := hkept hok
    rw [hbytes, hsummary]
    exact ⟨hsum, hle, hexact⟩
  rcases hcases with ⟨_, _, herr, hzero⟩ | ⟨_, ⟨hzero, hkept⟩ | hwrote⟩
  · refine hidle hzero fun hok => ?_
    simp [Visit.succeeded, herr] at hok
  · exact hidle hzero fun hok => (hkept hok).2
  · have hread := hwrote.wrote_le
    have hone := read_length_le v
    have hgranted : (Word64.satAdd (s.extractor.counted options).budget.usedBytes
        v.entry.size).toNat ≤ max.toNat := hwrote.total max hmax
    have hused : (s.extractor.counted options).budget.usedBytes =
        s.extractor.budget.usedBytes :=
      (Budget.usedEntries_countEntry options s.extractor.budget).2
    rw [hused, Word64.toNat_satAdd] at hgranted
    dsimp only at hread
    -- a ceiling of the largest word cannot see the sum it is compared with
    have hroom : written vs + v.wrote ≤ max.toNat + 1 ∧
        (v.wrote ≤ v.entry.size.toNat → written vs + v.wrote ≤ max.toNat) ∧
        (max ≠ Word64.max →
          s.extractor.budget.usedBytes.toNat + v.entry.size.toNat ≤
            Word64.max.toNat) := by
      rcases Word64.eq_max_or_lt max with rfl | hlt
      · have hsmall := hfits.2 hmax
        exact ⟨by omega, fun _ => by omega, fun hne => absurd rfl hne⟩
      · have hne : max ≠ Word64.max := by
          rintro rfl
          exact absurd hlt (lt_irrefl _)
        have heq := congrArg UInt64.toNat (hexact hne)
        exact ⟨by omega, fun _ => by omega, fun _ => by omega⟩
    rw [written_cons, Nat.add_comm]
    refine ⟨hroom.1, fun hok => ?_⟩
    rw [hf', Bool.not_eq_false'] at hok
    obtain ⟨_, hsize, hbudget, hsummary⟩ := hwrote.kept (of_decide_eq_true hok)
    dsimp only at hsize hbudget hsummary
    have hlt := v.entry.size.toNat_lt
    have hofNat : (UInt64.ofNat v.wrote).toNat = v.wrote :=
      UInt64.toNat_ofNat_of_lt' (hsize.trans_lt hlt)
    have hbytes : (s.extractor.summary.bytes + UInt64.ofNat v.wrote).toNat =
        written vs + v.wrote := by
      have hmaxle := Word64.toNat_le_max max
      have hfit := hroom.2.1 hsize
      rw [Word64.toNat_add_of_lt (by rw [hofNat, hsum]; omega), hofNat, hsum]
    have hsummary' : s'.extractor.summary.bytes =
        s.extractor.summary.bytes + UInt64.ofNat v.wrote := hsummary
    rw [hsummary', hbytes]
    refine ⟨rfl, hroom.2.1 hsize, fun hne => ?_⟩
    have hused' := congrArg UInt64.toNat (hexact hne)
    apply UInt64.toNat_inj.mp
    rw [hbytes, hbudget, hused, Budget.settle_reserved hsize (hroom.2.2 hne), hused',
      hsum]

theorem step_file (h : (extracting options R).step s v s') {max : UInt64}
    (hmax : options.maxFileBytes = some max) :
    v.wrote ≤ max.toNat + 1 ∧ (v.succeeded = true → v.wrote ≤ max.toNat) := by
  obtain ⟨_, _, _, hcases⟩ := step_cases h
  rcases hcases with ⟨_, _, _, hzero⟩ | ⟨_, ⟨hzero, _⟩ | hwrote⟩
  · rw [hzero]
    exact ⟨Nat.zero_le _, fun _ => Nat.zero_le _⟩
  · rw [hzero]
    exact ⟨Nat.zero_le _, fun _ => Nat.zero_le _⟩
  · have hsize : v.entry.size.toNat ≤ max.toNat := hwrote.file max hmax
    have hle : v.wrote ≤ v.entry.size.toNat + 1 :=
      hwrote.wrote_le.trans (read_length_le v)
    refine ⟨hle.trans (Nat.succ_le_succ hsize), fun hok => ?_⟩
    exact (hwrote.kept (of_decide_eq_true hok)).2.1.trans hsize

theorem step_read (h : (extracting options R).step s v s')
    (hok : v.succeeded = true) :
    v.wrote = v.read.length ∧ v.wrote ≤ v.entry.size.toNat := by
  obtain ⟨_, _, _, hcases⟩ := step_cases h
  rcases hcases with ⟨_, _, herr, _⟩ | ⟨_, ⟨hzero, hkept⟩ | hwrote⟩
  · simp [Visit.succeeded, herr] at hok
  · rw [hzero, (hkept hok).1]
    exact ⟨rfl, Nat.zero_le _⟩
  · obtain ⟨hread, hsize, _⟩ := hwrote.kept (of_decide_eq_true hok)
    exact ⟨hread, hsize⟩

theorem Exact.next (hi : Exact options vs s) (hfits : Fits options s v)
    (h : (extracting options R).step s v s') : Exact options (v :: vs) s' := by
  obtain ⟨hf, hf', _, hcases⟩ := step_cases h
  have hall := hi.succeeded hf
  have hfilter : vs.filter Visit.succeeded = vs := List.filter_eq_self.mpr hall
  refine ⟨⟨fun max hmax => (step_entries hi hfits h hmax).1, ?_, ?_, ?_, ?_⟩, ?_,
    fun hok max hmax => (step_entries hi hfits h hmax).2 hok,
    fun hok max hmax => (step_total hi hfits h hmax).2 hok⟩
  · intro max hmax u hu
    rcases List.mem_cons.mp hu with rfl | hu
    · exact step_file h hmax
    · exact hi.within.file max hmax u hu
  · intro max hmax
    have hstep := step_total hi hfits h hmax
    refine ⟨?_, hstep.1⟩
    cases hv : v.succeeded with
    | true =>
        rw [List.filter_cons_of_pos hv, hfilter]
        exact (hstep.2 (by rw [hf', hv]; rfl)).2.1
    | false =>
        rw [List.filter_cons_of_neg (by rw [hv]; exact Bool.false_ne_true), hfilter]
        exact (hi.total hf max hmax).2.1
  · intro max hmax hne hok
    have hstep := (step_total hi hfits h hmax).2 hok
    rw [hf', Bool.not_eq_false'] at hok
    rw [List.filter_cons_of_pos hok, hfilter]
    exact ⟨hstep.2.2 hne, hstep.1⟩
  · intro u hu hok
    rcases List.mem_cons.mp hu with rfl | hu
    · exact step_read h hok
    · exact hi.within.read u hu hok
  · intro hok u hu
    rw [hf', Bool.not_eq_false'] at hok
    rcases List.mem_cons.mp hu with rfl | hu
    · exact hok
    · exact hall u hu

end Step

/-- In every extraction none of whose counters wrap, the ceilings are kept. -/
theorem within_ceilings {ρ : Type} {options : ExtractOptions} {R : Root ρ}
    {vs : List Visit} {s : Extraction ρ}
    (hr : ((extracting options R).restrict (Fits options)).Run vs s) :
    WithinCeilings options vs s := by
  have hexact : Exact options vs s := by
    refine hr.invariant (I := fun vs s => Exact options vs s) ?_ ?_
    · rintro _ ⟨root, rfl⟩
      refine ⟨⟨?_, ?_, ?_, ?_, ?_⟩, ?_, ?_, ?_⟩
      · exact fun _ _ => Nat.zero_le _
      · exact fun _ _ v hv => absurd hv List.not_mem_nil
      · exact fun _ _ => ⟨Nat.zero_le _, Nat.zero_le _⟩
      · exact fun _ _ _ _ => ⟨rfl, rfl⟩
      · exact fun v hv => absurd hv List.not_mem_nil
      · exact fun _ v hv => absurd hv List.not_mem_nil
      · exact fun _ _ _ => ⟨rfl, Nat.zero_le _⟩
      · exact fun _ _ _ => ⟨rfl, Nat.zero_le _, fun _ => rfl⟩
    · intro vs v s s' _ hi ⟨hfits, hstep⟩
      exact hi.next hfits hstep
  exact hexact.within

/-! ## Ceilings of the largest word -/

/-- A root that refuses nothing. -/
def willing : Root Unit where
  createDir _ _ := ((), .ok ())
  createFile _ _ _ := ((), .ok ())
  writeFile _ _ _ := ((), none)
  removeFile _ _ := ()
  createSymlink _ _ _ := ((), .ok true)
  verifySymlink _ _ _ _ := ((), .ok ())

/-- A file entry, and a stream that yields as many bytes as it is to. -/
def fileEntry (name : Name) (size : UInt64) : RawEntry where
  name := name
  kind := .file
  size := size
  mode := none
  linkTarget := none

def zeros (n : ℕ) : Data := ⟨List.replicate n 0, false⟩

def fileVisit (name : Name) (size : UInt64) : Visit where
  entry := fileEntry name size
  data := zeros size.toNat
  result := .ok ()
  wrote := size.toNat

/-- Only a ceiling on the total. -/
def totalOnly (max : UInt64) : ExtractOptions :=
  { ExtractOptions.new with maxTotalBytes := some max }

theorem length_take_zeros (size : UInt64) :
    ((zeros size.toNat).bytes.take (Word64.satAdd size 1).toNat).length =
      size.toNat := by
  have hle : size.toNat ≤ (Word64.satAdd size 1).toNat := by
    rw [Word64.toNat_satAdd]
    exact le_min (Nat.le_add_right _ _) (Word64.toNat_le_max size)
  rw [List.length_take, zeros, List.length_replicate, min_eq_right hle]

/-- A file within the total ceiling is written whole. -/
theorem visit_willing {max size : UInt64} {name c : Name} {cs : List Name}
    {x : Extractor Unit} (hname : validateEntryName name = .ok (c :: cs))
    (hmax : Word64.satAdd x.budget.usedBytes size ≤ max) :
    (x.visit (totalOnly max) willing (fileEntry name size) (zeros size.toNat)).result =
        .ok () ∧
      (x.visit (totalOnly max) willing (fileEntry name size)
        (zeros size.toNat)).wrote = size.toNat := by
  have hno : ¬ max < Word64.satAdd x.budget.usedBytes size := UInt64.not_lt.mpr hmax
  have hlen := length_take_zeros size
  have hcopy : copyBody willing () (c :: cs) (zeros size.toNat)
      (Word64.satAdd size 1) = ((), ⟨size.toNat, false⟩) := by
    unfold copyBody
    dsimp only [willing]
    rw [hlen]
    rfl
  have hcount : x.budget.countEntry (totalOnly max) =
      ({ x.budget with usedEntries := x.budget.usedEntries + 1 }, .ok ()) := rfl
  have hgrant : Budget.reserve (totalOnly max) size
      { x.budget with usedEntries := x.budget.usedEntries + 1 } =
        .ok ⟨Word64.satAdd x.budget.usedBytes size, x.budget.usedEntries + 1⟩ :=
    if_neg hno
  have hcreate : ∀ path mode, willing.createFile x.root path mode = ((), .ok ()) :=
    fun _ _ => rfl
  simp only [Extractor.visit, hcount, fileEntry, hname, Extractor.visitFile, hgrant,
    hcreate, hcopy, Bool.false_eq_true, if_false, lt_irrefl]
  exact ⟨trivial, trivial⟩

theorem step_willing {max size : UInt64} {name c : Name} {cs : List Name}
    {x : Extractor Unit} (hname : validateEntryName name = .ok (c :: cs))
    (hmax : Word64.satAdd x.budget.usedBytes size ≤ max) :
    (extracting (totalOnly max) willing).step ⟨x, false⟩ (fileVisit name size)
      ⟨(x.visit (totalOnly max) willing (fileEntry name size)
        (zeros size.toNat)).extractor, false⟩ := by
  obtain ⟨hres, hwrote⟩ := visit_willing hname hmax
  exact ⟨rfl, hres.symm, hwrote.symm, rfl⟩

/-- Within the largest total there is, files of three bytes and of two. -/
theorem within_ceilings_files :
    ∃ s : Extraction Unit, s.failed = false ∧
      WithinCeilings (totalOnly Word64.max) [fileVisit ['b'] 2, fileVisit ['a'] 3] s := by
  have hstart : ((extracting (totalOnly Word64.max) willing).restrict
      (Fits (totalOnly Word64.max))).Run [] ⟨.new (), false⟩ := .start ⟨(), rfl⟩
  have hfirst : validateEntryName ['a'] = .ok [['a']] := by decide
  have hsecond : validateEntryName ['b'] = .ok [['b']] := by decide
  have hroom : ∀ used size, Word64.satAdd used size ≤ Word64.max := fun used size =>
    Word64.toNat_le_max (Word64.satAdd used size)
  have hstep : (extracting (totalOnly Word64.max) willing).step ⟨.new (), false⟩
      (fileVisit ['a'] 3) _ := step_willing hfirst (hroom _ 3)
  have hfits : Fits (totalOnly Word64.max) ⟨Extractor.new (), false⟩ (fileVisit ['a'] 3) :=
    ⟨nofun, fun _ => by decide⟩
  have hrun := (hstart.next ⟨hfits, hstep⟩).next
    ⟨⟨nofun, fun _ => by decide⟩, step_willing hsecond (hroom _ 2)⟩
  exact ⟨_, rfl, within_ceilings hrun⟩

/-- Without the condition the largest ceiling is passed: after a file of as many
bytes as a word can count, one more byte is taken. -/
theorem not_within_ceilings :
    ¬ ∀ (options : ExtractOptions) (R : Root Unit) (vs : List Visit)
      (s : Extraction Unit), (extracting options R).Run vs s →
        WithinCeilings options vs s := by
  intro h
  have hstart : (extracting (totalOnly Word64.max) willing).Run []
      ⟨.new (), false⟩ := .start ⟨(), rfl⟩
  have hfirst : validateEntryName ['a'] = .ok [['a']] := by decide
  have hsecond : validateEntryName ['b'] = .ok [['b']] := by decide
  have hroom : ∀ used size, Word64.satAdd used size ≤ Word64.max := fun used size =>
    Word64.toNat_le_max (Word64.satAdd used size)
  have hrun := (hstart.next (step_willing hfirst (hroom _ Word64.max))).next
    (step_willing hsecond (hroom _ 1))
  have hkept := ((h _ _ _ _ hrun).total Word64.max rfl).1
  have hsum : written ([fileVisit ['b'] 1, fileVisit ['a'] Word64.max].filter
      Visit.succeeded) = 1 + Word64.max.toNat := by
    rw [List.filter_eq_self.mpr (by simp [fileVisit, Visit.succeeded])]
    simp [fileVisit]
  rw [hsum] at hkept
  omega

end Fs

end RustSak
