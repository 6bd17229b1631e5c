import RustSak.Fs.Archive

/-!
# The states an extraction passes

The handle is a parameter of the extraction, so that a handle which keeps all its states
tells what they were. Two handles that answer alike, call by call, are extracted through
alike; a file is taken away only as long as it is the one opened last.
-/

namespace RustSak

namespace Fs

open Library

variable {ρ ρ' : Type}

/-- A state and those before it. -/
structure Recorded (ρ : Type) where
  now : ρ
  before : List ρ

namespace Recorded

def states (r : Recorded ρ) : List ρ := r.now :: r.before

def next (r : Recorded ρ) (now : ρ) : Recorded ρ := ⟨now, r.states⟩

end Recorded

/-- The handle that keeps its states. -/
def Root.recorded (R : Root ρ) : Root (Recorded ρ) where
  createDir r path := ((r.next (R.createDir r.now path).1), (R.createDir r.now path).2)
  createFile r path mode :=
    ((r.next (R.createFile r.now path mode).1), (R.createFile r.now path mode).2)
  writeFile r path body :=
    ((r.next (R.writeFile r.now path body).1), (R.writeFile r.now path body).2)
  removeFile r path := r.next (R.removeFile r.now path)
  createSymlink r path target :=
    ((r.next (R.createSymlink r.now path target).1), (R.createSymlink r.now path target).2)
  verifySymlink r path link target :=
    ((r.next (R.verifySymlink r.now path link target).1),
      (R.verifySymlink r.now path link target).2)

/-- Two handles answer alike while their states are related; with a path, the file there
is the one opened last. -/
structure Root.Alike (R : Root ρ) (R' : Root ρ') (S : Option Location → ρ → ρ' → Prop) : Prop where
  close : ∀ {path a b}, S (some path) a b → S none a b
  createDir : ∀ {a b} path, S none a b → (R'.createDir b path).2 = (R.createDir a path).2 ∧
    S none (R.createDir a path).1 (R'.createDir b path).1
  createFile : ∀ {a b} path mode, S none a b →
    (R'.createFile b path mode).2 = (R.createFile a path mode).2 ∧
    S none (R.createFile a path mode).1 (R'.createFile b path mode).1 ∧
    ((R.createFile a path mode).2 = .ok () →
      S (some path) (R.createFile a path mode).1 (R'.createFile b path mode).1)
  writeFile : ∀ {a b} path body, S (some path) a b →
    (R'.writeFile b path body).2 = (R.writeFile a path body).2 ∧
    S (some path) (R.writeFile a path body).1 (R'.writeFile b path body).1
  removeFile : ∀ {a b} path, S (some path) a b → S none (R.removeFile a path) (R'.removeFile b path)
  createSymlink : ∀ {a b} path target, S none a b →
    (R'.createSymlink b path target).2 = (R.createSymlink a path target).2 ∧
    S none (R.createSymlink a path target).1 (R'.createSymlink b path target).1
  verifySymlink : ∀ {a b} path link target, S none a b →
    (R'.verifySymlink b path link target).2 = (R.verifySymlink a path link target).2 ∧
    S none (R.verifySymlink a path link target).1 (R'.verifySymlink b path link target).1

namespace Extractor

/-- The extractor with another handle. -/
def on (x : Extractor ρ) (root : ρ') : Extractor ρ' :=
  ⟨root, x.budget, x.dirModes, x.links, x.summary⟩

variable (S : Option Location → ρ → ρ' → Prop) in
/-- The visits differ in the handle's state only, and those are related. -/
structure SameVisit (v : Visited ρ) (v' : Visited ρ') : Prop where
  result : v'.result = v.result
  wrote : v'.wrote = v.wrote
  extractor : v'.extractor = v.extractor.on v'.extractor.root
  related : S none v.extractor.root v'.extractor.root

variable {R : Root ρ} {R' : Root ρ'} {S : Option Location → ρ → ρ' → Prop} {x : Extractor ρ}
  {b : ρ'}

theorem visitDir_alike (hR : R.Alike R' S) (h : S none x.root b) (path : Location)
    (mode : Option UInt32) :
    SameVisit S (x.visitDir R path mode) ((x.on b).visitDir R' path mode) := by
  obtain ⟨hresult, hnext⟩ := hR.createDir path h
  have hroot : (x.on b).root = b := rfl
  unfold visitDir
  rw [hroot]
  cases hcreate : R.createDir x.root path with
  | mk a result =>
  cases hcreate' : R'.createDir b path with
  | mk b' result' =>
  rw [hcreate, hcreate'] at hresult hnext
  obtain rfl : result' = result := hresult
  cases result' with
  | error err => exact ⟨rfl, rfl, rfl, hnext⟩
  | ok u => exact ⟨rfl, rfl, rfl, hnext⟩

theorem copyBody_alike (hR : R.Alike R' S) {a : ρ} {path : Location} (h : S (some path) a b)
    (data : Data) (limit : UInt64) :
    (copyBody R' b path data limit).2 = (copyBody R a path data limit).2 ∧
      S (some path) (copyBody R a path data limit).1 (copyBody R' b path data limit).1 := by
  obtain ⟨hfailed, hnext⟩ := hR.writeFile path (data.bytes.take limit.toNat) h
  unfold copyBody
  dsimp only
  cases hwrite : R.writeFile a path (data.bytes.take limit.toNat) with
  | mk a' failed =>
  cases hwrite' : R'.writeFile b path (data.bytes.take limit.toNat) with
  | mk b' failed' =>
  rw [hwrite, hwrite'] at hfailed hnext
  obtain rfl : failed' = failed := hfailed
  cases failed' with
  | none => exact ⟨rfl, hnext⟩
  | some n => exact ⟨rfl, hnext⟩

theorem visitFile_alike (hR : R.Alike R' S) (h : S none x.root b) (options : ExtractOptions)
    (entry : RawEntry) (path : Location) (data : Data) :
    SameVisit S (x.visitFile options R entry path data)
      ((x.on b).visitFile options R' entry path data) := by
  have hroot : (x.on b).root = b := rfl
  have hbudget : (x.on b).budget = x.budget := rfl
  unfold visitFile
  dsimp only
  rw [hroot, hbudget]
  cases x.budget.reserve options entry.size with
  | error err => exact ⟨rfl, rfl, rfl, h⟩
  | ok budget =>
  obtain ⟨hresult, hnext, hopened⟩ :=
    hR.createFile path ((options.fileMode.or entry.mode).map permissions) h
  dsimp only
  cases hcreate : R.createFile x.root path ((options.fileMode.or entry.mode).map permissions) with
  | mk a result =>
  cases hcreate' : R'.createFile b path ((options.fileMode.or entry.mode).map permissions) with
  | mk b' result' =>
  rw [hcreate, hcreate'] at hresult hnext hopened
  obtain rfl : result' = result := hresult
  cases result' with
  | error err => exact ⟨rfl, rfl, rfl, hnext⟩
  | ok u =>
  obtain ⟨hcopy, hwritten⟩ :=
    copyBody_alike hR (hopened rfl) data (Word64.satAdd entry.size 1)
  dsimp only
  rw [hcopy]
  split
  · exact ⟨rfl, rfl, rfl, hR.removeFile path hwritten⟩
  · split
    · exact ⟨rfl, rfl, rfl, hR.removeFile path hwritten⟩
    · exact ⟨rfl, rfl, rfl, hR.close hwritten⟩

theorem visitSymlink_alike (hR : R.Alike R' S) (h : S none x.root b) (options : ExtractOptions)
    (entry : RawEntry) (components : List Name) (data : Data) :
    SameVisit S (x.visitSymlink options R entry components data)
      ((x.on b).visitSymlink options R' entry components data) := by
  have hroot : (x.on b).root = b := rfl
  unfold visitSymlink
  split
  · exact ⟨rfl, rfl, rfl, h⟩
  · dsimp only
    rw [hroot]
    split
    · exact ⟨rfl, rfl, rfl, h⟩
    · rename_i target _
      split
      · exact ⟨rfl, rfl, rfl, h⟩
      · obtain ⟨hresult, hnext⟩ := hR.createSymlink components target h
        cases hcreate : R.createSymlink x.root components target with
        | mk a result =>
        cases hcreate' : R'.createSymlink b components target with
        | mk b' result' =>
        rw [hcreate, hcreate'] at hresult hnext
        obtain rfl : result' = result := hresult
        cases result' with
        | error err => exact ⟨rfl, rfl, rfl, hnext⟩
        | ok made =>
        cases made with
        | false => exact ⟨rfl, rfl, rfl, hnext⟩
        | true =>
        obtain ⟨hverified, hlast⟩ :=
          hR.verifySymlink components (['/'].intercalate components) target hnext
        dsimp only
        cases hverify : R.verifySymlink a components (['/'].intercalate components) target with
        | mk a' verified =>
        cases hverify' : R'.verifySymlink b' components (['/'].intercalate components) target with
        | mk b'' verified' =>
        rw [hverify, hverify'] at hverified hlast
        obtain rfl : verified' = verified := hverified
        cases verified' with
        | error err => exact ⟨rfl, rfl, rfl, hlast⟩
        | ok u => exact ⟨rfl, rfl, rfl, hlast⟩

theorem visit_alike (hR : R.Alike R' S) (h : S none x.root b) (options : ExtractOptions)
    (entry : RawEntry) (data : Data) :
    SameVisit S (x.visit options R entry data) ((x.on b).visit options R' entry data) := by
  have hbudget : (x.on b).budget = x.budget := rfl
  unfold visit
  rw [hbudget]
  cases x.budget.countEntry options with
  | mk budget counted =>
  cases counted with
  | error err => exact ⟨rfl, rfl, rfl, h⟩
  | ok u =>
  dsimp only
  have hon : { x.on b with budget := budget } =
      ({ x with budget := budget } : Extractor ρ).on b := rfl
  rw [hon]
  cases validateEntryName entry.name with
  | error err => exact ⟨rfl, rfl, rfl, h⟩
  | ok components =>
  cases components with
  | nil => exact ⟨rfl, rfl, rfl, h⟩
  | cons component components =>
  dsimp only
  cases entry.kind with
  | dir => exact visitDir_alike (x := { x with budget := budget }) hR h _ _
  | file => exact visitFile_alike (x := { x with budget := budget }) hR h _ _ _ _
  | symlink => exact visitSymlink_alike (x := { x with budget := budget }) hR h _ _ _ _
  | other => exact ⟨rfl, rfl, rfl, h⟩

theorem visitAll_alike (hR : R.Alike R' S) (h : S none x.root b) (options : ExtractOptions)
    (entries : List (RawEntry × Data)) :
    ((x.on b).visitAll options R' entries).2 = (x.visitAll options R entries).2 ∧
    ((x.on b).visitAll options R' entries).1 =
      (x.visitAll options R entries).1.on ((x.on b).visitAll options R' entries).1.root ∧
    S none (x.visitAll options R entries).1.root ((x.on b).visitAll options R' entries).1.root := by
  induction entries generalizing x b with
  | nil => exact ⟨rfl, rfl, h⟩
  | cons e entries ih =>
    obtain ⟨entry, data⟩ := e
    obtain ⟨hresult, -, hextractor, hrelated⟩ := visit_alike hR h options entry data
    rw [visitAll, visitAll, hresult]
    cases (x.visit options R entry data).result with
    | error err => exact ⟨rfl, hextractor, hrelated⟩
    | ok u =>
      dsimp only
      rw [hextractor]
      exact ih hrelated

theorem verifyLinks_alike (hR : R.Alike R' S) {a : ρ} (h : S none a b)
    (links : List (Location × Name × Name)) :
    (verifyLinks R' b links).2 = (verifyLinks R a links).2 ∧
      S none (verifyLinks R a links).1 (verifyLinks R' b links).1 := by
  induction links generalizing a b with
  | nil => exact ⟨rfl, h⟩
  | cons e links ih =>
    obtain ⟨path, link, target⟩ := e
    obtain ⟨hresult, hnext⟩ := hR.verifySymlink path link target h
    rw [verifyLinks, verifyLinks]
    cases hverify : R.verifySymlink a path link target with
    | mk a' result =>
    cases hverify' : R'.verifySymlink b path link target with
    | mk b' result' =>
    rw [hverify, hverify'] at hresult hnext
    obtain rfl : result' = result := hresult
    cases result' with
    | error err => exact ⟨rfl, hnext⟩
    | ok u => exact ih hnext

/-- The visits of the entries, and the look at their links if they all went well. -/
def visitLinked (options : ExtractOptions) (R : Root ρ) (x : Extractor ρ)
    (entries : List (RawEntry × Data)) : ρ × FsResult Unit :=
  match x.visitAll options R entries with
  | (x, .error err) => (x.root, .error err)
  | (x, .ok ()) => verifyLinks R x.root x.links

theorem visitLinked_alike (hR : R.Alike R' S) (h : S none x.root b) (options : ExtractOptions)
    (entries : List (RawEntry × Data)) :
    ((x.on b).visitLinked options R' entries).2 = (x.visitLinked options R entries).2 ∧
      S none (x.visitLinked options R entries).1 ((x.on b).visitLinked options R' entries).1 := by
  obtain ⟨hresult, hextractor, hrelated⟩ := visitAll_alike hR h options entries
  unfold visitLinked
  cases hvisit : x.visitAll options R entries with
  | mk y result =>
  cases hvisit' : (x.on b).visitAll options R' entries with
  | mk y' result' =>
  rw [hvisit, hvisit'] at hresult hextractor hrelated
  obtain rfl : result' = result := hresult
  cases result' with
  | error err => exact ⟨rfl, hrelated⟩
  | ok u =>
    have hlinks : y'.links = y.links := congrArg Extractor.links hextractor
    dsimp only
    rw [hlinks]
    exact verifyLinks_alike hR hrelated y.links

end Extractor

end Fs

end RustSak
