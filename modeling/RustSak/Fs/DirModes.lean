import RustSak.Fs.CopyMove
import RustSak.Fs.ExtractRoot
import RustSak.Library.StableSort
import Mathlib.Data.List.GetD

/-!
# The modes of directories

Directories are made with a working mode; the modes an archive records are set when
all of it is there, the deepest first, as the entries' paths have it. A path may run
through a link, and then lead to a directory that is not as deep as it is long.
-/

namespace RustSak

namespace Fs

open Library FileTree

/-- The mode that a directory gets for the recorded one. -/
def dirMode (mode : UInt32) : UInt32 :=
  if permissions mode = 0 then defaultDirMode else permissions mode &&& ~~~dirModeMask

/-- Write for the group and for others, and the setuid, setgid and sticky bits. -/
def unwanted : UInt32 := 0o7022

/-- The directory an entry names, and its mode, if it records one. -/
def RawEntry.namesDir (entry : RawEntry) : Option (Location × UInt32) :=
  match entry.kind, validateEntryName entry.name with
  | .dir, .ok (c :: cs) => entry.mode.map fun mode => (c :: cs, dirMode mode)
  | _, _ => none

/-- What an archive has for the directories, in its order. -/
def named (entries : List (RawEntry × Data)) : List (Location × UInt32) :=
  entries.filterMap fun e => e.1.namesDir

section Order

variable {ι : Type} (node : Location → Option (FileTree.Node Name ι)) (fuel : ℕ)

/-- The directory that a path leads to. -/
def dirAt (path : Location) : Option Location :=
  match walk node fuel [] (path.map .down) with
  | .dir d => some d
  | _ => none

/-- The directories that a path passes through. -/
def passes (path : Location) : List Location := through node fuel [] (path.map .down)

/-- The first path passes through the directory that the other leads to. -/
def PassesThrough (path other : Location) : Prop :=
  ∃ d, dirAt node fuel other = some d ∧ d ∈ passes node fuel path

/-- Those among the modes that are for one directory. -/
def modesOf (d : Location) (modes : List (Location × UInt32)) :
    List (Location × UInt32) :=
  modes.filter fun a => decide (dirAt node fuel a.1 = some d)

/-- The mode that is the last for a directory. -/
def lastMode (d : Location) (modes : List (Location × UInt32)) : Option UInt32 :=
  (modesOf node fuel d modes).getLast?.map Prod.snd

/-- Those of the fewest components. -/
def shallowest (modes : List (Location × UInt32)) : List (Location × UInt32) :=
  modes.filter fun a => decide (∀ b ∈ modes, a.1.length ≤ b.1.length)

/-- The modes are set as they should be: none after that of a directory on the way,
the last that is named for a directory last, and none with an unwanted bit. -/
structure ModesRight (named applied : List (Location × UInt32)) : Prop where
  unlocked : applied.Pairwise fun a b => ¬ PassesThrough node fuel b.1 a.1
  last : ∀ d, lastMode node fuel d applied = lastMode node fuel d named
  clean : ∀ a ∈ applied, a.2 &&& unwanted = 0

/-- A path through a directory is longer than any that names it, or as long and
named before; of the entries of a directory, the last has the mode of the last of
those with the fewest components. -/
structure DeepAsLong (named : List (Location × UInt32)) : Prop where
  passing : named.Pairwise fun a b =>
    (PassesThrough node fuel b.1 a.1 → a.1.length < b.1.length) ∧
      (PassesThrough node fuel a.1 b.1 → b.1.length ≤ a.1.length)
  last : ∀ d, (shallowest (modesOf node fuel d named)).getLast?.map Prod.snd =
    lastMode node fuel d named

end Order

/-- What the handle does about the modes of directories: a path's is set where it
leads, and nothing else is touched. -/
structure Dir.SetsModes {δ ι : Type} (D : Dir δ)
    (tree : δ → Location → Option (FileTree.Node Name ι)) (fuel : ℕ)
    (mode : δ → Location → UInt32) : Prop where
  kept : ∀ s path m, tree (D.setPermissions s path m).1 = tree s
  set : ∀ {s path m s'}, D.setPermissions s path m = (s', .ok ()) → ∀ d,
    mode s' d = if dirAt (tree s) fuel path = some d then m else mode s d

/-! ## What is recorded -/

theorem dirMode_clean (mode : UInt32) : dirMode mode &&& unwanted = 0 := by
  unfold dirMode
  split
  · rfl
  · have hbits : (0o777 : UInt32) &&& (~~~dirModeMask &&& unwanted) = 0 := rfl
    rw [permissions, UInt32.and_assoc, UInt32.and_assoc, hbits, UInt32.and_zero]

theorem clean_of_mem_named {entries : List (RawEntry × Data)} {a : Location × UInt32}
    (h : a ∈ named entries) : a.2 &&& unwanted = 0 := by
  obtain ⟨e, _, he⟩ := List.mem_filterMap.mp h
  unfold RawEntry.namesDir at he
  split at he
  · obtain ⟨mode, _, rfl⟩ := Option.map_eq_some_iff.mp he
    exact dirMode_clean mode
  · cases he

namespace Extractor

variable {ρ : Type} {options : ExtractOptions} {R : Root ρ} {x x' : Extractor ρ}
  {entry : RawEntry} {data : Data} {entries : List (RawEntry × Data)}

theorem dirModes_visitDir {path : Location} {mode : Option UInt32}
    (h : (visitDir R x path mode).result = .ok ()) :
    (visitDir R x path mode).extractor.dirModes =
      x.dirModes ++ (mode.map fun m => (path, dirMode m)).toList := by
  unfold visitDir at h ⊢
  cases hcreate : R.createDir x.root path with
  | mk root result =>
    rw [hcreate] at h
    cases result with
    | error err => cases h
    | ok u =>
      cases mode with
      | none => exact (List.append_nil _).symm
      | some m => rfl

theorem dirModes_visitFile (path : Location) :
    (visitFile options R x entry path data).extractor.dirModes = x.dirModes := by
  unfold visitFile
  dsimp only
  split
  · rfl
  · split
    · rfl
    · split
      · rfl
      · split
        · rfl
        · rfl

theorem dirModes_visitSymlink (components : List Name) :
    (visitSymlink options R x entry components data).extractor.dirModes =
      x.dirModes := by
  unfold visitSymlink
  split
  · rfl
  · dsimp only
    split
    · rfl
    · split
      · rfl
      · split
        · rfl
        · rfl
        · split
          · rfl
          · rfl

/-- A visit records the mode of a directory, and no other. -/
theorem dirModes_visit (h : (x.visit options R entry data).result = .ok ()) :
    (x.visit options R entry data).extractor.dirModes =
      x.dirModes ++ entry.namesDir.toList := by
  unfold visit at h ⊢
  unfold RawEntry.namesDir
  cases hcount : x.budget.countEntry options with
  | mk budget counted =>
    rw [hcount] at h
    cases counted with
    | error err => cases h
    | ok u =>
      cases hname : validateEntryName entry.name with
      | error err =>
          rw [hname] at h
          cases h
      | ok components =>
        rw [hname] at h
        cases components with
        | nil =>
            cases entry.kind with
            | dir => exact (List.append_nil _).symm
            | file => exact (List.append_nil _).symm
            | symlink => exact (List.append_nil _).symm
            | other => exact (List.append_nil _).symm
        | cons c cs =>
            cases hkind : entry.kind with
            | dir =>
                rw [hkind] at h
                exact dirModes_visitDir h
            | file => exact (dirModes_visitFile _).trans (List.append_nil _).symm
            | symlink => exact (dirModes_visitSymlink _).trans (List.append_nil _).symm
            | other => exact (List.append_nil _).symm

theorem dirModes_visitAll (h : x.visitAll options R entries = (x', .ok ())) :
    x'.dirModes = x.dirModes ++ named entries := by
  induction entries generalizing x with
  | nil =>
      cases h
      exact (List.append_nil _).symm
  | cons e entries ih =>
      obtain ⟨entry, data⟩ := e
      obtain ⟨hvisit, hrest⟩ := of_visitAll_cons h
      rw [ih hrest, dirModes_visit hvisit, List.append_assoc]
      congr 1
      unfold named
      rw [List.filterMap_cons]
      cases entry.namesDir with
      | none => rfl
      | some a => rfl

end Extractor

/-! ## The order -/

section Order

variable {ι : Type} {node : Location → Option (FileTree.Node Name ι)} {fuel : ℕ}
  {modes : List (Location × UInt32)}

/-- The deeper path comes first. -/
def Deeper (a b : Location × UInt32) : Prop := b.1.length ≤ a.1.length

instance : DecidableRel Deeper := fun a b =>
  inferInstanceAs (Decidable (b.1.length ≤ a.1.length))

instance : Std.Total Deeper := ⟨fun a b => Nat.le_total b.1.length a.1.length⟩

instance : IsTrans (Location × UInt32) Deeper :=
  ⟨fun _ _ _ h h' => Nat.le_trans h' h⟩

theorem deepestFirst_eq (modes : List (Location × UInt32)) :
    Extractor.deepestFirst modes = modes.insertionSort Deeper := rfl

theorem unlocked_iff :
    ((Extractor.deepestFirst modes).Pairwise fun a b =>
      ¬ PassesThrough node fuel b.1 a.1) ↔
    modes.Pairwise fun a b =>
      (PassesThrough node fuel b.1 a.1 → a.1.length < b.1.length) ∧
        (PassesThrough node fuel a.1 b.1 → b.1.length ≤ a.1.length) := by
  rw [deepestFirst_eq, StableSort.pairwise_insertionSort_iff]
  have hpair : ∀ a b : Location × UInt32,
      (if Deeper a b then ¬ PassesThrough node fuel b.1 a.1
        else ¬ PassesThrough node fuel a.1 b.1) ↔
      (PassesThrough node fuel b.1 a.1 → a.1.length < b.1.length) ∧
        (PassesThrough node fuel a.1 b.1 → b.1.length ≤ a.1.length) := by
    intro a b
    by_cases hle : Deeper a b
    · have hlt : ¬ a.1.length < b.1.length := Nat.not_lt.mpr hle
      rw [if_pos hle]
      constructor
      · exact fun h => ⟨fun hb => absurd hb h, fun _ => hle⟩
      · exact fun h hb => hlt (h.1 hb)
    · have hlt : a.1.length < b.1.length := Nat.lt_of_not_le hle
      rw [if_neg hle]
      constructor
      · exact fun h => ⟨fun _ => hlt, fun ha => absurd ha h⟩
      · exact fun h ha => hle (h.2 ha)
  simp only [hpair]

theorem lastMode_deepestFirst (d : Location) :
    lastMode node fuel d (Extractor.deepestFirst modes) =
      (shallowest (modesOf node fuel d modes)).getLast?.map Prod.snd := by
  have hmodes : modesOf node fuel d (modes.insertionSort Deeper) =
      (modesOf node fuel d modes).insertionSort Deeper :=
    StableSort.filter_insertionSort Deeper _ modes
  rw [deepestFirst_eq, lastMode, hmodes, StableSort.getLast?_insertionSort]
  rfl

/-- The modes are set as they should be just where paths are as long as they lead
deep. -/
theorem modesRight_iff (hclean : ∀ a ∈ modes, a.2 &&& unwanted = 0) :
    ModesRight node fuel modes (Extractor.deepestFirst modes) ↔
      DeepAsLong node fuel modes := by
  constructor
  · intro h
    refine ⟨unlocked_iff.mp h.unlocked, fun d => ?_⟩
    rw [← h.last d, lastMode_deepestFirst]
  · intro h
    refine ⟨unlocked_iff.mpr h.passing, fun d => ?_, fun a ha => hclean a ?_⟩
    · rw [← h.last d, lastMode_deepestFirst]
    · rwa [deepestFirst_eq, List.mem_insertionSort] at ha

/-! ## Trees without links -/

theorem dirAt_eq (hlinks : ∀ l target, node l ≠ some (.link target))
    {path d : Location} (h : dirAt node fuel path = some d) : d = path := by
  unfold dirAt at h
  split at h
  · rename_i hwalk
    cases h
    exact eq_of_walk_down hlinks hwalk
  · cases h

theorem length_lt_of_passesThrough
    (hlinks : ∀ l target, node l ≠ some (.link target)) {path other : Location}
    (h : PassesThrough node fuel path other) :
    other.length < path.length := by
  obtain ⟨d, hd, hmem⟩ := h
  obtain ⟨before, name, after, rfl, hbefore⟩ := exists_of_mem_through_down hlinks hmem
  rw [List.nil_append] at hbefore
  rw [← dirAt_eq hlinks hd, hbefore, List.length_append, List.length_cons]
  omega

/-- Where there are no links, no order of the entries goes wrong. -/
theorem deepAsLong_of_no_links (hlinks : ∀ l target, node l ≠ some (.link target))
    (modes : List (Location × UInt32)) : DeepAsLong node fuel modes := by
  refine ⟨List.pairwise_of_forall fun a b => ⟨?_, ?_⟩, fun d => ?_⟩
  · exact length_lt_of_passesThrough hlinks
  · exact fun h => (length_lt_of_passesThrough hlinks h).le
  · have hone : ∀ a ∈ modesOf node fuel d modes, a.1 = d := fun a ha =>
      (dirAt_eq hlinks (of_decide_eq_true (List.mem_filter.mp ha).2)).symm
    have hall : shallowest (modesOf node fuel d modes) = modesOf node fuel d modes := by
      refine List.filter_eq_self.mpr fun a ha => decide_eq_true fun b hb => ?_
      rw [hone a ha, hone b hb]
    rw [hall]
    rfl

end Order

/-! ## Setting them -/

namespace Extractor

variable {δ ι : Type} {D : Dir δ} {tree : δ → Location → Option (FileTree.Node Name ι)}
  {fuel : ℕ} {mode : δ → Location → UInt32} {r r' : ExtractRoot δ}

/-- A re-check that finds nothing wrong changes nothing. -/
theorem root_of_verifyLinks {links : List (Location × Name × Name)}
    (h : verifyLinks D.root.toRoot r links = (r', .ok ())) : r' = r := by
  induction links with
  | nil =>
      cases h
      rfl
  | cons link links ih =>
      obtain ⟨path, link, target⟩ := link
      have hverify : D.root.verifySymlink r path link target =
          ExtractRoot.verifySymlink D r path link target := rfl
      rw [verifyLinks, hverify] at h
      unfold ExtractRoot.verifySymlink at h
      cases hmeta : D.metadata r.dir path with
      | ok yes =>
          rw [hmeta] at h
          exact ih h
      | error err =>
          rw [hmeta] at h
          cases err with
          | notFound => exact ih h
          | filesystemLoop => exact ih h
          | alreadyExists => cases h
          | permissionDenied => cases h
          | crossesDevices => cases h
          | other => cases h

theorem of_setDirMode {path : Location} {m : UInt32}
    (h : ExtractRoot.setDirMode D r path m = (r', .ok ())) :
    D.setPermissions r.dir path m = (r'.dir, .ok ()) := by
  unfold ExtractRoot.setDirMode at h
  cases hset : D.setPermissions r.dir path m with
  | mk s result =>
    rw [hset] at h
    cases result with
    | error err => cases h
    | ok u =>
        cases h
        rfl

/-- A directory ends with the last mode that is set for it. -/
theorem mode_setDirModes (hD : D.SetsModes tree fuel mode)
    {applied : List (Location × UInt32)}
    (h : setDirModes D.root r applied = (r', .ok ())) :
    tree r'.dir = tree r.dir ∧ ∀ d, mode r'.dir d =
      (lastMode (tree r.dir) fuel d applied).getD (mode r.dir d) := by
  induction applied generalizing r with
  | nil =>
      cases h
      exact ⟨rfl, fun _ => rfl⟩
  | cons a applied ih =>
      obtain ⟨path, m⟩ := a
      rw [setDirModes] at h
      cases hset : D.root.setDirMode r path m with
      | mk r₁ result =>
        rw [hset] at h
        cases result with
        | error err => cases h
        | ok u =>
          have hcall := of_setDirMode hset
          obtain ⟨htree, hmode⟩ := ih h
          have hkept : tree r₁.dir = tree r.dir := by
            have hkept := hD.kept r.dir path m
            rwa [hcall] at hkept
          rw [hkept] at htree hmode
          refine ⟨htree, fun d => ?_⟩
          rw [hmode d, hD.set hcall d]
          unfold lastMode modesOf
          by_cases hd : dirAt (tree r.dir) fuel path = some d
          · rw [if_pos hd, List.filter_cons, if_pos (decide_eq_true hd),
              List.getLast?_cons]
            cases (applied.filter fun a =>
              decide (dirAt (tree r.dir) fuel a.1 = some d)).getLast? with
            | none => rfl
            | some b => rfl
          · rw [if_neg hd, List.filter_cons, if_neg (mt of_decide_eq_true hd)]

theorem mode_finish (hD : D.SetsModes tree fuel mode) {x : Extractor (ExtractRoot δ)}
    {summary : ExtractSummary} (h : x.finish D.root = (r', .ok summary)) :
    tree r'.dir = tree x.root.dir ∧ ∀ d, mode r'.dir d =
      (lastMode (tree x.root.dir) fuel d (deepestFirst x.dirModes)).getD
        (mode x.root.dir d) := by
  unfold finish at h
  cases hverify : verifyLinks D.root.toRoot x.root x.links with
  | mk r result =>
    rw [hverify] at h
    cases result with
    | error err => cases h
    | ok u =>
      dsimp only at h
      cases hset : setDirModes D.root r (deepestFirst x.dirModes) with
      | mk r₁ result =>
        rw [hset] at h
        cases result with
        | error err => cases h
        | ok u =>
            cases h
            rw [← root_of_verifyLinks hverify]
            exact mode_setDirModes hD hset

end Extractor

/-- After visits that went well finish sets the modes as it should just where paths
are as long as they lead deep, and what it sets last is what a directory has. -/
theorem dir_modes_right_iff {δ ι : Type} {D : Dir δ}
    {tree : δ → Location → Option (FileTree.Node Name ι)} {fuel : ℕ}
    {mode : δ → Location → UInt32} (hD : D.SetsModes tree fuel mode)
    {options : ExtractOptions} {start : ExtractRoot δ}
    {entries : List (RawEntry × Data)} {x : Extractor (ExtractRoot δ)}
    (hvisits : (Extractor.new start).visitAll options D.root.toRoot entries =
      (x, .ok ())) :
    (∀ root summary, x.finish D.root = (root, .ok summary) →
      tree root.dir = tree x.root.dir ∧ ∀ d, mode root.dir d =
        (lastMode (tree x.root.dir) fuel d (Extractor.deepestFirst x.dirModes)).getD
          (mode x.root.dir d)) ∧
    (ModesRight (tree x.root.dir) fuel (named entries)
        (Extractor.deepestFirst x.dirModes) ↔
      DeepAsLong (tree x.root.dir) fuel (named entries)) := by
  have hmodes : x.dirModes = named entries := Extractor.dirModes_visitAll hvisits
  refine ⟨fun _ _ hfinish => Extractor.mode_finish hD hfinish, ?_⟩
  rw [hmodes]
  exact modesRight_iff fun a ha => clean_of_mem_named ha

/-! ## A handle on a tree of files -/

/-- A tree, and the modes of its directories. -/
structure Moded where
  tree : Files
  mode : Location → UInt32

namespace Moded

def empty : Moded where
  tree := ⟨fun _ => none, fun _ => [], 0, fun _ _ h => by cases h⟩
  mode _ := workingDirMode

/-- The system that the handle asks, every path from its root. -/
def beneath : Kernel where
  cwd := []
  fuel := 40
  device _ := 0
  listPath _ _ _ := .error .other

def step (component : Name) : Step Name :=
  if component = [] ∨ component = dot then .here
  else if component = dotDot then .up
  else .down component

/-- A link's target as it is followed. -/
def linkPath (target : Name) : UnixPath where
  absolute := target.head? == some '/'
  steps := (target.splitOnP isSlash).map step

def path (path : Location) : UnixPath := ⟨false, path.map .down⟩

def openWith (s : Moded) (p : Location) : Moded × IoResult ℕ :=
  match beneath.resolve s.tree (path p) with
  | .file l =>
      match s.tree.node l with
      | some (.file inode) => ({ s with tree := s.tree.put l [] }, .ok inode)
      | _ => (s, .error .other)
  | .vacant l => ({ s with tree := s.tree.put l [] }, .ok s.tree.next)
  | .missing => (s, .error .notFound)
  | _ => (s, .error .other)

def createDirWith (s : Moded) (p : Location) (mode : UInt32) : Moded × IoResult Unit :=
  match beneath.createDirAll false (p.map .down).reverse s.tree with
  | .error err => (s, .error err)
  | .ok t =>
      let made (l : Location) : Bool := (s.tree.node l).isNone && (t.node l).isSome
      (⟨t, fun l => if made l then mode else s.mode l⟩, .ok ())

def removeFile (s : Moded) (p : Location) : Moded × IoResult Unit :=
  match beneath.removeFile s.tree (path p) with
  | .error err => (s, .error err)
  | .ok t => ({ s with tree := t }, .ok ())

def symlink (s : Moded) (target : Name) (p : Location) : Moded × IoResult Unit :=
  match beneath.locate s.tree (path p) with
  | none => (s, .error .notFound)
  | some l =>
      match s.tree.node l with
      | some _ => (s, .error .alreadyExists)
      | none =>
          ({ s with tree := s.tree.place l (some (.link (linkPath target))) nofun },
            .ok ())

/-- The mode of a file is set too, and not kept here. -/
def setPermissions (s : Moded) (p : Location) (mode : UInt32) :
    Moded × IoResult Unit :=
  match beneath.resolve s.tree (path p) with
  | .dir d => ({ s with mode := Function.update s.mode d mode }, .ok ())
  | .file _ => (s, .ok ())
  | .fails => (s, .error .other)
  | _ => (s, .error .notFound)

def dir : Dir Moded where
  createDirWith := createDirWith
  metadata s p := (beneath.metadata s.tree (path p)).map fun found => found == .dir
  openWith s p _ := s.openWith p
  write s inode body :=
    ({ s with tree := s.tree.write inode (s.tree.data inode ++ body) }, none)
  removeFile := removeFile
  symlink := symlink
  setPermissions := setPermissions

theorem setsModes : dir.SetsModes (fun s => s.tree.node) 40 mode where
  kept s p m := by
    unfold dir setPermissions
    dsimp only
    split <;> rfl
  set := by
    intro s p m s' h d
    have hresolve : beneath.resolve s.tree (path p) =
      walk s.tree.node 40 [] (p.map .down) := rfl
    unfold dir setPermissions at h
    dsimp only at h
    unfold dirAt
    rw [hresolve] at h
    cases hwalk : walk s.tree.node 40 [] (p.map .down) with
    | dir d' =>
        rw [hwalk] at h
        cases h
        dsimp only
        rw [Function.update_apply]
        by_cases hd : d = d'
        · rw [if_pos hd, if_pos (by rw [hd])]
        · rw [if_neg hd, if_neg fun h => hd (Option.some.inj h).symm]
    | file l =>
        rw [hwalk] at h
        cases h
        rfl
    | vacant l =>
        rw [hwalk] at h
        cases h
    | missing =>
        rw [hwalk] at h
        cases h
    | fails =>
        rw [hwalk] at h
        cases h

/-- What the visits of an archive leave of an empty root. -/
def visited (entries : List (RawEntry × Data)) :
    Extractor (ExtractRoot Moded) × FsResult Unit :=
  (Extractor.new ⟨empty, [], none⟩).visitAll .new dir.root.toRoot entries

end Moded

def dirEntry (name : Name) (mode : Option UInt32) : RawEntry × Data :=
  (⟨name, .dir, 0, mode, none⟩, ⟨[], false⟩)

/-- A directory and the one it is in, which nobody is to read. -/
def nested : List (RawEntry × Data) :=
  [dirEntry ['a'] (some 0o200), dirEntry ['a', '/', 'b'] (some 0o777)]

theorem dir_modes_right_nested :
    ModesRight (Moded.visited nested).1.root.dir.tree.node 40 (named nested)
      (Extractor.deepestFirst (Moded.visited nested).1.dirModes) := by
  have hvisits : Moded.visited nested = ((Moded.visited nested).1, .ok ()) := rfl
  refine (dir_modes_right_iff Moded.setsModes hvisits).2.mpr ?_
  refine deepAsLong_of_no_links (fun l target h => ?_) _
  have hnode : (Moded.visited nested).1.root.dir.tree.node =
      Function.update (Function.update (fun _ => none) [['a']] (some .dir))
        [['a'], ['b']] (some .dir) := rfl
  rw [hnode, Function.update_apply, Function.update_apply] at h
  split at h
  · cases h
  · split at h <;> cases h

/-- A link that makes a directory's path longer than it is deep. -/
def detour : List (RawEntry × Data) :=
  [dirEntry ['a', '/', 'b'] (some 0o755), dirEntry ['x', '/', 'y'] none,
    (⟨['x', '/', 'y', '/', 'z'], .symlink, 0, none,
      some ['.', '.', '/', '.', '.', '/', 'a']⟩, ⟨[], false⟩),
    dirEntry ['x', '/', 'y', '/', 'z'] (some 0o600)]

/-- The directory `a` gets its mode, by `x/y/z`, before `a/b` does. -/
theorem not_dir_modes_right :
    ¬ ∀ (entries : List (RawEntry × Data)) (x : Extractor (ExtractRoot Moded)),
      Moded.visited entries = (x, .ok ()) →
      ModesRight x.root.dir.tree.node 40 (named entries)
        (Extractor.deepestFirst x.dirModes) := by
  intro h
  have hvisits : Moded.visited detour = ((Moded.visited detour).1, .ok ()) := rfl
  have hunlocked := (h detour _ hvisits).unlocked
  rw [unlocked_iff, Extractor.dirModes_visitAll hvisits] at hunlocked
  have hnamed : named detour = [([['a'], ['b']], 0o755),
    ([['x'], ['y'], ['z']], 0o600)] := rfl
  rw [show (Extractor.new _).dirModes ++ named detour = named detour from rfl, hnamed,
    List.pairwise_cons] at hunlocked
  have hthrough : PassesThrough (Moded.visited detour).1.root.dir.tree.node 40
      [['a'], ['b']] [['x'], ['y'], ['z']] := ⟨[['a']], rfl, by decide⟩
  have hle := (hunlocked.1 _ (List.mem_singleton_self _)).2 hthrough
  exact absurd hle (by decide)

end Fs

end RustSak
