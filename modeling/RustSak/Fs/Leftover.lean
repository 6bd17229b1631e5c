import RustSak.Fs.Ceilings
import RustSak.Fs.ExtractRoot
import Mathlib.Logic.Function.Basic

/-!
# What a failed file leaves

A file whose body fails is taken away by the path it was to be at. That is where its
body is unless a link stood there: opening follows the link, removing does not.
-/

namespace RustSak

namespace Fs

open Library

/-- What a name in a directory stands for; a file by its inode. -/
inductive Entry where
  | dir
  | file (inode : ℕ)
  | link (target : Name)
  deriving DecidableEq

/-- A tree below a root. A path is located where its last name is in the directory
the rest of it leads to, links among them followed; a location is locked if its
directory lets nothing be added or taken. -/
structure DirTree where
  entry : Location → Option Entry
  locate : Location → Option Location
  locked : Location → Bool

namespace DirTree

/-- What a path names, its last name not followed. -/
def lookup (t : DirTree) (path : Location) : Option Entry :=
  (t.locate path).bind t.entry

def put (t : DirTree) (l : Location) (e : Option Entry) : DirTree :=
  { t with entry := Function.update t.entry l e }

/-- A directory was to be made: what it held, and every file, is as it was. -/
structure MadeDir (path : Location) (t t' : DirTree) : Prop where
  lookup : ∀ name, t'.lookup (path ++ [name]) = t.lookup (path ++ [name])
  locate : ∀ name, t.lookup (path ++ [name]) ≠ none →
    t'.locate (path ++ [name]) = t.locate (path ++ [name])
  file : ∀ l inode, t'.entry l = some (.file inode) ↔ t.entry l = some (.file inode)
  locked : ∀ l, t.entry l ≠ none → t'.locked l = t.locked l

/-- A file was opened to be written: one just made, one that was there, or one that
a link at the path leads to. -/
inductive Opened (path : Location) (inode : ℕ) (t : DirTree) : DirTree → Prop where
  | created {l : Location} (hat : t.locate path = some l) (hnone : t.entry l = none)
      (hnew : ∀ l', t.entry l' ≠ some (.file inode)) (hfree : t.locked l = false) :
      Opened path inode t (t.put l (some (.file inode)))
  | truncated {l : Location} (hat : t.locate path = some l)
      (hfile : t.entry l = some (.file inode)) : Opened path inode t t
  | followed {l l' : Location} {target : Name} {t' : DirTree}
      (hat : t.locate path = some l) (hlink : t.entry l = some (.link target))
      (hat' : t'.locate path = some l) (hne : l' ≠ l)
      (hfile : t'.entry l' = some (.file inode)) : Opened path inode t t'

/-- What is opened at the path can be taken away by it: no link stands there, and a
file that does has no other name and is in a directory that lets it go. -/
def Cleanable (t : DirTree) (path : Location) : Prop :=
  (∀ target, t.lookup path ≠ some (.link target)) ∧
  ∀ l inode, t.locate path = some l → t.entry l = some (.file inode) →
    t.locked l = false ∧ ∀ l', t.entry l' = some (.file inode) → l' = l

@[simp] theorem entry_put (t : DirTree) (l l' : Location) (e : Option Entry) :
    (t.put l e).entry l' = if l' = l then e else t.entry l' := Function.update_apply ..

@[simp] theorem locate_put (t : DirTree) (l : Location) (e : Option Entry) :
    (t.put l e).locate = t.locate := rfl

@[simp] theorem locked_put (t : DirTree) (l : Location) (e : Option Entry) :
    (t.put l e).locked = t.locked := rfl

theorem lookup_of_locate {t : DirTree} {path l : Location} (h : t.locate path = some l) :
    t.lookup path = t.entry l := by
  rw [lookup, h]
  rfl

/-- Making sure of the directory does not change what can be taken away from it. -/
theorem MadeDir.cleanable_iff {t t' : DirTree} {path : Location} (h : MadeDir path t t')
    (name : Name) : t'.Cleanable (path ++ [name]) ↔ t.Cleanable (path ++ [name]) := by
  unfold Cleanable
  rw [h.lookup name]
  refine and_congr_right fun _ => ?_
  have hcongr : ∀ l inode, t.entry l = some (.file inode) →
      (t'.locked l = false ∧ (∀ l', t'.entry l' = some (.file inode) → l' = l) ↔
        t.locked l = false ∧ ∀ l', t.entry l' = some (.file inode) → l' = l) := by
    intro l inode hfile
    rw [h.locked l (by rw [hfile]; nofun)]
    simp only [h.file]
  constructor
  · intro hc l inode hat hfile
    have hsome : t.lookup (path ++ [name]) ≠ none := by
      rw [lookup_of_locate hat, hfile]
      nofun
    exact (hcongr l inode hfile).mp
      (hc l inode ((h.locate name hsome).trans hat) ((h.file l inode).mpr hfile))
  · intro hc l inode hat' hfile'
    have hsome : t.lookup (path ++ [name]) ≠ none := by
      rw [← h.lookup name, lookup_of_locate hat', hfile']
      nofun
    have hfile := (h.file l inode).mp hfile'
    exact (hcongr l inode hfile).mpr
      (hc l inode ((h.locate name hsome).symm.trans hat') hfile)

end DirTree

/-- What the calls of the handle do to the tree that `view` shows. -/
structure Dir.Lawful {δ : Type} (D : Dir δ) (view : δ → DirTree) : Prop where
  createDirWith : ∀ s path mode,
    (view s).MadeDir path (view (D.createDirWith s path mode).1)
  openWith : ∀ {s path mode s' inode}, D.openWith s path mode = (s', .ok inode) →
    (view s).Opened path inode (view s')
  write : ∀ s inode body, view (D.write s inode body).1 = view s
  removeFile : ∀ {s path s'}, D.removeFile s path = (s', .ok ()) →
    ∃ l, (view s).locate path = some l ∧ view s' = (view s).put l none
  removeFile_error : ∀ {s path s' err}, D.removeFile s path = (s', .error err) →
    view s' = view s
  removeFile_free : ∀ {s path l inode}, (view s).locate path = some l →
    (view s).entry l = some (.file inode) →
    ((D.removeFile s path).2 = .ok () ↔ (view s).locked l = false)

namespace Dir.Lawful

open DirTree

variable {δ : Type} {D : Dir δ} {view : δ → DirTree} {path : Location} {inode : ℕ}

/-- Removing takes nothing but what is at the path. -/
theorem entry_removeFile_of_ne (hD : D.Lawful view) {s : δ} {l l' : Location}
    (hat : (view s).locate path = some l) (hne : l' ≠ l) :
    (view (D.removeFile s path).1).entry l' = (view s).entry l' := by
  cases hremove : D.removeFile s path with
  | mk s' result =>
    cases result with
    | error err => rw [hD.removeFile_error hremove]
    | ok u =>
        obtain ⟨l'', hat', hview⟩ := hD.removeFile hremove
        obtain rfl : l = l'' := Option.some.inj (hat.symm.trans hat')
        rw [hview, entry_put, if_neg hne]

/-- A file at the path itself is taken unless its directory is locked. -/
theorem entry_removeFile (hD : D.Lawful view) {s : δ} {l : Location}
    (hat : (view s).locate path = some l)
    (hfile : (view s).entry l = some (.file inode)) :
    (view (D.removeFile s path).1).entry l =
      if (view s).locked l = false then none else some (.file inode) := by
  have hfree := hD.removeFile_free hat hfile
  cases hremove : D.removeFile s path with
  | mk s' result =>
    rw [hremove] at hfree
    cases result with
    | error err =>
        rw [if_neg fun h => absurd (hfree.mpr h) nofun, hD.removeFile_error hremove]
        exact hfile
    | ok u =>
        obtain ⟨l', hat', hview⟩ := hD.removeFile hremove
        obtain rfl : l = l' := Option.some.inj (hat.symm.trans hat')
        rw [if_pos (hfree.mp rfl), hview, entry_put, if_pos rfl]

/-- Whether a file just opened is gone once its path has been removed. -/
theorem removed_iff (hD : D.Lawful view) {t : DirTree} {s : δ}
    (hopen : t.Opened path inode (view s)) :
    (∀ l, (view (D.removeFile s path).1).entry l ≠ some (.file inode)) ↔
      t.Cleanable path := by
  generalize hview : view s = t' at hopen
  cases hopen with
  | @created l hat hnone hnew hfree =>
      have hat' : (view s).locate path = some l := by rw [hview]; exact hat
      have hfile : (view s).entry l = some (.file inode) := by
        rw [hview, entry_put, if_pos rfl]
      have hlookup := lookup_of_locate hat
      refine iff_of_true ?_ ⟨?_, ?_⟩
      · intro l'
        by_cases hl : l' = l
        · rw [hl, hD.entry_removeFile hat' hfile, hview, locked_put, if_pos hfree]
          nofun
        · rw [hD.entry_removeFile_of_ne hat' hl, hview, entry_put, if_neg hl]
          exact hnew l'
      · intro target
        rw [hlookup, hnone]
        nofun
      · intro l' inode' hat'' hfile'
        obtain rfl : l = l' := Option.some.inj (hat.symm.trans hat'')
        rw [hnone] at hfile'
        cases hfile'
  | @truncated l hat hfile =>
      subst hview
      have hlookup := lookup_of_locate hat
      constructor
      · intro hgone
        refine ⟨fun target => ?_, fun l' inode' hat' hfile' => ?_⟩
        · rw [hlookup, hfile]
          nofun
        · obtain rfl : l = l' := Option.some.inj (hat.symm.trans hat')
          rw [hfile] at hfile'
          cases hfile'
          have hl := hgone l
          rw [hD.entry_removeFile hat hfile] at hl
          refine ⟨by_contra fun hlocked => hl (if_neg hlocked), fun l' hl' => ?_⟩
          by_contra hne
          exact hgone l' ((hD.entry_removeFile_of_ne hat hne).trans hl')
      · rintro ⟨_, hone⟩ l'
        obtain ⟨hfree, honly⟩ := hone l inode hat hfile
        by_cases hl : l' = l
        · rw [hl, hD.entry_removeFile hat hfile, if_pos hfree]
          nofun
        · rw [hD.entry_removeFile_of_ne hat hl]
          exact fun h => hl (honly l' h)
  | @followed l l' target _ hat hlink hat' hne hfile =>
      subst hview
      refine iff_of_false (fun hgone => hgone l' ?_) fun hclean => hclean.1 target ?_
      · rw [hD.entry_removeFile_of_ne hat' hne, hfile]
      · rw [lookup_of_locate hat, hlink]

theorem dir_createDirUncached (r : ExtractRoot δ) (path : Location) :
    (ExtractRoot.createDirUncached D r path).1.dir =
      (D.createDirWith r.dir path workingDirMode).1 := by
  unfold ExtractRoot.createDirUncached
  split
  · rename_i heq
    rw [heq]
  · rename_i heq
    rw [heq]
    split
    · rfl
    · rfl
  · rename_i heq
    rw [heq]

theorem madeDir_createParent (hD : D.Lawful view) (r : ExtractRoot δ) (path : Location) :
    (view r.dir).MadeDir path.dropLast
      (view (ExtractRoot.createParent D r path).1.dir) := by
  have hkept : (view r.dir).MadeDir path.dropLast (view r.dir) :=
    ⟨fun _ => rfl, fun _ _ => rfl, fun _ _ => Iff.rfl, fun _ _ => rfl⟩
  have hmade := hD.createDirWith r.dir path.dropLast workingDirMode
  rw [← dir_createDirUncached] at hmade
  unfold ExtractRoot.createParent ExtractRoot.createDir
  split
  · exact hkept
  · split
    · exact hkept
    · split
      · rename_i heq
        rw [heq] at hmade
        exact hmade
      · rename_i heq
        rw [heq] at hmade
        exact hmade

/-- A file created at a path is opened in a tree with as much to clean away. -/
theorem opened_of_createFile (hD : D.Lawful view) {r r' : ExtractRoot δ}
    {mode : Option UInt32} (hne : path ≠ [])
    (h : ExtractRoot.createFile D r path mode = (r', .ok ())) :
    ∃ (t : DirTree) (inode : ℕ), r'.handle = some inode ∧ t.Opened path inode (view r'.dir) ∧
      (t.Cleanable path ↔ (view r.dir).Cleanable path) := by
  have hmade := hD.madeDir_createParent r path
  unfold ExtractRoot.createFile at h
  split at h
  · cases h
  · rename_i r₁ heq
    rw [heq] at hmade
    split at h
    · cases h
    · rename_i dir inode hopen
      cases h
      refine ⟨view r₁.dir, inode, rfl, hD.openWith hopen, ?_⟩
      have hlast := List.dropLast_append_getLast hne
      rw [← hlast]
      exact hmade.cleanable_iff _

theorem view_writeFile (hD : D.Lawful view) (r : ExtractRoot δ) (body : List UInt8) :
    view (ExtractRoot.writeFile D r body).1.dir = view r.dir := by
  unfold ExtractRoot.writeFile
  split
  · rfl
  · exact hD.write _ _ _

end Dir.Lawful

namespace Extractor

variable {ρ : Type}

/-- The path and the state of the handle once a visit has opened a file, if it comes
to that. -/
def opens (options : ExtractOptions) (R : Root ρ) (x : Extractor ρ) (entry : RawEntry) :
    Option (Location × ρ) :=
  match x.budget.countEntry options with
  | (_, .error _) => none
  | (budget, .ok ()) =>
      match validateEntryName entry.name with
      | .error _ => none
      | .ok [] => none
      | .ok components =>
          match entry.kind with
          | .file =>
              match budget.reserve options entry.size with
              | .error _ => none
              | .ok _ =>
                  match R.createFile x.root components
                      ((options.fileMode.or entry.mode).map permissions) with
                  | (_, .error _) => none
                  | (root, .ok ()) => some (components, root)
          | _ => none

variable {options : ExtractOptions} {R : Root ρ} {x : Extractor ρ} {entry : RawEntry}
  {data : Data} {path : Location} {opened : ρ}

/-- What a visit that opens a file has passed before. -/
theorem of_opens (h : x.opens options R entry = some (path, opened)) :
    path ≠ [] ∧ ∃ counted budget, x.budget.countEntry options = (counted, .ok ()) ∧
      validateEntryName entry.name = .ok path ∧ entry.kind = .file ∧
      counted.reserve options entry.size = .ok budget ∧
      R.createFile x.root path ((options.fileMode.or entry.mode).map permissions) =
        (opened, .ok ()) := by
  unfold opens at h
  cases hcount : x.budget.countEntry options with
  | mk counted result =>
    rw [hcount] at h
    cases result with
    | error err => cases h
    | ok u =>
      cases hname : validateEntryName entry.name with
      | error err =>
          rw [hname] at h
          cases h
      | ok components =>
        rw [hname] at h
        cases components with
        | nil => cases h
        | cons c cs =>
          cases hkind : entry.kind with
          | file =>
            rw [hkind] at h
            dsimp only at h
            cases hreserve : counted.reserve options entry.size with
            | error err =>
                rw [hreserve] at h
                cases h
            | ok budget =>
              rw [hreserve] at h
              cases hcreate : R.createFile x.root (c :: cs)
                  ((options.fileMode.or entry.mode).map permissions) with
              | mk root created =>
                rw [hcreate] at h
                cases created with
                | error err => cases h
                | ok u =>
                    cases h
                    exact ⟨List.cons_ne_nil c cs, counted, budget, rfl, rfl, rfl,
                      hreserve, hcreate⟩
          | dir =>
              rw [hkind] at h
              cases h
          | symlink =>
              rw [hkind] at h
              cases h
          | other =>
              rw [hkind] at h
              cases h

theorem copyBody_root (root : ρ) (path : Location) (data : Data) (limit : UInt64) :
    (copyBody R root path data limit).1 =
      (R.writeFile root path (data.bytes.take limit.toNat)).1 := by
  unfold copyBody
  dsimp only
  split <;> rename_i heq <;> rw [heq]

theorem root_of_visitFile {budget : Budget}
    (hreserve : x.budget.reserve options entry.size = .ok budget)
    (hcreate : R.createFile x.root path
      ((options.fileMode.or entry.mode).map permissions) = (opened, .ok ()))
    (hfail : (x.visitFile options R entry path data).result ≠ .ok ()) :
    ∃ body, (x.visitFile options R entry path data).extractor.root =
      R.removeFile (R.writeFile opened path body).1 path := by
  unfold visitFile at hfail ⊢
  simp only [hreserve, hcreate] at hfail ⊢
  refine ⟨data.bytes.take (Word64.satAdd entry.size 1).toNat, ?_⟩
  rw [← copyBody_root]
  split at hfail
  · rename_i hcopied
    rw [if_pos hcopied]
  · rename_i hcopied
    rw [if_neg hcopied]
    split at hfail
    · rename_i hsize
      rw [if_pos hsize]
    · exact absurd rfl hfail

/-- A visit that fails once it has opened a file removes what is at its path. -/
theorem root_of_failed (h : x.opens options R entry = some (path, opened))
    (hfail : (x.visit options R entry data).result ≠ .ok ()) :
    ∃ body, (x.visit options R entry data).extractor.root =
      R.removeFile (R.writeFile opened path body).1 path := by
  obtain ⟨hne, counted, budget, hcount, hname, hkind, hreserve, hcreate⟩ := of_opens h
  obtain ⟨c, cs, rfl⟩ := List.exists_cons_of_ne_nil hne
  have hvisit : x.visit options R entry data =
      { x with budget := counted }.visitFile options R entry (c :: cs) data := by
    simp only [visit, hcount, hname, hkind]
  rw [hvisit] at hfail ⊢
  exact root_of_visitFile hreserve hcreate hfail

end Extractor

/-- What an archive's extraction leaves of a file it failed on while the file was
being written is nothing, just where the file could be cleaned away. -/
theorem failed_file_left_iff {δ : Type} {D : Dir δ} {view : δ → DirTree}
    (hD : D.Lawful view) {options : ExtractOptions} {start : ExtractRoot δ}
    {before after : List (RawEntry × Data)} {entry : RawEntry} {data : Data}
    {x : Extractor (ExtractRoot δ)} {path : Location} {opened : ExtractRoot δ}
    {inode : ℕ}
    (hbefore : (Extractor.new start).visitAll options D.root.toRoot before =
      (x, .ok ()))
    (hopen : x.opens options D.root.toRoot entry = some (path, opened))
    (hhandle : opened.handle = some inode)
    (hfail : (x.visit options D.root.toRoot entry data).result ≠ .ok ()) :
    (∀ l, (view ((Extractor.new start).visitAll options D.root.toRoot
        (before ++ (entry, data) :: after)).1.root.dir).entry l ≠
      some (.file inode)) ↔ (view x.root.dir).Cleanable path := by
  obtain ⟨hne, -, -, -, -, -, -, hcreate⟩ := Extractor.of_opens hopen
  obtain ⟨body, hroot⟩ := Extractor.root_of_failed hopen hfail
  obtain ⟨t, inode', hhandle', hopened, hclean⟩ := hD.opened_of_createFile hne hcreate
  obtain rfl : inode = inode' := Option.some.inj (hhandle.symm.trans hhandle')
  rw [Extractor.visitAll_append_ok hbefore, Extractor.visitAll_cons_error hfail, hroot]
  rw [← hclean]
  refine hD.removed_iff (s := (ExtractRoot.writeFile D opened body).1.dir) ?_
  rw [hD.view_writeFile]
  exact hopened

/-! ## A directory without subdirectories -/

/-- What is in the directory, and what the files hold; `next` is the next inode. -/
structure Flat where
  entry : Location → Option Entry
  data : ℕ → List UInt8
  next : ℕ
  used : ∀ l inode, entry l = some (.file inode) → inode < next

namespace Flat

def empty : Flat where
  entry _ := none
  data _ := []
  next := 0
  used _ _ h := by cases h

/-- A link within the directory. -/
def isPlain (target : Name) : Bool :=
  target ≠ [] && target ≠ dot && target ≠ dotDot && !target.any isSlash

/-- What a name leads to, at most one link followed. -/
def leadsTo (s : Flat) (name : Name) : Option Name :=
  match s.entry [name] with
  | some (.link target) => if isPlain target then some target else none
  | _ => some name

def create (s : Flat) (name : Name) : Flat where
  entry := Function.update s.entry [name] (some (.file s.next))
  data := Function.update s.data s.next []
  next := s.next + 1
  used l inode h := by
    rw [Function.update_apply] at h
    split at h
    · cases h
      exact Nat.lt_succ_self _
    · exact (s.used l inode h).trans (Nat.lt_succ_self _)

def truncate (s : Flat) (inode : ℕ) : Flat :=
  { s with data := Function.update s.data inode [] }

/-- Puts what is no file. -/
def put (s : Flat) (name : Name) (e : Option Entry)
    (h : ∀ inode, e ≠ some (.file inode)) : Flat :=
  { s with
    entry := Function.update s.entry [name] e
    used := fun l inode hl => by
      rw [Function.update_apply] at hl
      split at hl
      · exact absurd hl (h inode)
      · exact s.used l inode hl }

def openWith (s : Flat) : Location → UInt32 → Flat × IoResult ℕ
  | [name], _ =>
      match s.leadsTo name with
      | none => (s, .error .other)
      | some name =>
          match s.entry [name] with
          | none => (s.create name, .ok s.next)
          | some (.file inode) => (s.truncate inode, .ok inode)
          | some .dir => (s, .error .other)
          | some (.link _) => (s, .error .filesystemLoop)
  | _, _ => (s, .error .notFound)

def metadata (s : Flat) : Location → IoResult Bool
  | [] => .ok true
  | [name] =>
      match s.leadsTo name with
      | none => .error .other
      | some name =>
          match s.entry [name] with
          | none => .error .notFound
          | some (.file _) => .ok false
          | some .dir => .ok true
          | some (.link _) => .error .filesystemLoop
  | _ => .error .notFound

def removeFile (s : Flat) : Location → Flat × IoResult Unit
  | [name] =>
      match s.entry [name] with
      | none => (s, .error .notFound)
      | some .dir => (s, .error .other)
      | some _ => (s.put name none nofun, .ok ())
  | _ => (s, .error .notFound)

def symlink (s : Flat) (target : Name) : Location → Flat × IoResult Unit
  | [name] =>
      match s.entry [name] with
      | none => (s.put name (some (.link target)) nofun, .ok ())
      | some _ => (s, .error .alreadyExists)
  | _ => (s, .error .notFound)

/-- The handle of the directory. -/
def dir : Dir Flat where
  createDirWith s path _ := (s, if path = [] then .ok () else .error .other)
  metadata := metadata
  openWith := openWith
  write s inode body :=
    ({ s with data := Function.update s.data inode (s.data inode ++ body) }, none)
  removeFile := removeFile
  symlink := symlink
  setPermissions s _ _ := (s, .ok ())

def view (s : Flat) : DirTree where
  entry := s.entry
  locate path := if path.length = 1 then some path else none
  locked _ := false

theorem opened_openWith {s s' : Flat} {path : Location} {mode : UInt32} {inode : ℕ}
    (h : s.openWith path mode = (s', .ok inode)) :
    (view s).Opened path inode (view s') := by
  rcases path with _ | ⟨name, _ | ⟨_, _⟩⟩
  · cases h
  · unfold openWith at h
    cases hname : s.entry [name] with
    | none =>
        simp only [leadsTo, hname] at h
        cases h
        exact .created rfl hname (fun l hl => lt_irrefl _ (s.used l _ hl)) rfl
    | some e =>
      cases e with
      | dir =>
          simp only [leadsTo, hname] at h
          cases h
      | file i =>
          simp only [leadsTo, hname] at h
          cases h
          exact .truncated rfl hname
      | link target =>
          simp only [leadsTo, hname] at h
          cases hplain : isPlain target with
          | false =>
              rw [hplain] at h
              cases h
          | true =>
              simp only [hplain, if_true] at h
              have hne : s.entry [target] ≠ s.entry [name] → [target] ≠ [name] :=
                fun h heq => h (by rw [heq])
              cases htarget : s.entry [target] with
              | none =>
                  simp only [htarget] at h
                  cases h
                  rw [hname, htarget] at hne
                  exact .followed rfl hname rfl (hne nofun) (Function.update_self ..)
              | some e' =>
                cases e' with
                | file i =>
                    simp only [htarget] at h
                    cases h
                    rw [hname, htarget] at hne
                    exact .followed rfl hname rfl (hne nofun) htarget
                | dir =>
                    simp only [htarget] at h
                    cases h
                | link target' =>
                    simp only [htarget] at h
                    cases h
  · cases h

theorem removeFile_eq_ok {s s' : Flat} {path : Location}
    (h : s.removeFile path = (s', .ok ())) :
    ∃ l, (view s).locate path = some l ∧ view s' = (view s).put l none := by
  unfold removeFile at h
  split at h
  · rename_i name
    split at h
    · cases h
    · cases h
    · cases h
      exact ⟨[name], rfl, rfl⟩
  · cases h

theorem removeFile_eq_error {s s' : Flat} {path : Location} {err : IoKind}
    (h : s.removeFile path = (s', .error err)) : s' = s := by
  unfold removeFile at h
  split at h
  · split at h
    · cases h
      rfl
    · cases h
      rfl
    · cases h
  · cases h
    rfl

theorem removeFile_ok {s : Flat} {path l : Location} {inode : ℕ}
    (hat : (view s).locate path = some l) (hfile : s.entry l = some (.file inode)) :
    (s.removeFile path).2 = .ok () := by
  have hat' : (if path.length = 1 then some path else none) = some l := hat
  split at hat'
  · rename_i hlength
    cases hat'
    obtain ⟨name, rfl⟩ := List.length_eq_one_iff.mp hlength
    simp only [removeFile, hfile]
  · cases hat'

theorem lawful : dir.Lawful view where
  createDirWith _ _ _ := ⟨fun _ => rfl, fun _ _ => rfl, fun _ _ => Iff.rfl, fun _ _ => rfl⟩
  openWith := opened_openWith
  write _ _ _ := rfl
  removeFile := removeFile_eq_ok
  removeFile_error h := congrArg view (removeFile_eq_error h)
  removeFile_free hat hfile := iff_of_true (removeFile_ok hat hfile) rfl

end Flat

/-- A file `a` of no bytes, and a stream that has one. -/
theorem failed_file_left_fresh :
    Flat.empty.view.Cleanable [['a']] ∧
      ∀ l, (Flat.view ((Extractor.new ⟨Flat.empty, [], none⟩).visitAll .new
        Flat.dir.root.toRoot [(fileEntry ['a'] 0, zeros 1)]).1.root.dir).entry l ≠
          some (.file 0) := by
  have hclean : Flat.empty.view.Cleanable [['a']] := ⟨nofun, nofun⟩
  refine ⟨hclean, ?_⟩
  have hopen : (Extractor.new ⟨Flat.empty, [], none⟩).opens .new Flat.dir.root.toRoot
      (fileEntry ['a'] 0) = some ([['a']], ⟨Flat.empty.create ['a'], [], some 0⟩) := rfl
  refine (@failed_file_left_iff Flat Flat.dir Flat.view Flat.lawful .new _ [] [] _ _ _ _
    _ _ rfl hopen rfl ?_).mpr hclean
  nofun

/-- A link to `t`, a file where the link is, and what is written is left at `t`. -/
theorem not_failed_file_left :
    ¬ ∀ (options : ExtractOptions) (start : ExtractRoot Flat)
      (before after : List (RawEntry × Data)) (entry : RawEntry) (data : Data)
      (x : Extractor (ExtractRoot Flat)) (path : Location) (opened : ExtractRoot Flat)
      (inode : ℕ),
      (Extractor.new start).visitAll options Flat.dir.root.toRoot before = (x, .ok ()) →
      x.opens options Flat.dir.root.toRoot entry = some (path, opened) →
      opened.handle = some inode →
      (x.visit options Flat.dir.root.toRoot entry data).result ≠ .ok () →
      ∀ l, (Flat.view ((Extractor.new start).visitAll options Flat.dir.root.toRoot
        (before ++ (entry, data) :: after)).1.root.dir).entry l ≠
          some (.file inode) := by
  intro h
  let link : RawEntry := ⟨['l'], .symlink, 0, none, some ['t']⟩
  refine h .new ⟨Flat.empty, [], none⟩ [(link, zeros 0)] [] (fileEntry ['l'] 0) (zeros 1)
    _ _ _ 0 rfl rfl rfl ?_ [['t']] rfl
  nofun

end Fs

end RustSak
