import RustSak.Fs.ExtractRoot
import RustSak.Fs.Recorded
import RustSak.Library.Beneath
import Mathlib.Data.List.Infix
import Mathlib.Logic.Function.Basic

/-!
# The directories already created

A directory that was created is not created again. That is sound because an extraction
takes away nothing that a path to a directory leads through: what it takes away is the
file it opened last, or a link that leads out or nowhere, and a link on the way to a
directory leads to one.
-/

namespace RustSak

namespace Fs

open Library FileTree Beneath

/-- What a path leads to below the root. -/
def resolve {ι : Type} (entries : Entries Name ι) (limit : ℕ) (path : Location) : Found Name :=
  find entries limit [] (path.map .down)

/-- What is told of it: whether it is a directory. -/
def told : Found Name → IoResult Bool
  | .dir _ => .ok true
  | .file _ => .ok false
  | .vacant _ => .error .notFound
  | .missing => .error .notFound
  | .notDir => .error .other
  | .denied => .error .permissionDenied
  | .loops => .error .filesystemLoop
  | .escapes => .error .permissionDenied

/-- Nothing is taken away or replaced: directories and links are as they were. -/
structure Extends {ι : Type} (entries entries' : Entries Name ι) : Prop where
  dir : ∀ {l searchable}, entries l = some (.dir searchable) → entries' l = some (.dir searchable)
  link : ∀ {l target}, entries l = some (.link target) → entries' l = some (.link target)

theorem Extends.keeps {ι : Type} {entries entries' : Entries Name ι}
    (h : Extends entries entries') :
    Keeps entries entries' := ⟨h.dir, fun hlink _ => h.link hlink⟩

/-- What the calls of the handle do to the tree below the root: paths are resolved
beneath it, through so many links; `ι` is what tells files apart. -/
structure Dir.Anchored {δ ι : Type} (D : Dir δ) (tree : δ → Entries Name ι) (limit : ℕ) : Prop where
  metadata : ∀ s path, D.metadata s path = told (resolve (tree s) limit path)
  createDirWith_extends : ∀ s path mode, Extends (tree s) (tree (D.createDirWith s path mode).1)
  createDirWith_ok : ∀ {s path mode s'}, D.createDirWith s path mode = (s', .ok ()) →
    ∃ d, resolve (tree s') limit path = .dir d
  /-- A directory that is there is no error, and nothing is done. -/
  createDirWith_dir : ∀ {s path d} mode, resolve (tree s) limit path = .dir d →
    (D.createDirWith s path mode).2 = .ok () ∧ tree (D.createDirWith s path mode).1 = tree s
  openWith_extends : ∀ s path mode, Extends (tree s) (tree (D.openWith s path mode).1)
  openWith_ok : ∀ {s path mode s' inode}, D.openWith s path mode = (s', .ok inode) →
    ∃ l, resolve (tree s') limit path = .file l
  write : ∀ s inode body, tree (D.write s inode body).1 = tree s
  symlink_extends : ∀ s target path, Extends (tree s) (tree (D.symlink s target path).1)
  removeFile_error : ∀ {s path s' err}, D.removeFile s path = (s', .error err) → tree s' = tree s
  /-- The last name of the path is not followed, and it is no directory. -/
  removeFile_ok : ∀ {s path s'}, D.removeFile s path = (s', .ok ()) →
    ∃ l, Located (tree s) limit path l ∧ (∀ searchable, tree s l ≠ some (.dir searchable)) ∧
      ∀ l', l' ≠ l → tree s' l' = tree s l'

/-! ## The ancestors of a path -/

theorem ancestors_concat (path : Location) (name : Name) :
    ancestors (path ++ [name]) = (path ++ [name]) :: ancestors path := by
  have hinits : (path ++ [name]).inits = path.inits ++ [path ++ [name]] := by simp
  have htail : (path.inits ++ [path ++ [name]]).tail = path.inits.tail ++ [path ++ [name]] := by
    cases path <;> simp
  rw [ancestors, hinits, htail, List.reverse_append]
  rfl

theorem mem_ancestors {path a : Location} : a ∈ ancestors path ↔ a ≠ [] ∧ a <+: path := by
  induction path using List.reverseRecOn with
  | nil => simp [ancestors]
  | append_singleton path name ih =>
    rw [ancestors_concat, List.mem_cons, ih, List.prefix_concat_iff]
    constructor
    · rintro (rfl | ⟨hne, hpath⟩)
      · exact ⟨by simp, Or.inl rfl⟩
      · exact ⟨hne, Or.inr hpath⟩
    · rintro ⟨hne, rfl | hpath⟩
      · exact Or.inl rfl
      · exact Or.inr ⟨hne, hpath⟩

/-- With a path there are its ancestors. -/
def Closed (created : List Location) : Prop :=
  ∀ path ∈ created, ∀ a ∈ ancestors path, a ∈ created

theorem mem_remember {created as : List Location} {a : Location} (h : a ∈ remember created as) :
    a ∈ created ∨ a ∈ as := by
  induction as generalizing created with
  | nil => exact Or.inl h
  | cons ancestor as ih =>
    rw [remember] at h
    split at h
    · exact Or.inl h
    · obtain hmem | hmem := ih h
      · obtain rfl | hmem := List.mem_cons.mp hmem
        · exact Or.inr List.mem_cons_self
        · exact Or.inl hmem
      · exact Or.inr (List.mem_cons_of_mem _ hmem)

theorem subset_remember (created as : List Location) : created ⊆ remember created as := by
  induction as generalizing created with
  | nil => exact List.Subset.refl _
  | cons ancestor as ih =>
    rw [remember]
    split
    · exact List.Subset.refl _
    · exact List.Subset.trans (List.subset_cons_self _ _) (ih _)

/-- The first ancestor that is there has its own there too, so the loop may stop. -/
theorem ancestors_subset_remember {created : List Location} {path : Location}
    (h : ∀ a ∈ ancestors path, a ∈ created → ancestors a ⊆ created) :
    ancestors path ⊆ remember created (ancestors path) := by
  induction path using List.reverseRecOn generalizing created with
  | nil => simp [ancestors]
  | append_singleton path name ih =>
    rw [ancestors_concat, remember]
    split
    · rename_i hmem
      rw [← ancestors_concat]
      exact h _ (by simp [ancestors_concat]) hmem
    · have hrest : ∀ a ∈ ancestors path, a ∈ (path ++ [name]) :: created →
          ancestors a ⊆ (path ++ [name]) :: created := by
        intro a ha hmem
        have hne : a ≠ path ++ [name] := by
          intro heq
          have hlength := (mem_ancestors.mp ha).2.length_le
          rw [heq, List.length_append, List.length_singleton] at hlength
          omega
        have hcreated := (List.mem_cons.mp hmem).resolve_left hne
        exact List.subset_cons_of_subset _
          (h a (by rw [ancestors_concat]; exact List.mem_cons_of_mem _ ha) hcreated)
      exact List.cons_subset.mpr ⟨subset_remember _ _ List.mem_cons_self, ih hrest⟩

theorem Closed.remember {created : List Location} (h : Closed created) (path : Location) :
    Closed (remember created (ancestors path)) := by
  intro p hp a ha
  obtain hmem | hmem := mem_remember hp
  · exact subset_remember _ _ (h p hmem a ha)
  · refine ancestors_subset_remember (fun q _ hq => h q hq) ?_
    obtain ⟨hne, hpre⟩ := mem_ancestors.mp ha
    exact mem_ancestors.mpr ⟨hne, hpre.trans (mem_ancestors.mp hmem).2⟩

/-! ## The calls -/

namespace ExtractRoot

variable {δ ι : Type} {D : Dir δ} {tree : δ → Entries Name ι} {limit : ℕ} {r r' : ExtractRoot δ}

variable (tree limit) in
/-- Each path in the cache leads to a directory beneath the root, and so do its
ancestors, which are in the cache. -/
structure Cached (r : ExtractRoot δ) : Prop where
  closed : Closed r.created
  resolves : ∀ path ∈ r.created, ∃ d, resolve (tree r.dir) limit path = .dir d

/-- What keeps directories and the links to them keeps the cache right. -/
theorem Cached.keeps (h : r.Cached tree limit) (hkeeps : Keeps (tree r.dir) (tree r'.dir))
    (hcreated : r'.created = r.created) : r'.Cached tree limit := by
  refine ⟨hcreated ▸ h.closed, fun path hpath => ?_⟩
  obtain ⟨d, hd⟩ := h.resolves path (hcreated ▸ hpath)
  exact ⟨d, (hkeeps.leads (Leads.of_find hd)).find_eq⟩

/-- A path to a directory passes a directory at each ancestor. -/
theorem resolve_ancestor {entries : Entries Name ι} {path a d : Location}
    (h : resolve entries limit path = .dir d) (ha : a ∈ ancestors path) :
    ∃ d', resolve entries limit a = .dir d' := by
  obtain ⟨rest, rfl⟩ := (mem_ancestors.mp ha).2
  obtain ⟨d', hd'⟩ := (Leads.of_find h).of_append (List.map_append ..)
  exact ⟨d', hd'.find_eq⟩

/-- One call of the uncached `mkdir`: nothing is lost, and success means a directory. -/
theorem createDirUncached_spec (hD : D.Anchored tree limit) (r : ExtractRoot δ) (path : Location) :
    Extends (tree r.dir) (tree (createDirUncached D r path).1.dir) ∧
    (createDirUncached D r path).1.created = r.created ∧
    ((createDirUncached D r path).2 = .ok () →
      ∃ d, resolve (tree (createDirUncached D r path).1.dir) limit path = .dir d) := by
  have hextends := hD.createDirWith_extends r.dir path workingDirMode
  unfold createDirUncached
  cases hcreate : D.createDirWith r.dir path workingDirMode with
  | mk s result =>
  rw [hcreate] at hextends
  cases result with
  | ok u => exact ⟨hextends, rfl, fun _ => hD.createDirWith_ok hcreate⟩
  | error err =>
  cases err with
  | alreadyExists =>
    dsimp only
    rw [hD.metadata]
    cases hfound : resolve (tree s) limit path with
    | dir d => exact ⟨hextends, rfl, fun _ => ⟨d, hfound⟩⟩
    | _ => exact ⟨hextends, rfl, nofun⟩
  | _ => exact ⟨hextends, rfl, nofun⟩

/-- On a directory that is there it does nothing. -/
theorem createDirUncached_dir (hD : D.Anchored tree limit) {path d : Location}
    (h : resolve (tree r.dir) limit path = .dir d) :
    (createDirUncached D r path).2 = .ok () ∧
      tree (createDirUncached D r path).1.dir = tree r.dir := by
  obtain ⟨hok, htree⟩ := hD.createDirWith_dir workingDirMode h
  unfold createDirUncached
  cases hcreate : D.createDirWith r.dir path workingDirMode with
  | mk s result =>
  rw [hcreate] at hok htree
  obtain rfl : result = .ok () := hok
  exact ⟨rfl, htree⟩

theorem createDir_cached (hD : D.Anchored tree limit) (h : r.Cached tree limit) (path : Location) :
    (createDir D r path).1.Cached tree limit := by
  unfold createDir
  split
  · exact h
  · obtain ⟨hextends, hcreated, hdir⟩ := createDirUncached_spec hD r path
    cases huncached : createDirUncached D r path with
    | mk r' result =>
    rw [huncached] at hextends hcreated hdir
    have hkept : r'.Cached tree limit := h.keeps hextends.keeps hcreated
    cases result with
    | error err => exact hkept
    | ok u =>
      obtain ⟨d, hd⟩ := hdir rfl
      refine ⟨hkept.closed.remember path, fun p hp => ?_⟩
      obtain hmem | hmem := mem_remember hp
      · exact hkept.resolves p hmem
      · exact resolve_ancestor hd hmem

/-- The cached call does what the uncached one would. -/
theorem createDir_eq (hD : D.Anchored tree limit) (h : r.Cached tree limit) (path : Location) :
    (createDir D r path).2 = (createDirUncached D r path).2 ∧
      tree (createDir D r path).1.dir = tree (createDirUncached D r path).1.dir := by
  unfold createDir
  split
  · rename_i hmem
    obtain ⟨d, hd⟩ := h.resolves path hmem
    obtain ⟨hok, htree⟩ := createDirUncached_dir hD hd
    exact ⟨hok.symm, htree.symm⟩
  · cases createDirUncached D r path with
    | mk r' result =>
    cases result with
    | error err => exact ⟨rfl, rfl⟩
    | ok u => exact ⟨rfl, rfl⟩

theorem createParent_cached (hD : D.Anchored tree limit) (h : r.Cached tree limit)
    (path : Location) : (createParent D r path).1.Cached tree limit := by
  unfold createParent
  split
  · exact h
  · exact createDir_cached hD h _

variable (tree limit) in
/-- The path leads to a file. -/
def Opened (path : Location) (r : ExtractRoot δ) : Prop :=
  ∃ l, resolve (tree r.dir) limit path = .file l

theorem createFile_cached (hD : D.Anchored tree limit) (h : r.Cached tree limit)
    (path : Location) (mode : Option UInt32) :
    (createFile D r path mode).1.Cached tree limit ∧
      ((createFile D r path mode).2 = .ok () →
        (createFile D r path mode).1.Opened tree limit path) := by
  have hparent := createParent_cached hD h path
  unfold createFile
  cases hcreate : createParent D r path with
  | mk r' result =>
  rw [hcreate] at hparent
  cases result with
  | error err => exact ⟨hparent, nofun⟩
  | ok u =>
  have hextends := hD.openWith_extends r'.dir path (mode.getD defaultFileMode)
  dsimp only
  cases hopen : D.openWith r'.dir path (mode.getD defaultFileMode) with
  | mk s opened =>
  rw [hopen] at hextends
  cases opened with
  | error err => exact ⟨hparent.keeps hextends.keeps rfl, nofun⟩
  | ok inode => exact ⟨hparent.keeps hextends.keeps rfl, fun _ => hD.openWith_ok hopen⟩

theorem writeFile_tree (hD : D.Anchored tree limit) (r : ExtractRoot δ) (body : List UInt8) :
    tree (writeFile D r body).1.dir = tree r.dir ∧ (writeFile D r body).1.created = r.created := by
  unfold writeFile
  cases r.handle with
  | none => exact ⟨rfl, rfl⟩
  | some inode => exact ⟨hD.write _ _ _, rfl⟩

/-- What a path ends in is taken away where the path leads to no directory and does not
loop. -/
theorem removeFile_cached (hD : D.Anchored tree limit) (h : r.Cached tree limit) {path : Location}
    (hdir : ∀ d, resolve (tree r.dir) limit path ≠ .dir d)
    (hloops : resolve (tree r.dir) limit path ≠ .loops) :
    (removeFile D r path).Cached tree limit := by
  refine h.keeps ?_ rfl
  rw [removeFile]
  cases hremove : D.removeFile r.dir path with
  | mk s result =>
  cases result with
  | error err =>
    rw [hD.removeFile_error hremove]
    exact .refl _
  | ok u =>
    obtain ⟨l, hlocated, hnode, hother⟩ := hD.removeFile_ok hremove
    exact hlocated.keeps hother hnode hdir hloops

theorem createSymlink_cached (hD : D.Anchored tree limit) (h : r.Cached tree limit)
    (path : Location) (target : Name) : (createSymlink D r path target).1.Cached tree limit := by
  have hparent := createParent_cached hD h path
  unfold createSymlink
  cases hcreate : createParent D r path with
  | mk r' result =>
  rw [hcreate] at hparent
  cases result with
  | error err => exact hparent
  | ok u =>
  have hextends := hD.symlink_extends r'.dir target path
  dsimp only
  cases hlink : D.symlink r'.dir target path with
  | mk s made =>
  rw [hlink] at hextends
  cases made with
  | error err => exact hparent.keeps hextends.keeps rfl
  | ok u => exact hparent.keeps hextends.keeps rfl

/-- A link that is taken away again leads out, or to nothing that is a directory. -/
theorem verifySymlink_cached (hD : D.Anchored tree limit) (h : r.Cached tree limit)
    (path : Location) (link target : Name) :
    (verifySymlink D r path link target).1.Cached tree limit := by
  unfold verifySymlink
  rw [hD.metadata]
  cases hfound : resolve (tree r.dir) limit path with
  | dir d => exact h
  | file l => exact h
  | vacant l => exact h
  | missing => exact h
  | loops => exact h
  | notDir => exact removeFile_cached hD h (by simp [hfound]) (by simp [hfound])
  | denied => exact removeFile_cached hD h (by simp [hfound]) (by simp [hfound])
  | escapes => exact removeFile_cached hD h (by simp [hfound]) (by simp [hfound])

variable (tree limit) in
/-- A recorded run beside the run: it is where the run is, and the cache was right in all
its states; a file opened last is there. -/
structure Passes (path : Option Location) (log : Recorded (ExtractRoot δ)) (r : ExtractRoot δ) :
    Prop where
  now : log.now = r
  cached : ∀ state ∈ log.states, state.Cached tree limit
  opened : ∀ p, path = some p → r.Opened tree limit p

theorem Passes.cached_now {path : Option Location} {log : Recorded (ExtractRoot δ)}
    (h : Passes tree limit path log r) : r.Cached tree limit :=
  h.cached r (h.now ▸ List.mem_cons_self)

theorem Passes.next {path path' : Option Location} {log : Recorded (ExtractRoot δ)}
    (h : Passes tree limit path log r) (hcached : r'.Cached tree limit)
    (hopened : ∀ p, path' = some p → r'.Opened tree limit p) :
    Passes tree limit path' (log.next r') r' := by
  refine ⟨rfl, fun state hstate => ?_, hopened⟩
  obtain rfl | hbefore := List.mem_cons.mp hstate
  · exact hcached
  · exact h.cached state hbefore

/-- Recording changes nothing, and every call keeps the cache right. -/
theorem recorded_alike (hD : D.Anchored tree limit) :
    D.root.toRoot.recorded.Alike D.root.toRoot (Passes tree limit) where
  close h := ⟨h.now, h.cached, nofun⟩
  createDir path h := by
    obtain rfl := h.now
    exact ⟨rfl, h.next (createDir_cached hD h.cached_now path) nofun⟩
  createFile path mode h := by
    obtain rfl := h.now
    obtain ⟨hcached, hopened⟩ := createFile_cached hD h.cached_now path mode
    refine ⟨rfl, h.next hcached nofun, fun hok => h.next hcached fun p hp => ?_⟩
    obtain rfl : path = p := Option.some.inj hp
    exact hopened hok
  writeFile := by
    intro log _ path body h
    obtain rfl := h.now
    have htree : tree (D.root.writeFile log.now path body).1.dir = tree log.now.dir :=
      (writeFile_tree hD log.now body).1
    have hcreated := (writeFile_tree hD log.now body).2
    have hkeeps : Keeps (tree log.now.dir) (tree (D.root.writeFile log.now path body).1.dir) := by
      rw [htree]
      exact .refl _
    refine ⟨rfl, h.next (h.cached_now.keeps hkeeps hcreated) fun p hp => ?_⟩
    obtain ⟨l, hl⟩ := h.opened p hp
    refine ⟨l, ?_⟩
    rw [htree]
    exact hl
  removeFile path h := by
    obtain rfl := h.now
    obtain ⟨l, hl⟩ := h.opened path rfl
    exact h.next (removeFile_cached hD h.cached_now (by simp [hl]) (by simp [hl])) nofun
  createSymlink path target h := by
    obtain rfl := h.now
    exact ⟨rfl, h.next (createSymlink_cached hD h.cached_now path target) nofun⟩
  verifySymlink path link target h := by
    obtain rfl := h.now
    exact ⟨rfl, h.next (verifySymlink_cached hD h.cached_now path link target) nofun⟩

/-- The recorded run of an extraction into a tree. -/
def run (D : Dir δ) (options : ExtractOptions) (s : δ) (entries : List (RawEntry × Data)) :
    Recorded (ExtractRoot δ) × FsResult Unit :=
  (Extractor.new ⟨⟨s, [], none⟩, []⟩).visitLinked options D.root.toRoot.recorded entries

theorem run_passes (hD : D.Anchored tree limit) (options : ExtractOptions) (s : δ)
    (entries : List (RawEntry × Data)) :
    ((Extractor.new ⟨s, [], none⟩).visitLinked options D.root.toRoot entries).2 =
      (run D options s entries).2 ∧
    Passes tree limit none (run D options s entries).1
      ((Extractor.new ⟨s, [], none⟩).visitLinked options D.root.toRoot entries).1 := by
  have hstart : Passes tree limit none ⟨⟨s, [], none⟩, []⟩ (⟨s, [], none⟩ : ExtractRoot δ) := by
    refine ⟨rfl, fun state hstate => ?_, nofun⟩
    obtain rfl := List.mem_singleton.mp hstate
    exact ⟨by simp [Closed], by simp⟩
  exact Extractor.visitLinked_alike (x := .new (⟨⟨s, [], none⟩, []⟩ : Recorded (ExtractRoot δ)))
    (recorded_alike hD) hstart options entries

/-- In every state of every extraction the cache is closed under ancestors, what is in it
is a directory beneath the root, and the cached call does what the uncached would. -/
theorem created_transparent (hD : D.Anchored tree limit) (options : ExtractOptions) (s : δ)
    (entries : List (RawEntry × Data)) :
    ((run D options s entries).1.now, (run D options s entries).2) =
      (Extractor.new ⟨s, [], none⟩).visitLinked options D.root.toRoot entries ∧
    ∀ r ∈ (run D options s entries).1.states,
      Closed r.created ∧
      (∀ path ∈ r.created, ∃ d, resolve (tree r.dir) limit path = .dir d) ∧
      ∀ path, (createDir D r path).2 = (createDirUncached D r path).2 ∧
        tree (createDir D r path).1.dir = tree (createDirUncached D r path).1.dir := by
  obtain ⟨hresult, hpasses⟩ := run_passes hD options s entries
  refine ⟨Prod.ext hpasses.now hresult.symm, fun r hr => ?_⟩
  have hcached := hpasses.cached r hr
  exact ⟨hcached.closed, hcached.resolves, createDir_eq hD hcached⟩

end ExtractRoot

/-! ## A handle on a tree with links -/

/-- What stands where, and the next inode. -/
structure Below where
  entries : Entries Name ℕ
  next : ℕ

namespace Below

def linkLimit : ℕ := 40

def place (s : Below) (l : Location) (e : Option (Beneath.Entry Name ℕ)) : Below :=
  { s with entries := Function.update s.entries l e }

/-- Where a path's last name is, in a directory that may be searched. -/
def locate (s : Below) (path : Location) : Option Location :=
  match path.getLast?, find s.entries linkLimit [] (path.dropLast.map .down ++ [.here]) with
  | some name, .dir d => some (d ++ [name])
  | _, _ => none

/-- Puts something where a path leads and nothing is. -/
def add (s : Below) (path : Location) (e : Beneath.Entry Name ℕ) : Below × IoResult Unit :=
  match s.locate path with
  | none => (s, .error .notFound)
  | some l =>
      if (s.entries l).isSome then (s, .error .alreadyExists)
      else (s.place l (some e), .ok ())

/-- A directory and those it is in, the path from its last name. -/
def makeDirs (s : Below) : List Name → Below × IoResult Unit
  | [] => (s, .ok ())
  | name :: parents =>
      match resolve s.entries linkLimit (name :: parents).reverse with
      | .dir _ => (s, .ok ())
      | _ =>
          match makeDirs s parents with
          | (s, .error err) => (s, .error err)
          | (s, .ok ()) => s.add (name :: parents).reverse (.dir true)

/-- A file that is there, or a new one; a link to no file is an error. -/
def openWith (s : Below) (path : Location) : Below × IoResult ℕ :=
  match resolve s.entries linkLimit path with
  | .file l =>
      match s.entries l with
      | some (.file inode) => (s, .ok inode)
      | _ => (s, .error .other)
  | _ =>
      match s.add path (.file s.next) with
      | (t, .ok ()) => ({ t with next := s.next + 1 }, .ok s.next)
      | (t, .error err) => (t, .error err)

def removeFile (s : Below) (path : Location) : Below × IoResult Unit :=
  match s.locate path with
  | none => (s, .error .notFound)
  | some l =>
      match s.entries l with
      | none => (s, .error .notFound)
      | some (.dir _) => (s, .error .other)
      | some _ => (s.place l none, .ok ())

def step (component : Name) : Step Name :=
  if component = [] ∨ component = ['.'] then .here
  else if component = ['.', '.'] then .up
  else .down component

/-- A link's target as it is followed. -/
def linkPath (target : Name) : Path Name where
  absolute := target.head? == some '/'
  steps := (target.splitOn '/').map step

def dir : Dir Below where
  createDirWith s path _ := s.makeDirs path.reverse
  metadata s path := told (resolve s.entries linkLimit path)
  openWith s path _ := s.openWith path
  write s _ _ := (s, none)
  removeFile := removeFile
  symlink s target path := s.add path (.link (linkPath target))
  setPermissions s _ _ := (s, .ok ())

variable {s t : Below} {path : Location} {l : Location}

theorem located_of_locate (h : s.locate path = some l) : Located s.entries linkLimit path l := by
  unfold locate at h
  split at h
  · rename_i name d hname hparent
    obtain rfl : d ++ [name] = l := Option.some.inj h
    exact ⟨path.dropLast, name, d, (List.dropLast_append_getLast? name hname).symm, rfl, hparent⟩
  · exact absurd h.symm (Option.some_ne_none _)

theorem extends_place (e : Option (Beneath.Entry Name ℕ)) (h : s.entries l = none) :
    Extends s.entries (s.place l e).entries := by
  have hother : ∀ {l' e'}, s.entries l' = some e' → (s.place l e).entries l' = some e' := by
    intro l' e' hl'
    have hne : l' ≠ l := by
      rintro rfl
      exact absurd (h.symm.trans hl').symm (Option.some_ne_none _)
    exact (Function.update_of_ne hne _ _).trans hl'
  exact ⟨hother, hother⟩

/-- What is put where a path leads is there, and nothing else has changed. -/
theorem add_spec (s : Below) (path : Location) (e : Beneath.Entry Name ℕ) :
    Extends s.entries (s.add path e).1.entries ∧ ((s.add path e).2 = .ok () → ∃ n d name,
      (s.add path e).1.entries (d ++ [name]) = some e ∧
      resolve (s.add path e).1.entries linkLimit path =
        find (s.add path e).1.entries n d [.down name]) := by
  unfold add
  cases hlocate : s.locate path with
  | none => exact ⟨⟨id, id⟩, nofun⟩
  | some l =>
    dsimp only
    split
    · exact ⟨⟨id, id⟩, nofun⟩
    · rename_i hvacant
      have hextends := extends_place (some e) (by simpa using hvacant)
      refine ⟨hextends, fun _ => ?_⟩
      obtain ⟨parent, name, d, rfl, rfl, hparent⟩ := located_of_locate hlocate
      obtain ⟨n, hn⟩ := (hextends.keeps.leads (Leads.of_find hparent)).find_append rfl
      refine ⟨n, d, name, Function.update_self .., ?_⟩
      rw [resolve, List.map_append]
      exact hn _

theorem makeDirs_spec (names : List Name) : Extends s.entries (s.makeDirs names).1.entries ∧
    ((s.makeDirs names).2 = .ok () →
      ∃ d, resolve (s.makeDirs names).1.entries linkLimit names.reverse = .dir d) := by
  induction names with
  | nil => exact ⟨⟨id, id⟩, fun _ => ⟨[], find_nil⟩⟩
  | cons name parents ih =>
    rw [makeDirs]
    split
    · rename_i d hd
      exact ⟨⟨id, id⟩, fun _ => ⟨d, hd⟩⟩
    · split
      · rename_i hparents
        rw [hparents] at ih
        exact ⟨ih.1, nofun⟩
      · rename_i u hparents
        rw [hparents] at ih
        obtain ⟨hadded, hplaced⟩ := add_spec u (name :: parents).reverse (.dir true)
        refine ⟨⟨fun h => hadded.dir (ih.1.dir h), fun h => hadded.link (ih.1.link h)⟩,
          fun hok => ?_⟩
        obtain ⟨n, d, last, hentry, hfind⟩ := hplaced hok
        exact ⟨d ++ [last], by rw [hfind, find_down_dir hentry rfl, find_nil]⟩

theorem openWith_spec (s : Below) (path : Location) :
    Extends s.entries (s.openWith path).1.entries ∧
    ∀ inode, (s.openWith path).2 = .ok inode →
      ∃ l, resolve (s.openWith path).1.entries linkLimit path = .file l := by
  unfold openWith
  split
  · rename_i l hl
    split
    · exact ⟨⟨id, id⟩, fun _ _ => ⟨l, hl⟩⟩
    · exact ⟨⟨id, id⟩, fun _ h => by cases h⟩
  · split
    · rename_i t hadd
      obtain ⟨hextends, hplaced⟩ := add_spec s path (.file s.next)
      rw [hadd] at hextends hplaced
      refine ⟨hextends, fun _ _ => ?_⟩
      obtain ⟨n, d, name, hentry, hfind⟩ := hplaced rfl
      refine ⟨d ++ [name], hfind.trans ?_⟩
      rw [find_eq, along, hentry]
      rfl
    · rename_i t err hadd
      have hextends := (add_spec s path (.file s.next)).1
      rw [hadd] at hextends
      exact ⟨hextends, fun _ h => by cases h⟩

theorem removeFile_spec {result : IoResult Unit} (h : s.removeFile path = (t, result)) :
    (∀ err, result = .error err → t = s) ∧ (result = .ok () → ∃ l,
      Located s.entries linkLimit path l ∧ (∀ searchable, s.entries l ≠ some (.dir searchable)) ∧
      ∀ l', l' ≠ l → t.entries l' = s.entries l') := by
  unfold removeFile at h
  cases hlocate : s.locate path with
  | none =>
    rw [hlocate] at h
    cases h
    exact ⟨fun _ _ => rfl, nofun⟩
  | some l =>
    rw [hlocate] at h
    dsimp only at h
    split at h
    · cases h
      exact ⟨fun _ _ => rfl, nofun⟩
    · cases h
      exact ⟨fun _ _ => rfl, nofun⟩
    · rename_i hdir hentry
      cases h
      refine ⟨nofun, fun _ => ⟨l, located_of_locate hlocate, ?_, fun l' hl' =>
        Function.update_of_ne hl' _ _⟩⟩
      intro searchable hl
      exact hdir searchable (Option.some.inj (hentry.symm.trans hl))

theorem anchored : dir.Anchored entries linkLimit where
  metadata _ _ := rfl
  createDirWith_extends s path mode := (makeDirs_spec path.reverse).1
  createDirWith_ok := by
    intro s path mode s' h
    have hspec := (makeDirs_spec (s := s) path.reverse).2
    have hmade : s.makeDirs path.reverse = (s', .ok ()) := h
    rw [hmade, List.reverse_reverse] at hspec
    exact hspec rfl
  createDirWith_dir := by
    intro s path d mode h
    have hmade : s.makeDirs path.reverse = (s, .ok ()) := by
      cases hreverse : path.reverse with
      | nil => rfl
      | cons name parents =>
        rw [makeDirs, ← hreverse, List.reverse_reverse, h]
    have hcall : dir.createDirWith s path mode = (s, .ok ()) := hmade
    rw [hcall]
    exact ⟨rfl, rfl⟩
  openWith_extends s path mode := (openWith_spec s path).1
  openWith_ok := by
    intro s path mode s' inode h
    have hspec := (openWith_spec s path).2 inode
    have hopened : s.openWith path = (s', .ok inode) := h
    rw [hopened] at hspec
    exact hspec rfl
  write _ _ _ := rfl
  symlink_extends s target path := (add_spec s path (.link (linkPath target))).1
  removeFile_error h := by rw [(removeFile_spec h).1 _ rfl]
  removeFile_ok h := (removeFile_spec h).2 rfl

/-- A directory `d`, and a link `l` to it. -/
def linked : Below where
  entries := Function.update (Function.update (fun _ => none) [['d']] (some (.dir true)))
    [['l']] (some (.link (linkPath ['d'])))
  next := 0

end Below

/-- A directory behind the link, a link in it, and a file there that is taken away. -/
def behindLink : List (RawEntry × Data) :=
  [(⟨['l', '/', 'x'], .dir, 0, none, none⟩, ⟨[], false⟩),
    (⟨['l', '/', 'x', '/', 'y'], .symlink, 0, none, some ['.']⟩, ⟨[], false⟩),
    (⟨['l', '/', 'x', '/', 'f'], .file, 0, none, none⟩, ⟨[0], false⟩)]

theorem created_transparent_linked :
    ((ExtractRoot.run Below.dir .new Below.linked behindLink).1.now,
      (ExtractRoot.run Below.dir .new Below.linked behindLink).2) =
      (Extractor.new ⟨Below.linked, [], none⟩).visitLinked .new Below.dir.root.toRoot behindLink ∧
    ∀ r ∈ (ExtractRoot.run Below.dir .new Below.linked behindLink).1.states,
      Closed r.created ∧
      (∀ path ∈ r.created, ∃ d, resolve r.dir.entries Below.linkLimit path = .dir d) ∧
      ∀ path, (ExtractRoot.createDir Below.dir r path).2 =
          (ExtractRoot.createDirUncached Below.dir r path).2 ∧
        (ExtractRoot.createDir Below.dir r path).1.dir.entries =
          (ExtractRoot.createDirUncached Below.dir r path).1.dir.entries :=
  ExtractRoot.created_transparent Below.anchored .new Below.linked behindLink

end Fs

end RustSak
