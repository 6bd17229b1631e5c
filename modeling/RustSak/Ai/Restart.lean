import RustSak.Library.Distinct
import RustSak.Library.Machine
import RustSak.Library.Text
import Mathlib.Logic.Function.Basic

/-!
# The search path of the loader

glibc reads `LD_LIBRARY_PATH` once, when a process starts, so a program that has folders to
add replaces itself, once, under the new value. Its children inherit that value with the
guard, and may be programs that do the same. Paths are the bytes that they are on Linux.
-/

namespace RustSak

namespace Ai

namespace Restart

open Library

abbrev OsString := List UInt8

def slash : UInt8 := 47

def colon : UInt8 := 58

def dot : OsString := [46]

/-- `split_paths`. -/
def splitPaths (value : OsString) : List OsString := value.splitOn colon

/-- `join_paths`, which no path with a separator in it is given to. -/
def joinPaths (entries : List OsString) : Option OsString :=
  if ∀ entry ∈ entries, colon ∉ entry then some ([colon].intercalate entries) else none

/-! ## Paths that are equal -/

/-- What two paths that are equal have in common. -/
structure Components where
  rooted : Bool
  parts : List OsString
  deriving DecidableEq

/-- Empty parts do not count, and of the parts that are a dot only the first may. -/
def parts (path : OsString) : List OsString :=
  match path.splitOn slash with
  | [] => []
  | first :: rest =>
      (if first = [] then [] else [first]) ++
        rest.filter fun part => decide (part ≠ []) && decide (part ≠ dot)

def components (path : OsString) : Components := ⟨path.head? == some slash, parts path⟩

/-- Where a separator of the search path stands is in a part that counts. -/
theorem colon_mem_iff (path : OsString) : colon ∈ path ↔ ∃ part ∈ parts path, colon ∈ part := by
  rw [Text.mem_iff_of_splitOn (show colon ≠ slash by decide), parts]
  split
  next h => simp [h]
  next first rest h =>
    rw [h]
    constructor
    · rintro ⟨part, hpart, hcolon⟩
      refine ⟨part, ?_, hcolon⟩
      have hne : part ≠ [] := List.ne_nil_of_mem hcolon
      have hdot : part ≠ dot := by
        rintro rfl
        exact absurd hcolon (by decide)
      rcases List.mem_cons.mp hpart with rfl | hpart
      · simp [hne]
      · simp [hpart, hne, hdot]
    · rintro ⟨part, hpart, hcolon⟩
      refine ⟨part, ?_, hcolon⟩
      rcases List.mem_append.mp hpart with hpart | hpart
      · split at hpart
        · exact absurd hpart List.not_mem_nil
        · exact List.mem_singleton.mp hpart ▸ List.mem_cons_self
      · exact List.mem_cons_of_mem first (List.mem_filter.mp hpart).1

/-! ## The search path -/

/-- `search_path`, up to the join. -/
def entriesOf (dirs : List OsString) (inherited : Option OsString) : List OsString :=
  let inherited := (inherited.map splitPaths).getD []
  let entries := (dirs ++ inherited).foldl
    (fun entries entry =>
      if entry ≠ [] ∧ components entry ∉ entries.map components then entries ++ [entry]
      else entries) []
  entries.filter fun entry => (joinPaths [entry]).isSome

def searchPath (dirs : List OsString) (inherited : Option OsString) : OsString :=
  (joinPaths (entriesOf dirs inherited)).getD []

/-- What glibc makes of the variable. An empty value is none. -/
def loaderEntries (value : OsString) : List OsString :=
  if value = [] then [] else splitPaths value

/-- The entries that a search path can hold. -/
def usable (entries : List OsString) : List OsString :=
  entries.filter fun entry => decide (entry ≠ []) && decide (colon ∉ entry)

/-- An entry that holds a separator is dropped, whatever stands in it elsewhere. -/
theorem firstsBy_entriesOf (dirs : List OsString) (inherited : Option OsString) :
    FirstsBy components (usable (dirs ++ (inherited.map splitPaths).getD []))
      (entriesOf dirs inherited) := by
  have hkept : FirstsBy components _ _ := firstsBy_foldl (fun entry => decide (entry ≠ []))
    (dirs ++ (inherited.map splitPaths).getD [])
  have hcolon := hkept.filter (p := fun entry => decide (colon ∉ entry)) fun x y hxy => by
    have hparts : parts x = parts y := congrArg Components.parts hxy
    rw [decide_eq_decide, colon_mem_iff, colon_mem_iff, hparts]
  rw [List.filter_filter] at hcolon
  have husable : (dirs ++ (inherited.map splitPaths).getD []).filter
      (fun entry => decide (colon ∉ entry) && decide (entry ≠ [])) =
        usable (dirs ++ (inherited.map splitPaths).getD []) :=
    List.filter_congr fun _ _ => Bool.and_comm _ _
  rw [husable] at hcolon
  have hentries : entriesOf dirs inherited =
      ((dirs ++ (inherited.map splitPaths).getD []).foldl
        (fun kept entry => if decide (entry ≠ []) then pushNewBy components kept entry else kept)
        []).filter fun entry => decide (colon ∉ entry) := by
    rw [entriesOf]
    congr 1
    · funext entry
      by_cases h : colon ∈ entry <;> simp [joinPaths, h]
    · congr 1
      funext kept entry
      by_cases hne : entry = []
      · simp [hne]
      · by_cases hmem : components entry ∈ kept.map components <;>
          simp only [ne_eq, hne, not_false_eq_true, hmem, not_true_eq_false, and_self, and_false,
            if_true, if_false, decide_true, pushNewBy]
  rwa [hentries]

theorem usable_of_mem {xs : List OsString} {entry : OsString} (h : entry ∈ usable xs) :
    entry ≠ [] ∧ colon ∉ entry := by
  simpa [usable] using (List.mem_filter.mp h).2

/-- What the loader reads is what was joined. -/
theorem loaderEntries_searchPath (dirs : List OsString) (inherited : Option OsString) :
    loaderEntries (searchPath dirs inherited) = entriesOf dirs inherited := by
  have hentries : ∀ entry ∈ entriesOf dirs inherited, entry ≠ [] ∧ colon ∉ entry :=
    fun entry h => usable_of_mem ((firstsBy_entriesOf dirs inherited).sublist.subset h)
  have hjoin : searchPath dirs inherited = [colon].intercalate (entriesOf dirs inherited) := by
    rw [searchPath, joinPaths, if_pos fun entry h => (hentries entry h).2, Option.getD_some]
  rw [hjoin]
  generalize entriesOf dirs inherited = entries at hentries
  cases entries with
  | nil => simp [loaderEntries]
  | cons entry rest =>
      have hsplit : splitPaths ([colon].intercalate (entry :: rest)) = entry :: rest :=
        Text.splitOnP_intercalate (p := (· == colon)) (beq_self_eq_true colon)
          (List.cons_ne_nil entry rest)
          fun piece hpiece x hx => by
            rw [beq_eq_false_iff_ne]
            rintro rfl
            exact (hentries piece hpiece).2 hx
      have hne : [colon].intercalate (entry :: rest) ≠ [] := by
        obtain ⟨c, entry, rfl⟩ := List.exists_cons_of_ne_nil (hentries entry List.mem_cons_self).1
        cases rest <;> simp [List.intercalate]
      rw [loaderEntries, if_neg hne, hsplit]

/-- Empty entries are no folders to the loader, whichever way they are read. -/
theorem usable_splitPaths (value : OsString) :
    usable (splitPaths value) = usable (loaderEntries value) := by
  unfold loaderEntries
  split
  next h => subst h; rfl
  next => rfl

/-! ## Processes -/

abbrev Env := String → Option OsString

def libraryPath : String := "LD_LIBRARY_PATH"

/-- The value of a guard in a process that has been restarted, `1`. -/
def one : OsString := [49]

/-- `args` are those behind the name of the program. -/
structure Process where
  program : OsString
  args : List OsString
  env : Env

/-- What a call of `prepare` finds. `cudaDriverDir` is the folder of the driver in use
under WSL2, and `execs` whether the process can be replaced. -/
structure Surroundings (ε : Type) where
  createDirAll : OsString → Except ε Unit
  currentExe : Option OsString
  cudaDriverDir : Option OsString
  execs : Bool

/-- How `prepare` ends. It does not return in a process that is replaced. -/
inductive Outcome (ε : Type) where
  | failed (error : ε)
  | returned
  | replaced (process : Process)

def isRestarted (guard : Option OsString) : Bool := guard == some one

variable {ε : Type}

/-- The folders that are put first. -/
def ours (w : Surroundings ε) (dirs : List OsString) : List OsString :=
  dirs ++ w.cudaDriverDir.toList

/-- What the process is replaced with. -/
def apply (w : Surroundings ε) (process : Process) (dirs : List OsString) (guard : String) :
    Option Process :=
  if isRestarted (process.env guard) then none
  else
    match w.currentExe with
    | none => none
    | some program =>
        let path := searchPath (ours w dirs) (process.env libraryPath)
        if w.execs then
          some ⟨program, process.args,
            Function.update (Function.update process.env libraryPath (some path)) guard (some one)⟩
        else none

def prepare (w : Surroundings ε) (process : Process) (dirs : List OsString) (guard : String) :
    Outcome ε :=
  match forM dirs w.createDirAll with
  | .error error => .failed error
  | .ok () =>
      match apply w process dirs guard with
      | some restarted => .replaced restarted
      | none => .returned

theorem ok_of_forM {f : OsString → Except ε Unit} {dirs : List OsString}
    (h : forM dirs f = .ok ()) : ∀ dir ∈ dirs, f dir = .ok () := by
  induction dirs with
  | nil => simp
  | cons dir dirs ih =>
      rw [List.forM_cons] at h
      cases hdir : f dir with
      | error error => rw [hdir] at h; cases h
      | ok =>
          rw [hdir] at h
          exact List.forall_mem_cons.mpr ⟨hdir, ih h⟩

/-- A process is replaced only if its guard is not set, by one with the same arguments, and
when all the folders are there. -/
theorem prepare_replaced {w : Surroundings ε} {program : OsString} {args : List OsString}
    {env : Env} {restarted : Process} {dirs : List OsString} {guard : String}
    (h : prepare w ⟨program, args, env⟩ dirs guard = .replaced restarted) :
    env guard ≠ some one ∧ (∀ dir ∈ dirs, w.createDirAll dir = .ok ()) ∧
      restarted.args = args ∧
      restarted.env = Function.update (Function.update env libraryPath
        (some (searchPath (ours w dirs) (env libraryPath)))) guard (some one) := by
  unfold prepare at h
  split at h
  next => cases h
  next hdirs =>
    split at h
    next happly =>
      obtain rfl := Outcome.replaced.inj h
      unfold apply at happly
      split at happly
      next => cases happly
      next hguard =>
        split at happly
        next => cases happly
        next =>
          dsimp only at happly
          split at happly
          next =>
            obtain rfl := Option.some.inj happly
            exact ⟨by simpa [isRestarted] using hguard, ok_of_forM hdirs, rfl, rfl⟩
          next => cases happly
    next => cases h

/-! ## Programs that start one another -/

/-- A restart of the program with `guard`. -/
structure Restarted where
  guard : String
  ours : List OsString

/-- What a process starts with, and the restarts that led to it, the newest first. -/
structure State where
  env : Env
  restarts : List Restarted

/-- A program that starts: after its own restart, or as a child. -/
structure Start (ε : Type) where
  program : OsString
  args : List OsString
  guard : String
  dirs : List OsString
  surroundings : Surroundings ε

def State.next (s : State) (e : Start ε) : State :=
  match prepare e.surroundings ⟨e.program, e.args, s.env⟩ e.dirs e.guard with
  | .replaced restarted => ⟨restarted.env, ⟨e.guard, ours e.surroundings e.dirs⟩ :: s.restarts⟩
  | _ => s

/-- Each program starts with the environment that the one before it was left with. -/
def machine (ε : Type) (env : Env) : Machine State (Start ε) :=
  .guarded (· = ⟨env, []⟩) (fun _ _ => True) State.next

/-- No program names its guard after the search path. -/
def Guarded (_ : State) (e : Start ε) : Prop := e.guard ≠ libraryPath

def entries (env : Env) : List OsString := loaderEntries ((env libraryPath).getD [])

@[simp] theorem usable_append (xs ys : List OsString) :
    usable (xs ++ ys) = usable xs ++ usable ys :=
  List.filter_append xs ys

theorem usable_firsts {xs firsts : List OsString} (h : FirstsBy components (usable xs) firsts) :
    usable firsts = firsts :=
  List.filter_eq_self.mpr fun _ hmem => (List.mem_filter.mp (h.sublist.subset hmem)).2

theorem usable_inherited (env : Env) :
    usable (((env libraryPath).map splitPaths).getD []) = usable (entries env) := by
  cases h : env libraryPath with
  | none => simp [entries, h, loaderEntries]
  | some value => simpa [entries, h] using usable_splitPaths value

/-- What is known of a process and the restarts that led to it, from `env` on. -/
structure Lineage (env : Env) (s : State) : Prop where
  guards : ∀ r ∈ s.restarts, r.guard ≠ libraryPath ∧ s.env r.guard = some one
  once : (s.restarts.map Restarted.guard).Nodup
  others : ∀ name, name ≠ libraryPath → name ∉ s.restarts.map Restarted.guard →
    s.env name = env name
  collects : ∀ ys zs, FirstsBy components (usable (ys ++ entries s.env)) zs →
    FirstsBy components (usable (ys ++ (s.restarts.flatMap Restarted.ours ++ entries env))) zs
  path : s.restarts ≠ [] →
    FirstsBy components (usable (s.restarts.flatMap Restarted.ours ++ entries env))
      (entries s.env)

theorem Lineage.next {env : Env} {s : State} (hs : Lineage env s) {e : Start ε}
    (he : e.guard ≠ libraryPath) : Lineage env (s.next e) := by
  unfold State.next
  split
  next restarted h =>
    obtain ⟨hguard, -, -, henv⟩ := prepare_replaced h
    have hnew : e.guard ∉ s.restarts.map Restarted.guard := by
      intro hmem
      obtain ⟨r, hr, hrguard⟩ := List.mem_map.mp hmem
      exact hguard (hrguard ▸ (hs.guards r hr).2)
    have hfirsts : FirstsBy components (usable (ours e.surroundings e.dirs ++ entries s.env))
        (entries restarted.env) := by
      have hpath : entries restarted.env =
          entriesOf (ours e.surroundings e.dirs) (s.env libraryPath) := by
        rw [entries, henv, Function.update_of_ne (Ne.symm he), Function.update_self,
          Option.getD_some, loaderEntries_searchPath]
      rw [hpath, usable_append, ← usable_inherited, ← usable_append]
      exact firstsBy_entriesOf _ _
    constructor
    · intro r hr
      rcases List.mem_cons.mp hr with rfl | hr
      · exact ⟨he, by simp [henv]⟩
      · obtain ⟨hpath, hset⟩ := hs.guards r hr
        have hother : r.guard ≠ e.guard := fun heq =>
          hnew (heq ▸ List.mem_map_of_mem hr)
        exact ⟨hpath, by simp [henv, hother, hpath, hset]⟩
    · exact List.nodup_cons.mpr ⟨hnew, hs.once⟩
    · intro name hname hother
      rw [List.map_cons, List.mem_cons, not_or] at hother
      dsimp only
      rw [henv, Function.update_of_ne hother.1, Function.update_of_ne hname]
      exact hs.others name hname hother.2
    · intro ys zs hzs
      rw [usable_append, usable_firsts hfirsts] at hzs
      have hmore := hfirsts.append_firsts hzs
      rw [← usable_append, ← List.append_assoc] at hmore
      simpa using hs.collects _ _ hmore
    · intro _
      simpa using hs.collects _ _ hfirsts
  next => exact hs

theorem lineage_of_reachable {env : Env} {s : State}
    (hr : ((machine ε env).restrict Guarded).Reachable s) : Lineage env s := by
  refine hr.invariant (fun s hs => ?_) fun s e s' hs hstep => ?_
  · obtain rfl : s = ⟨env, []⟩ := hs
    exact ⟨by simp, .nil, fun _ _ _ => rfl, fun ys zs hzs => by simpa using hzs,
      fun h => absurd rfl h⟩
  · obtain ⟨hguard, -, rfl⟩ := hstep
    exact hs.next hguard

/-- However programs start one another, each is restarted once at most, nothing but the
search path and the guards changes, and the search path holds what the restarts put
there, the newest first, and what was there before them: every folder once, in its
first place. -/
theorem restarted_once {env : Env} {s : State}
    (hr : ((machine ε env).restrict Guarded).Reachable s) :
    (s.restarts.map Restarted.guard).Nodup ∧
      (∀ name, name ≠ libraryPath → name ∉ s.restarts.map Restarted.guard →
        s.env name = env name) ∧
      (s.restarts ≠ [] → FirstsBy components
        (usable (s.restarts.flatMap Restarted.ours ++ entries env)) (entries s.env)) :=
  ⟨(lineage_of_reachable hr).once, (lineage_of_reachable hr).others,
    (lineage_of_reachable hr).path⟩

/-- `/a`. -/
def folderA : OsString := [47, 97]

/-- `/a/`, the same folder. -/
def folderA' : OsString := [47, 97, 47]

/-- `/b`. -/
def folderB : OsString := [47, 98]

def everythingWorks : Surroundings Unit := ⟨fun _ => .ok (), some folderA, none, true⟩

/-- A program, the same one once it has been restarted, and another one as its child. -/
def startRun : List (Start Unit) :=
  [⟨folderA, [], "A_REEXEC", [folderA], everythingWorks⟩,
    ⟨folderA, [], "A_REEXEC", [folderA], everythingWorks⟩,
    ⟨folderB, [], "B_REEXEC", [folderB, folderA'], everythingWorks⟩]

/-- An environment with a search path that begins with an empty entry. -/
def inheritedEnv : Env := Function.update (fun _ => none) libraryPath (some (colon :: folderB))

/-- What the last of them starts with. -/
def afterStarts : State := startRun.foldl State.next ⟨inheritedEnv, []⟩

theorem reachable_afterStarts :
    ((machine Unit inheritedEnv).restrict Guarded).Reachable afterStarts := by
  have hguarded : ∀ e ∈ startRun, ∀ s : State, Guarded s e := by
    simp [startRun, Guarded, libraryPath]
  have hrun : (machine Unit inheritedEnv).Run (startRun.reverse ++ []) afterStarts :=
    (Machine.Run.start rfl).legal ⟨trivial, trivial, trivial, trivial⟩
  exact ⟨_, hrun.restrict fun e he => hguarded e (by simpa using he)⟩

theorem restarted_once_afterStarts :
    entries afterStarts.env = [folderB, folderA'] ∧
      FirstsBy components [folderB, folderA', folderA, folderB] (entries afterStarts.env) :=
  ⟨by decide, (restarted_once reachable_afterStarts).2.2 (by decide)⟩

end Restart

end Ai

end RustSak
