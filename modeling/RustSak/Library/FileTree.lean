import Mathlib.Data.Set.Insert
import Mathlib.Logic.Function.Basic

/-!
# Trees of files and links

What stands where below a root, and where a path leads. A walk follows links, takes
`..` from where it really is, and is given up after so many steps. Files are told by
an inode, so that one file may have several names.
-/

namespace RustSak

namespace Library

namespace FileTree

variable {ν ι κ β : Type}

/-- One component of a path. -/
inductive Step (ν : Type) where
  | here
  | up
  | down (name : ν)
  deriving DecidableEq

structure Path (ν : Type) where
  absolute : Bool
  steps : List (Step ν)
  deriving DecidableEq

/-- What stands at a location; `ι` is what is known of a file. -/
inductive Node (ν ι : Type) where
  | dir
  | file (what : ι)
  | link (target : Path ν)
  deriving DecidableEq

def Node.map (f : ι → κ) : Node ν ι → Node ν κ
  | .dir => .dir
  | .file what => .file (f what)
  | .link target => .link target

/-- Where something really is, from the root down. -/
abbrev Location (ν : Type) := List ν

/-- Where a walk ends; at `vacant` only the last name is missing. -/
inductive Outcome (ν : Type) where
  | dir (l : Location ν)
  | file (l : Location ν)
  | vacant (l : Location ν)
  | missing
  | fails
  deriving DecidableEq

/-- Where a path starts that is met at `cur`. -/
def Path.start (path : Path ν) (cur : Location ν) : Location ν :=
  if path.absolute then [] else cur

/-- The walk along `steps`, in at most `fuel` steps. -/
def walk (node : Location ν → Option (Node ν ι)) :
    ℕ → Location ν → List (Step ν) → Outcome ν
  | 0, _, _ => .fails
  | _ + 1, cur, [] => .dir cur
  | fuel + 1, cur, .here :: rest => walk node fuel cur rest
  | fuel + 1, cur, .up :: rest => walk node fuel cur.dropLast rest
  | fuel + 1, cur, .down name :: rest =>
      match node (cur ++ [name]) with
      | none => if rest.isEmpty then .vacant (cur ++ [name]) else .missing
      | some .dir => walk node fuel (cur ++ [name]) rest
      | some (.file _) => if rest.isEmpty then .file (cur ++ [name]) else .fails
      | some (.link target) =>
          walk node fuel (target.start cur) (target.steps ++ rest)

/-- The walk asks what stands at `l`. -/
def Asks (node : Location ν → Option (Node ν ι)) (l : Location ν) :
    ℕ → Location ν → List (Step ν) → Prop
  | 0, _, _ => False
  | _ + 1, _, [] => False
  | fuel + 1, cur, .here :: rest => Asks node l fuel cur rest
  | fuel + 1, cur, .up :: rest => Asks node l fuel cur.dropLast rest
  | fuel + 1, cur, .down name :: rest =>
      l = cur ++ [name] ∨
      match node (cur ++ [name]) with
      | some .dir => Asks node l fuel (cur ++ [name]) rest
      | some (.link target) =>
          Asks node l fuel (target.start cur) (target.steps ++ rest)
      | _ => False

/-- The directories in which a walk looks its steps up. -/
def through (node : Location ν → Option (Node ν ι)) :
    ℕ → Location ν → List (Step ν) → List (Location ν)
  | 0, _, _ => []
  | _ + 1, _, [] => []
  | fuel + 1, cur, .here :: rest => cur :: through node fuel cur rest
  | fuel + 1, cur, .up :: rest => cur :: through node fuel cur.dropLast rest
  | fuel + 1, cur, .down name :: rest =>
      cur ::
        match node (cur ++ [name]) with
        | some .dir => through node fuel (cur ++ [name]) rest
        | some (.link target) =>
            through node fuel (target.start cur) (target.steps ++ rest)
        | _ => []

/-- What a walk sees of a node. -/
def shape (node : Location ν → Option (Node ν ι)) (l : Location ν) :
    Option (Node ν Unit) :=
  (node l).map (Node.map fun _ => ())

/-- Where a walk goes on: into a directory, or along a link's target. -/
def passage (node : Location ν → Option (Node ν ι)) (l : Location ν) :
    Option (Option (Path ν)) :=
  match node l with
  | some .dir => some none
  | some (.link target) => some (some target)
  | _ => none

section Walks

variable {node : Location ν → Option (Node ν ι)} {node' : Location ν → Option (Node ν κ)}
  {fuel : ℕ} {cur : Location ν} {steps : List (Step ν)}

theorem cases_of_shape_eq {l : Location ν} (h : shape node l = shape node' l) :
    node l = none ∧ node' l = none ∨ node l = some .dir ∧ node' l = some .dir ∨
      (∃ what what', node l = some (.file what) ∧ node' l = some (.file what')) ∨
      ∃ target, node l = some (.link target) ∧ node' l = some (.link target) := by
  unfold shape at h
  cases hnode : node l with
  | none =>
      rw [hnode] at h
      exact .inl ⟨rfl, Option.map_eq_none_iff.mp h.symm⟩
  | some n =>
    rw [hnode] at h
    obtain ⟨n', hnode', hmap⟩ := Option.map_eq_some_iff.mp h.symm
    cases n with
    | dir =>
        cases n' with
        | dir => exact .inr (.inl ⟨rfl, hnode'⟩)
        | file what => cases hmap
        | link target => cases hmap
    | file what =>
        cases n' with
        | dir => cases hmap
        | file what' => exact .inr (.inr (.inl ⟨what, what', rfl, hnode'⟩))
        | link target => cases hmap
    | link target =>
        cases n' with
        | dir => cases hmap
        | file what' => cases hmap
        | link target' =>
            cases hmap
            exact .inr (.inr (.inr ⟨target, rfl, hnode'⟩))

/-- A walk depends on nothing but the shapes of what it asks for. -/
theorem walk_congr
    (h : ∀ l, Asks node l fuel cur steps → shape node l = shape node' l) :
    walk node' fuel cur steps = walk node fuel cur steps := by
  induction fuel generalizing cur steps with
  | zero => rfl
  | succ fuel ih =>
    cases steps with
    | nil => rfl
    | cons step rest =>
      cases step with
      | here => exact ih h
      | up => exact ih h
      | down name =>
        rcases cases_of_shape_eq (h (cur ++ [name]) (.inl rfl)) with
          ⟨hn, hn'⟩ | ⟨hn, hn'⟩ | ⟨_, _, hn, hn'⟩ | ⟨target, hn, hn'⟩
        · simp only [walk, hn, hn']
        · simp only [walk, hn, hn']
          exact ih fun l hl => h l (by simp only [Asks, hn]; exact .inr hl)
        · simp only [walk, hn, hn']
        · simp only [walk, hn, hn']
          exact ih fun l hl => h l (by simp only [Asks, hn]; exact .inr hl)

theorem cases_of_passage_eq {l : Location ν} (h : passage node l = passage node' l) :
    node l = some .dir ∧ node' l = some .dir ∨
      (∃ target, node l = some (.link target) ∧ node' l = some (.link target)) ∨
      passage node l = none ∧ passage node' l = none := by
  cases hp : passage node l with
  | none => exact .inr (.inr ⟨rfl, h.symm.trans hp⟩)
  | some way =>
    rw [hp] at h
    unfold passage at hp h
    split at hp
    · cases hp
      split at h
      · exact .inl ⟨by assumption, by assumption⟩
      · cases h
      · cases h
    · cases hp
      split at h
      · cases h
      · cases h
        exact .inr (.inl ⟨_, by assumption, by assumption⟩)
      · cases h
    · cases hp

/-- What a walk asks for depends on nothing but where it can go on. -/
theorem asks_congr {l : Location ν}
    (h : ∀ l, Asks node l fuel cur steps → passage node l = passage node' l) :
    Asks node' l fuel cur steps ↔ Asks node l fuel cur steps := by
  induction fuel generalizing cur steps with
  | zero => exact Iff.rfl
  | succ fuel ih =>
    cases steps with
    | nil => exact Iff.rfl
    | cons step rest =>
      cases step with
      | here => exact ih h
      | up => exact ih h
      | down name =>
        refine or_congr_right ?_
        rcases cases_of_passage_eq (h (cur ++ [name]) (.inl rfl)) with
          ⟨hn, hn'⟩ | ⟨target, hn, hn'⟩ | ⟨hn, hn'⟩
        · simp only [hn, hn']
          exact ih fun l hl => h l (by simp only [Asks, hn]; exact .inr hl)
        · simp only [hn, hn']
          exact ih fun l hl => h l (by simp only [Asks, hn]; exact .inr hl)
        · unfold passage at hn hn'
          split at hn
          · cases hn
          · cases hn
          · split at hn'
            · cases hn'
            · cases hn'
            · exact Iff.rfl

/-- A walk to a directory goes down into one, or along a link. -/
theorem of_walk_down {name : ν} {rest : List (Step ν)} {d : Location ν}
    (h : walk node (fuel + 1) cur (.down name :: rest) = .dir d) :
    node (cur ++ [name]) = some .dir ∧ walk node fuel (cur ++ [name]) rest = .dir d ∨
      ∃ target, node (cur ++ [name]) = some (.link target) ∧
        walk node fuel (target.start cur) (target.steps ++ rest) = .dir d := by
  simp only [walk] at h
  cases hnode : node (cur ++ [name]) with
  | none =>
      simp only [hnode] at h
      split at h <;> cases h
  | some n =>
    rw [hnode] at h
    cases n with
    | dir => exact .inl ⟨rfl, h⟩
    | link target => exact .inr ⟨target, rfl, h⟩
    | file what =>
        dsimp only at h
        split at h <;> cases h

/-- What a walk has asked for on its way to a directory. -/
theorem asked_of_dir {d l : Location ν} (h : walk node fuel cur steps = .dir d)
    (hl : Asks node l fuel cur steps) :
    node l = some .dir ∨ ∃ target, node l = some (.link target) := by
  induction fuel generalizing cur steps with
  | zero => cases h
  | succ fuel ih =>
    cases steps with
    | nil => exact hl.elim
    | cons step rest =>
      cases step with
      | here => exact ih h hl
      | up => exact ih h hl
      | down name =>
        simp only [Asks] at hl
        rcases of_walk_down h with ⟨hnode, hrest⟩ | ⟨target, hnode, hrest⟩
        · rw [hnode] at hl
          rcases hl with rfl | hl
          · exact .inl hnode
          · exact ih hrest hl
        · rw [hnode] at hl
          rcases hl with rfl | hl
          · exact .inr ⟨target, hnode⟩
          · exact ih hrest hl

/-- A walk to a directory stays one wherever what it goes through stays. -/
theorem walk_dir_congr {d : Location ν}
    (hkept : ∀ l, passage node l ≠ none → passage node' l = passage node l)
    (h : walk node fuel cur steps = .dir d) : walk node' fuel cur steps = .dir d := by
  rw [← h]
  refine walk_congr fun l hl => ?_
  have hsome : passage node l ≠ none := by
    unfold passage
    rcases asked_of_dir h hl with hn | ⟨target, hn⟩
    · rw [hn]
      nofun
    · rw [hn]
      nofun
  rcases cases_of_passage_eq (hkept l hsome).symm with
    ⟨hn, hn'⟩ | ⟨target, hn, hn'⟩ | ⟨hn, _⟩
  · simp only [shape, hn, hn', Option.map_some, Node.map]
  · simp only [shape, hn, hn', Option.map_some, Node.map]
  · exact absurd hn hsome

/-- All that a walk to a file has asked for is there, and so is the file. -/
theorem asked_of_file {d l : Location ν} (h : walk node fuel cur steps = .file d) :
    (∃ what, node d = some (.file what)) ∧ Asks node d fuel cur steps ∧
      (Asks node l fuel cur steps → node l ≠ none) := by
  induction fuel generalizing cur steps with
  | zero => cases h
  | succ fuel ih =>
    cases steps with
    | nil => cases h
    | cons step rest =>
      cases step with
      | here => exact ih h
      | up => exact ih h
      | down name =>
        simp only [walk] at h
        simp only [Asks]
        cases hnode : node (cur ++ [name]) with
        | none =>
            simp only [hnode] at h
            split at h <;> cases h
        | some n =>
          cases n with
          | dir =>
              simp only [hnode] at h ⊢
              obtain ⟨hfile, hasks, hsome⟩ := ih h
              refine ⟨hfile, .inr hasks, ?_⟩
              rintro (rfl | hl)
              · rw [hnode]
                nofun
              · exact hsome hl
          | file what =>
              simp only [hnode] at h ⊢
              split at h
              · cases h
                refine ⟨⟨what, hnode⟩, .inl rfl, ?_⟩
                rintro (rfl | hl)
                · rw [hnode]
                  nofun
                · exact hl.elim
              · cases h
          | link target =>
              simp only [hnode] at h ⊢
              obtain ⟨hfile, hasks, hsome⟩ := ih h
              refine ⟨hfile, .inr hasks, ?_⟩
              rintro (rfl | hl)
              · rw [hnode]
                nofun
              · exact hsome hl

/-- A walk goes on from the directory its first part leads to. -/
theorem walk_append {d : Location ν} (h : walk node fuel cur steps = .dir d) :
    ∃ fuel', ∀ rest, walk node fuel cur (steps ++ rest) = walk node (fuel' + 1) d rest ∧
      ∀ l, Asks node l (fuel' + 1) d rest → Asks node l fuel cur (steps ++ rest) := by
  induction fuel generalizing cur steps with
  | zero => cases h
  | succ fuel ih =>
    cases steps with
    | nil =>
        cases h
        exact ⟨fuel, fun _ => ⟨rfl, fun _ => id⟩⟩
    | cons step rest =>
      cases step with
      | here => exact ih h
      | up => exact ih h
      | down name =>
        rcases of_walk_down h with ⟨hnode, hrest⟩ | ⟨target, hnode, hrest⟩
        · obtain ⟨fuel', hrest⟩ := ih hrest
          refine ⟨fuel', fun rest' => ?_⟩
          simp only [List.cons_append, walk, Asks, hnode, (hrest rest').1, true_and]
          exact fun l hl => .inr ((hrest rest').2 l hl)
        · obtain ⟨fuel', hrest⟩ := ih hrest
          refine ⟨fuel', fun rest' => ?_⟩
          simp only [List.cons_append, walk, Asks, hnode]
          rw [← List.append_assoc]
          exact ⟨(hrest rest').1, fun l hl => .inr ((hrest rest').2 l hl)⟩

/-- A walk to a file passes a directory wherever it is cut off before its end. -/
theorem dir_of_file {rest : List (Step ν)} {l : Location ν} (hne : rest ≠ [])
    (h : walk node fuel cur (steps ++ rest) = .file l) :
    ∃ d, walk node fuel cur steps = .dir d := by
  induction fuel generalizing cur steps with
  | zero => cases h
  | succ fuel ih =>
    cases steps with
    | nil => exact ⟨cur, rfl⟩
    | cons step rest' =>
      cases step with
      | here => exact ih h
      | up => exact ih h
      | down name =>
        have hlong : ¬ (rest' ++ rest).isEmpty = true := by
          rw [List.isEmpty_iff, List.append_eq_nil_iff]
          exact fun h => hne h.2
        simp only [List.cons_append, walk] at h ⊢
        cases hnode : node (cur ++ [name]) with
        | none =>
            simp only [hnode, if_neg hlong] at h
            cases h
        | some n =>
          cases n with
          | dir =>
              simp only [hnode] at h ⊢
              exact ih h
          | file what =>
              simp only [hnode, if_neg hlong] at h
              cases h
          | link target =>
              simp only [hnode] at h ⊢
              rw [← List.append_assoc] at h
              exact ih h

/-- A walk that ends where only the last name is missing has asked for it. -/
theorem asked_of_vacant {l : Location ν} (h : walk node fuel cur steps = .vacant l) :
    node l = none ∧ Asks node l fuel cur steps := by
  induction fuel generalizing cur steps with
  | zero => cases h
  | succ fuel ih =>
    cases steps with
    | nil => cases h
    | cons step rest =>
      cases step with
      | here => exact ih h
      | up => exact ih h
      | down name =>
        simp only [walk] at h
        simp only [Asks]
        cases hnode : node (cur ++ [name]) with
        | none =>
            simp only [hnode] at h
            split at h
            · cases h
              exact ⟨hnode, .inl rfl⟩
            · cases h
        | some n =>
          cases n with
          | dir =>
              simp only [hnode] at h ⊢
              exact ⟨(ih h).1, .inr (ih h).2⟩
          | file what =>
              simp only [hnode] at h
              split at h <;> cases h
          | link target =>
              simp only [hnode] at h ⊢
              exact ⟨(ih h).1, .inr (ih h).2⟩

/-- Where there are no links a path leads to where it says. -/
theorem eq_of_walk_down (hlinks : ∀ l target, node l ≠ some (.link target))
    {names : List ν} {d : Location ν}
    (h : walk node fuel cur (names.map .down) = .dir d) : d = cur ++ names := by
  induction fuel generalizing cur names with
  | zero => cases h
  | succ fuel ih =>
    cases names with
    | nil =>
        cases h
        exact (List.append_nil _).symm
    | cons name rest =>
      rcases of_walk_down h with ⟨hnode, hrest⟩ | ⟨target, hnode, hrest⟩
      · rw [ih hrest, List.append_assoc, List.singleton_append]
      · exact absurd hnode (hlinks _ target)

/-- There it passes nothing but what it names on its way. -/
theorem exists_of_mem_through_down (hlinks : ∀ l target, node l ≠ some (.link target))
    {names : List ν} {d : Location ν}
    (h : d ∈ through node fuel cur (names.map .down)) :
    ∃ before name after, names = before ++ name :: after ∧ d = cur ++ before := by
  induction fuel generalizing cur names with
  | zero => cases h
  | succ fuel ih =>
    cases names with
    | nil => cases h
    | cons name rest =>
      simp only [List.map_cons, through, List.mem_cons] at h
      rcases h with rfl | h
      · exact ⟨[], name, rest, rfl, (List.append_nil d).symm⟩
      · cases hnode : node (cur ++ [name]) with
        | none =>
            simp only [hnode] at h
            cases h
        | some n =>
          cases n with
          | dir =>
              simp only [hnode] at h
              obtain ⟨before, next, after, rfl, rfl⟩ := ih h
              exact ⟨name :: before, next, after, rfl, (List.append_cons ..).symm⟩
          | file what =>
              simp only [hnode] at h
              cases h
          | link target => exact absurd hnode (hlinks _ target)

end Walks

/-! ## Trees -/

/-- A tree, what its files hold, and the next inode. -/
structure Tree (ν β : Type) where
  node : Location ν → Option (Node ν ℕ)
  data : ℕ → β
  next : ℕ
  used : ∀ l inode, node l = some (.file inode) → inode < next

namespace Tree

/-- What stands at a location, a file by what it holds. -/
def held (t : Tree ν β) (l : Location ν) : Option (Node ν β) :=
  (t.node l).map (Node.map t.data)

/-- The two locations are names of one file. -/
def SameFile (t : Tree ν β) (l l' : Location ν) : Prop :=
  ∃ inode, t.node l = some (.file inode) ∧ t.node l' = some (.file inode)

/-- A file with no other name. -/
def OneName (t : Tree ν β) (l : Location ν) : Prop :=
  t.SameFile l l ∧ ∀ l', t.SameFile l l' → l' = l

variable {t : Tree ν β} {l l' d e : Location ν} {body : β} {inode : ℕ}

theorem SameFile.symm (h : t.SameFile l l') : t.SameFile l' l :=
  h.imp fun _ h => ⟨h.2, h.1⟩

theorem sameFile_self (h : t.node l = some (.file inode)) : t.SameFile l l :=
  ⟨inode, h, h⟩

theorem sameFile_iff (h : t.node l = some (.file inode)) :
    t.SameFile l l' ↔ t.node l' = some (.file inode) := by
  constructor
  · rintro ⟨inode', hl, hl'⟩
    obtain rfl : inode = inode' := by
      rw [h] at hl
      cases hl
      rfl
    exact hl'
  · exact fun hl' => ⟨inode, h, hl'⟩

theorem held_eq_none : t.held l = none ↔ t.node l = none := Option.map_eq_none_iff

theorem held_file (h : t.node l = some (.file inode)) :
    t.held l = some (.file (t.data inode)) := by
  rw [held, h]
  rfl

/-- What a location holds says what a walk sees of it. -/
theorem shape_eq_of_held {t t' : Tree ν β} (h : t.held l = t'.held l) :
    shape t.node l = shape t'.node l := by
  have hshape : ∀ t : Tree ν β,
      shape t.node l = (t.held l).map (Node.map fun _ => ()) := by
    intro t
    rw [shape, held, Option.map_map]
    congr 1
    funext n
    cases n <;> rfl
  rw [hshape, hshape, h]

variable [DecidableEq ν]

/-- Puts what is no file. -/
def place (t : Tree ν β) (l : Location ν) (n : Option (Node ν ℕ))
    (h : ∀ inode, n ≠ some (.file inode)) : Tree ν β :=
  { t with
    node := Function.update t.node l n
    used := fun l' inode hl' => by
      rw [Function.update_apply] at hl'
      split at hl'
      · exact absurd hl' (h inode)
      · exact t.used l' inode hl' }

def mkdir (t : Tree ν β) (l : Location ν) : Tree ν β := t.place l (some .dir) nofun

def remove (t : Tree ν β) (l : Location ν) : Tree ν β := t.place l none nofun

/-- A new file. -/
def create (t : Tree ν β) (l : Location ν) (body : β) : Tree ν β where
  node := Function.update t.node l (some (.file t.next))
  data := Function.update t.data t.next body
  next := t.next + 1
  used l' inode h := by
    rw [Function.update_apply] at h
    split at h
    · cases h
      exact Nat.lt_succ_self _
    · exact (t.used l' inode h).trans (Nat.lt_succ_self _)

/-- A file's new content, under all its names. -/
def write (t : Tree ν β) (inode : ℕ) (body : β) : Tree ν β :=
  { t with data := Function.update t.data inode body }

/-- Writes the file at a location, or makes it. -/
def put (t : Tree ν β) (l : Location ν) (body : β) : Tree ν β :=
  match t.node l with
  | some (.file inode) => t.write inode body
  | _ => t.create l body

/-- What is at `source` is at `dest` afterwards, in place of what was there. -/
def rename (t : Tree ν β) (source dest : Location ν) : Tree ν β :=
  { t with
    node := Function.update (Function.update t.node dest (t.node source)) source none
    used := fun l inode hl => by
      rw [Function.update_apply] at hl
      split at hl
      · cases hl
      · rw [Function.update_apply] at hl
        split at hl
        · exact t.used source inode hl
        · exact t.used l inode hl }

theorem node_put (h : t.node d = none ∨ t.SameFile d d) (hl : l ≠ d) :
    (t.put d body).node l = t.node l := by
  unfold put
  rcases h with hnone | ⟨inode, hd, _⟩
  · rw [hnone]
    exact Function.update_of_ne hl _ _
  · rw [hd]
    rfl

/-- What is put is held under every name of the file. -/
theorem held_put (h : t.node d = none ∨ t.SameFile d d)
    (hl : l = d ∨ t.SameFile d l) : (t.put d body).held l = some (.file body) := by
  unfold put
  rcases h with hnone | ⟨inode, hd, _⟩
  · rw [hnone]
    rcases hl with rfl | ⟨inode, hd, _⟩
    · have hnode : (t.create l body).node l = some (.file t.next) :=
        Function.update_self ..
      rw [held_file hnode]
      simp [create]
    · rw [hnone] at hd
      cases hd
  · have hat : t.node l = some (.file inode) := by
      rcases hl with rfl | hsame
      · exact hd
      · exact (sameFile_iff hd).mp hsame
    rw [hd]
    rw [held_file (t := t.write inode body) hat]
    simp [write]

theorem held_put_of_ne (h : t.node d = none ∨ t.SameFile d d)
    (hl : l ≠ d) (hsame : ¬ t.SameFile d l) :
    (t.put d body).held l = t.held l := by
  have hnode : (t.put d body).node l = t.node l := node_put h hl
  unfold held
  rw [hnode]
  cases hn : t.node l with
  | none => rfl
  | some n =>
    cases n with
    | dir => rfl
    | link target => rfl
    | file i =>
      have hdata : (t.put d body).data i = t.data i := by
        unfold put
        rcases h with hnone | ⟨inode, hd, _⟩
        · rw [hnone]
          exact Function.update_of_ne (t.used l i hn).ne _ _
        · rw [hd]
          refine Function.update_of_ne ?_ _ _
          rintro rfl
          exact hsame ⟨i, hd, hn⟩
      simp only [Option.map_some, Node.map, hdata]

theorem sameFile_put (h : t.node d = none ∨ t.SameFile d d) :
    (t.put d body).SameFile l l' ↔ l = d ∧ l' = d ∨ t.SameFile l l' := by
  unfold put
  rcases h with hnone | ⟨inode, hd, _⟩
  · rw [hnone]
    have hnode : ∀ l, (t.create d body).node l =
        if l = d then some (.file t.next) else t.node l := Function.update_apply _ _ _
    have hnew : ∀ l, t.node l ≠ some (.file t.next) := fun l hl =>
      lt_irrefl _ (t.used l _ hl)
    unfold SameFile
    dsimp only
    simp only [hnode]
    by_cases hl : l = d
    · by_cases hl' : l' = d
      · simp [hl, hl']
      · simp only [hl, hl', hnone, if_true, if_false]
        simp [hnew]
    · by_cases hl' : l' = d
      · simp only [hl, hl', hnone, if_true, if_false]
        simp [hnew]
      · simp [hl, hl']
  · rw [hd]
    refine ⟨.inr, ?_⟩
    rintro (⟨rfl, rfl⟩ | hsame)
    · exact ⟨inode, hd, hd⟩
    · exact hsame

/-- Putting a file opens no way and closes none. -/
theorem passage_put (h : t.node d = none ∨ t.SameFile d d) :
    passage (t.put d body).node l = passage t.node l := by
  by_cases hl : l = d
  · subst hl
    have hfile : ∃ inode, (t.put l body).node l = some (.file inode) := by
      unfold put
      rcases h with hnone | ⟨inode, hd, _⟩
      · rw [hnone]
        exact ⟨t.next, Function.update_self ..⟩
      · rw [hd]
        exact ⟨inode, hd⟩
    obtain ⟨inode, hfile⟩ := hfile
    unfold passage
    rw [hfile]
    rcases h with hnone | ⟨inode', hd, _⟩
    · rw [hnone]
    · rw [hd]
  · rw [passage, passage, node_put h hl]

theorem node_remove : (t.remove e).node l = if l = e then none else t.node l :=
  Function.update_apply ..

theorem held_remove : (t.remove e).held l = if l = e then none else t.held l := by
  unfold held
  rw [node_remove]
  split <;> rfl

theorem sameFile_remove :
    (t.remove e).SameFile l l' ↔ l ≠ e ∧ l' ≠ e ∧ t.SameFile l l' := by
  unfold SameFile
  simp only [node_remove]
  by_cases hl : l = e <;> by_cases hl' : l' = e <;> simp [hl, hl']

theorem node_rename : (t.rename e d).node l =
    if l = e then none else if l = d then t.node e else t.node l := by
  have hnode : (t.rename e d).node =
      Function.update (Function.update t.node d (t.node e)) e none := rfl
  rw [hnode, Function.update_apply, Function.update_apply]

theorem passage_remove (hl : l ≠ e) :
    passage (t.remove e).node l = passage t.node l := by
  rw [passage, passage, node_remove, if_neg hl]

theorem passage_rename (hl : l ≠ e) (he : t.SameFile e e)
    (hd : t.node d = none ∨ t.SameFile d d) :
    passage (t.rename e d).node l = passage t.node l := by
  obtain ⟨inode, hfile, _⟩ := he
  rw [passage, passage, node_rename, if_neg hl]
  by_cases hld : l = d
  · rw [if_pos hld, hld, hfile]
    rcases hd with hnone | ⟨inode', hd, _⟩
    · rw [hnone]
    · rw [hd]
  · rw [if_neg hld]

/-- A file with one name is renamed onto nothing, or onto another such file, as if
it were written there and then removed. -/
theorem held_rename (he : t.node e = some (.file inode))
    (hd : t.node d = none ∨ t.OneName d) :
    (t.rename e d).held l = ((t.put d (t.data inode)).remove e).held l := by
  have hput : t.node d = none ∨ t.SameFile d d := hd.imp id And.left
  rw [held_remove]
  by_cases hle : l = e
  · rw [if_pos hle, held_eq_none, node_rename, if_pos hle]
  · rw [if_neg hle]
    by_cases hld : l = d
    · rw [held_put hput (.inl hld)]
      refine held_file (t := t.rename e d) ?_
      rw [node_rename, if_neg hle, if_pos hld, he]
    · have hnot : ¬ t.SameFile d l := by
        intro hsame
        rcases hd with hnone | ⟨_, honly⟩
        · obtain ⟨i, hi, _⟩ := hsame
          rw [hnone] at hi
          cases hi
        · exact hld (honly l hsame)
      rw [held_put_of_ne hput hld hnot]
      unfold held
      rw [node_rename, if_neg hle, if_neg hld]
      rfl

theorem sameFile_rename (he : t.OneName e) (hd : t.node d = none ∨ t.OneName d) :
    (t.rename e d).SameFile l l' ↔ ((t.put d body).remove e).SameFile l l' := by
  obtain ⟨⟨inode, hfile, _⟩, hone⟩ := he
  have hput : t.node d = none ∨ t.SameFile d d := hd.imp id And.left
  -- Neither the file that goes nor the one that is replaced has another name.
  have hmoved : ∀ m, m ≠ e → t.node m ≠ some (.file inode) := fun m hm h =>
    hm (hone m ⟨inode, hfile, h⟩)
  have honly : ∀ m, t.SameFile d m → m = d := by
    intro m hm
    rcases hd with hnone | ⟨_, honly⟩
    · obtain ⟨i, hi, _⟩ := hm
      rw [hnone] at hi
      cases hi
    · exact honly m hm
  rw [sameFile_remove, sameFile_put hput]
  by_cases hle : l = e
  · simp [SameFile, node_rename, hle]
  by_cases hle' : l' = e
  · simp [SameFile, node_rename, hle']
  have hnode : (t.rename e d).SameFile l l' ↔ ∃ i,
      (if l = d then some (.file inode) else t.node l) = some (.file i) ∧
        (if l' = d then some (.file inode) else t.node l') = some (.file i) := by
    unfold SameFile
    rw [node_rename, node_rename, if_neg hle, if_neg hle', hfile]
  rw [hnode]
  simp only [ne_eq, hle, hle', not_false_eq_true, true_and]
  by_cases hld : l = d
  · by_cases hld' : l' = d
    · simp [hld, hld']
    · refine iff_of_false ?_ ?_
      · rintro ⟨i, hi, hi'⟩
        rw [if_pos hld] at hi
        rw [if_neg hld'] at hi'
        cases hi
        exact hmoved l' hle' hi'
      · rintro (⟨_, h⟩ | h)
        · exact hld' h
        · rw [hld] at h
          exact hld' (honly l' h)
  · by_cases hld' : l' = d
    · refine iff_of_false ?_ ?_
      · rintro ⟨i, hi, hi'⟩
        rw [if_neg hld] at hi
        rw [if_pos hld'] at hi'
        cases hi'
        exact hmoved l hle hi
      · rintro (⟨h, _⟩ | h)
        · exact hld h
        · rw [hld'] at h
          exact hld (honly l h.symm)
    · simp [hld, hld', SameFile]

end Tree

/-- `t` is `t'` but for what stood at `gone`, where nothing stands any more. -/
structure Depleted (gone : Set (Location ν)) (t t' : Tree ν β) : Prop where
  held : ∀ l, l ∉ gone → t.held l = t'.held l
  empty : ∀ l, l ∈ gone → t.node l = none
  same : ∀ l l', l ∉ gone → l' ∉ gone → (t.SameFile l l' ↔ t'.SameFile l l')

namespace Depleted

variable {gone : Set (Location ν)} {t t' : Tree ν β} {l d e : Location ν} {body : β}
  {fuel : ℕ} {cur : Location ν} {steps : List (Step ν)}

theorem refl (t : Tree ν β) : Depleted ∅ t t :=
  ⟨fun _ _ => rfl, fun _ h => h.elim, fun _ _ _ _ => Iff.rfl⟩

theorem not_gone (h : Depleted gone t t') (hl : t.node l ≠ none) : l ∉ gone :=
  fun hgone => hl (h.empty l hgone)

theorem sameFile_self (h : Depleted gone t t') (hl : t.SameFile l l) :
    t'.SameFile l l := by
  obtain ⟨inode, hnode, _⟩ := hl
  have hgone : l ∉ gone := h.not_gone (by rw [hnode]; nofun)
  exact (h.same l l hgone hgone).mp (Tree.sameFile_self hnode)

/-- A walk that asks for nothing that is gone ends in both at one place. -/
theorem walk_eq (h : Depleted gone t t')
    (havoids : ∀ l, Asks t.node l fuel cur steps → l ∉ gone) :
    walk t'.node fuel cur steps = walk t.node fuel cur steps :=
  walk_congr fun l hl => Tree.shape_eq_of_held (h.held l (havoids l hl))

/-- A walk to a file in what is left ends there in the whole tree too. -/
theorem walk_file (h : Depleted gone t t')
    (hfile : walk t.node fuel cur steps = .file l) :
    walk t'.node fuel cur steps = .file l :=
  (h.walk_eq fun _ hl => h.not_gone ((asked_of_file hfile).2.2 hl)).trans hfile

variable [DecidableEq ν]

theorem put (h : Depleted gone t t') (hd : d ∉ gone)
    (hput : t.node d = none ∨ t.SameFile d d) (body : β) :
    Depleted gone (t.put d body) (t'.put d body) := by
  have hput' : t'.node d = none ∨ t'.SameFile d d := by
    rcases hput with hnone | hfile
    · left
      rw [← Tree.held_eq_none, ← h.held d hd, Tree.held_eq_none]
      exact hnone
    · exact .inr (h.sameFile_self hfile)
  refine ⟨fun l hl => ?_, fun l hl => ?_, fun l l' hl hl' => ?_⟩
  · by_cases hone : l = d ∨ t.SameFile d l
    · rw [Tree.held_put hput hone,
        Tree.held_put hput' (hone.imp id (h.same d l hd hl).mp)]
    · rw [not_or] at hone
      rw [Tree.held_put_of_ne hput hone.1 hone.2, Tree.held_put_of_ne hput' hone.1
        fun hsame => hone.2 ((h.same d l hd hl).mpr hsame)]
      exact h.held l hl
  · rw [Tree.node_put hput fun heq => hd (heq ▸ hl)]
    exact h.empty l hl
  · rw [Tree.sameFile_put hput, Tree.sameFile_put hput', h.same l l' hl hl']

theorem remove (h : Depleted gone t t') (e : Location ν) :
    Depleted (insert e gone) (t.remove e) t' := by
  refine ⟨fun l hl => ?_, fun l hl => ?_, fun l l' hl hl' => ?_⟩
  · rw [Set.mem_insert_iff, not_or] at hl
    rw [Tree.held_remove, if_neg hl.1]
    exact h.held l hl.2
  · rw [Tree.node_remove]
    split
    · rfl
    · rename_i hne
      exact h.empty l (hl.resolve_left hne)
  · rw [Set.mem_insert_iff, not_or] at hl hl'
    rw [Tree.sameFile_remove, ← h.same l l' hl.2 hl'.2]
    exact ⟨fun h => h.2.2, fun h => ⟨hl.1, hl'.1, h⟩⟩

/-- What has been renamed from a file's only name onto nothing, or onto such a file,
is what has been written there, but for the name that is gone. -/
theorem rename {inode : ℕ} (h : Depleted gone t t')
    (hfile : t.node e = some (.file inode)) (hone : t.OneName e) (hd : d ∉ gone)
    (hdest : t.node d = none ∨ t.OneName d) :
    Depleted (insert e gone) (t.rename e d) (t'.put d (t.data inode)) := by
  have hput := (h.put hd (hdest.imp id And.left) (t.data inode)).remove e
  refine ⟨fun l hl => ?_, fun l hl => ?_, fun l l' hl hl' => ?_⟩
  · rw [Tree.held_rename hfile hdest]
    exact hput.held l hl
  · rw [← Tree.held_eq_none, Tree.held_rename hfile hdest, Tree.held_eq_none]
    exact hput.empty l hl
  · exact (Tree.sameFile_rename hone hdest).trans (hput.same l l' hl hl')

end Depleted

end FileTree

end Library

end RustSak
