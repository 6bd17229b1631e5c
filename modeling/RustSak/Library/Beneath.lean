import RustSak.Library.FileTree

/-!
# Finding what a path names beneath a root

The walk along a path that may not leave the root: a `..` at the root and an absolute
link end it. It follows only so many links. A directory that may not be searched can be
named, but nothing in it.
-/

namespace RustSak

namespace Library

namespace FileTree

namespace Beneath

variable {ν ι : Type}

inductive Entry (ν ι : Type) where
  | dir (searchable : Bool)
  | file (what : ι)
  | link (target : Path ν)
  deriving DecidableEq

abbrev Entries (ν ι : Type) := Location ν → Option (Entry ν ι)

/-- What a walk comes to; at `vacant` only the last name is missing. -/
inductive Found (ν : Type) where
  | dir (l : Location ν)
  | file (l : Location ν)
  | vacant (l : Location ν)
  | missing
  | notDir
  | denied
  | loops
  | escapes
  deriving DecidableEq

/-- The walk along `steps`, links followed by `follow`. -/
def along (entries : Entries ν ι) (follow : Location ν → List (Step ν) → Found ν) :
    Location ν → List (Step ν) → Found ν
  | cur, [] => .dir cur
  | cur, .here :: rest => along entries follow cur rest
  | cur, .up :: rest =>
      if cur.isEmpty then .escapes else along entries follow cur.dropLast rest
  | cur, .down name :: rest =>
      match entries (cur ++ [name]) with
      | none => if rest.isEmpty then .vacant (cur ++ [name]) else .missing
      | some (.dir searchable) =>
          if searchable || rest.isEmpty then along entries follow (cur ++ [name]) rest
          else .denied
      | some (.file _) => if rest.isEmpty then .file (cur ++ [name]) else .notDir
      | some (.link target) =>
          if target.absolute then .escapes else follow cur (target.steps ++ rest)

/-- The walk that follows as many links as `limit`. -/
def find (entries : Entries ν ι) : ℕ → Location ν → List (Step ν) → Found ν
  | 0 => along entries fun _ _ => .loops
  | limit + 1 => along entries (find entries limit)

/-- The walk from a link on, in one that may follow as many links as `limit`. -/
def follow (entries : Entries ν ι) : ℕ → Location ν → List (Step ν) → Found ν
  | 0 => fun _ _ => .loops
  | limit + 1 => find entries limit

theorem find_eq (entries : Entries ν ι) (limit : ℕ) :
    find entries limit = along entries (follow entries limit) := by
  cases limit <;> rfl

variable {entries entries' : Entries ν ι} {limit : ℕ} {cur d l : Location ν} {name : ν}
  {steps rest : List (Step ν)} {target : Path ν}

@[simp] theorem find_nil : find entries limit cur [] = .dir cur := by
  rw [find_eq, along]

@[simp] theorem find_here :
    find entries limit cur (.here :: rest) = find entries limit cur rest := by
  rw [find_eq, along]

theorem find_up (h : cur ≠ []) :
    find entries limit cur (.up :: rest) = find entries limit cur.dropLast rest := by
  rw [find_eq, along, if_neg (by simpa using h)]

theorem find_down_dir {searchable : Bool} (h : entries (cur ++ [name]) = some (.dir searchable))
    (hsearch : (searchable || rest.isEmpty) = true) :
    find entries limit cur (.down name :: rest) = find entries limit (cur ++ [name]) rest := by
  rw [find_eq, along, h]
  exact if_pos hsearch

theorem find_down_link (h : entries (cur ++ [name]) = some (.link target))
    (hrelative : target.absolute = false) : find entries limit cur (.down name :: rest) =
      follow entries limit cur (target.steps ++ rest) := by
  rw [find_eq, along, h]
  exact if_neg (by simp [hrelative])

/-! ## Walks to a directory -/

/-- The walk comes to the directory, step by step. -/
inductive Leads (entries : Entries ν ι) : ℕ → Location ν → List (Step ν) → Location ν → Prop where
  | nil {limit : ℕ} {cur : Location ν} : Leads entries limit cur [] cur
  | here {limit : ℕ} {cur d : Location ν} {rest : List (Step ν)}
      (h : Leads entries limit cur rest d) : Leads entries limit cur (.here :: rest) d
  | up {limit : ℕ} {cur d : Location ν} {rest : List (Step ν)} (hcur : cur ≠ [])
      (h : Leads entries limit cur.dropLast rest d) : Leads entries limit cur (.up :: rest) d
  | down {limit : ℕ} {cur d : Location ν} {name : ν} {rest : List (Step ν)} {searchable : Bool}
      (hdir : entries (cur ++ [name]) = some (.dir searchable))
      (hsearch : (searchable || rest.isEmpty) = true)
      (h : Leads entries limit (cur ++ [name]) rest d) :
      Leads entries limit cur (.down name :: rest) d
  | link {limit : ℕ} {cur d : Location ν} {name : ν} {rest : List (Step ν)} {target : Path ν}
      (hlink : entries (cur ++ [name]) = some (.link target)) (hrelative : target.absolute = false)
      (h : Leads entries limit cur (target.steps ++ rest) d) :
      Leads entries (limit + 1) cur (.down name :: rest) d

theorem Leads.find_eq (h : Leads entries limit cur steps d) :
    find entries limit cur steps = .dir d := by
  induction h with
  | nil => exact find_nil
  | here _ ih => rw [find_here, ih]
  | up hcur _ ih => rw [find_up hcur, ih]
  | down hdir hsearch _ ih => rw [find_down_dir hdir hsearch, ih]
  | link hlink hrelative _ ih =>
    rw [find_down_link hlink hrelative, follow, ih]

/-- By the links that may be followed, and then by the steps. -/
theorem Leads.of_find (h : find entries limit cur steps = .dir d) :
    Leads entries limit cur steps d := by
  induction limit using Nat.strongRecOn generalizing cur steps with
  | ind limit ihLimit =>
  induction steps generalizing cur with
  | nil =>
    obtain rfl : cur = d := by simpa using h
    exact .nil
  | cons step rest ih =>
    cases step with
    | here => exact .here (ih (by simpa using h))
    | up =>
      by_cases hcur : cur = []
      · rw [hcur, Beneath.find_eq, along] at h
        exact absurd h (by simp)
      · rw [find_up hcur] at h
        exact .up hcur (ih h)
    | down name =>
      rw [Beneath.find_eq, along] at h
      cases hentry : entries (cur ++ [name]) with
      | none =>
        simp only [hentry] at h
        split at h <;> cases h
      | some entry =>
      rw [hentry] at h
      cases entry with
      | dir searchable =>
        dsimp only at h
        split at h
        · rename_i hsearch
          rw [← Beneath.find_eq] at h
          exact .down hentry hsearch (ih h)
        · cases h
      | file what =>
        dsimp only at h
        split at h <;> cases h
      | link target =>
        dsimp only at h
        split at h
        · cases h
        · rename_i hrelative
          cases limit with
          | zero => cases h
          | succ limit =>
            exact .link hentry (by simpa using hrelative) (ihLimit limit limit.lt_succ_self h)

/-- A walk to a directory passes a directory wherever it is cut off. -/
theorem Leads.of_append {all : List (Step ν)} (h : Leads entries limit cur all d)
    (hall : all = steps ++ rest) : ∃ d', Leads entries limit cur steps d' := by
  induction h generalizing steps with
  | nil =>
    obtain ⟨rfl, -⟩ := List.append_eq_nil_iff.mp hall.symm
    exact ⟨_, .nil⟩
  | here _ ih =>
    obtain ⟨rfl, -⟩ | ⟨tail, rfl, htail⟩ := List.cons_eq_append_iff.mp hall
    · exact ⟨_, .nil⟩
    · obtain ⟨d', h⟩ := ih htail
      exact ⟨d', .here h⟩
  | up hcur _ ih =>
    obtain ⟨rfl, -⟩ | ⟨tail, rfl, htail⟩ := List.cons_eq_append_iff.mp hall
    · exact ⟨_, .nil⟩
    · obtain ⟨d', h⟩ := ih htail
      exact ⟨d', .up hcur h⟩
  | down hdir hsearch _ ih =>
    obtain ⟨rfl, -⟩ | ⟨tail, rfl, htail⟩ := List.cons_eq_append_iff.mp hall
    · exact ⟨_, .nil⟩
    · obtain ⟨d', h⟩ := ih htail
      refine ⟨d', .down hdir ?_ h⟩
      rw [htail] at hsearch
      simp only [Bool.or_eq_true, List.isEmpty_iff, List.append_eq_nil_iff] at hsearch ⊢
      exact hsearch.imp_right And.left
  | link hlink hrelative _ ih =>
    obtain ⟨rfl, -⟩ | ⟨tail, rfl, htail⟩ := List.cons_eq_append_iff.mp hall
    · exact ⟨_, .nil⟩
    · obtain ⟨d', h⟩ := ih (by rw [htail, List.append_assoc])
      exact ⟨d', .link hlink hrelative h⟩

/-- A link that leads to a directory. -/
def LeadsToDir (entries : Entries ν ι) (l : Location ν) (target : Path ν) : Prop :=
  target.absolute = false ∧ ∃ limit d, Leads entries limit l.dropLast target.steps d

/-- Directories stay, and so do links that lead to one. -/
structure Keeps (entries entries' : Entries ν ι) : Prop where
  dir : ∀ {l searchable}, entries l = some (.dir searchable) → entries' l = some (.dir searchable)
  link : ∀ {l target}, entries l = some (.link target) → LeadsToDir entries l target →
    entries' l = some (.link target)

theorem Keeps.refl (entries : Entries ν ι) : Keeps entries entries := ⟨id, fun h _ => h⟩

/-- A walk to a directory still comes to it: each link on the way leads to one. -/
theorem Keeps.leads (hkeeps : Keeps entries entries') (h : Leads entries limit cur steps d) :
    Leads entries' limit cur steps d := by
  induction h with
  | nil => exact .nil
  | here _ ih => exact .here ih
  | up hcur _ ih => exact .up hcur ih
  | down hdir hsearch _ ih => exact .down (hkeeps.dir hdir) hsearch ih
  | @link limit cur d name rest target hlink hrelative h ih =>
    obtain ⟨d', hd'⟩ := h.of_append rfl
    refine .link (hkeeps.link hlink ⟨hrelative, limit, d', ?_⟩) hrelative ih
    rw [List.dropLast_concat]
    exact hd'

/-! ## What is taken away -/

/-- A walk goes on from a directory that may be searched. -/
theorem Leads.find_append {all : List (Step ν)} (h : Leads entries limit cur all d)
    (hall : all = steps ++ [.here]) :
    ∃ n, ∀ rest, find entries limit cur (steps ++ rest) = find entries n d rest := by
  induction h generalizing steps with
  | nil => exact absurd hall.symm (by simp)
  | @here limit cur d tail h ih =>
    obtain ⟨rfl, hnil⟩ | ⟨tail', rfl, htail⟩ := List.cons_eq_append_iff.mp hall
    · obtain rfl : [] = tail := by simpa using hnil
      obtain rfl : cur = d := by simpa using h.find_eq
      exact ⟨limit, fun rest => rfl⟩
    · obtain ⟨n, hn⟩ := ih htail
      exact ⟨n, fun rest => by rw [List.cons_append, find_here, hn]⟩
  | up hcur _ ih =>
    obtain ⟨rfl, hnil⟩ | ⟨tail', rfl, htail⟩ := List.cons_eq_append_iff.mp hall
    · exact absurd hnil (by simp)
    · obtain ⟨n, hn⟩ := ih htail
      exact ⟨n, fun rest => by rw [List.cons_append, find_up hcur, hn]⟩
  | @down limit cur d name tail searchable hdir hsearch _ ih =>
    obtain ⟨rfl, hnil⟩ | ⟨tail', rfl, htail⟩ := List.cons_eq_append_iff.mp hall
    · exact absurd hnil (by simp)
    · obtain ⟨n, hn⟩ := ih htail
      have hopen : searchable = true := by simpa [htail] using hsearch
      exact ⟨n, fun rest => by rw [List.cons_append, find_down_dir hdir (by simp [hopen]), hn]⟩
  | link hlink hrelative _ ih =>
    obtain ⟨rfl, hnil⟩ | ⟨tail', rfl, htail⟩ := List.cons_eq_append_iff.mp hall
    · exact absurd hnil (by simp)
    · obtain ⟨n, hn⟩ := ih (by rw [htail, List.append_assoc])
      refine ⟨n, fun rest => ?_⟩
      rw [List.cons_append, find_down_link hlink hrelative, ← List.append_assoc]
      exact hn rest

/-- A walk that does not loop does not depend on how many links it may follow. -/
theorem along_congr {f g : Location ν → List (Step ν) → Found ν}
    (hfg : ∀ cur steps, f cur steps ≠ .loops → g cur steps = f cur steps)
    (h : along entries f cur steps ≠ .loops) :
    along entries g cur steps = along entries f cur steps := by
  induction steps generalizing cur with
  | nil => rfl
  | cons step rest ih =>
    cases step with
    | here => exact ih h
    | up =>
      rw [along] at h ⊢
      rw [along]
      split
      · rfl
      · rename_i hcur
        rw [if_neg hcur] at h
        exact ih h
    | down name =>
      rw [along] at h ⊢
      rw [along]
      cases hentry : entries (cur ++ [name]) with
      | none => rfl
      | some entry =>
      rw [hentry] at h
      cases entry with
      | dir searchable =>
        dsimp only at h ⊢
        split
        · rename_i hsearch
          rw [if_pos hsearch] at h
          exact ih h
        · rfl
      | file what => rfl
      | link target =>
        dsimp only at h ⊢
        split
        · rfl
        · rename_i hrelative
          rw [if_neg hrelative] at h
          exact hfg _ _ h

theorem find_mono {n : ℕ} (hn : limit ≤ n) (h : find entries limit cur steps ≠ .loops) :
    find entries n cur steps = find entries limit cur steps := by
  induction limit generalizing n cur steps with
  | zero =>
    rw [find_eq] at h ⊢
    rw [find_eq]
    exact along_congr (fun _ _ hloops => absurd rfl hloops) h
  | succ limit ih =>
    obtain ⟨n, rfl⟩ : ∃ m, n = m + 1 := Nat.exists_eq_succ_of_ne_zero (by omega)
    exact along_congr (fun _ _ hloops => ih (by omega) hloops) h

/-- What is looked up beneath the root, the last name of the path not followed. -/
def Located (entries : Entries ν ι) (limit : ℕ) (path : List ν) (l : Location ν) : Prop :=
  ∃ parent name d, path = parent ++ [name] ∧ l = d ++ [name] ∧
    find entries limit [] (parent.map .down ++ [.here]) = .dir d

/-- A link that a path ends in leads to no directory where the path does not. -/
theorem Located.not_leadsToDir {path : List ν} (h : Located entries limit path l)
    (hlink : entries l = some (.link target))
    (hdir : ∀ d, find entries limit [] (path.map .down) ≠ .dir d)
    (hloops : find entries limit [] (path.map .down) ≠ .loops) :
    ¬LeadsToDir entries l target := by
  rintro ⟨hrelative, m, d', hleads⟩
  obtain ⟨parent, name, d, rfl, rfl, hparent⟩ := h
  obtain ⟨n, hn⟩ := (Leads.of_find hparent).find_append rfl
  have hfollow : find entries limit [] ((parent ++ [name]).map .down) =
      follow entries n d target.steps := by
    rw [List.map_append, hn, List.map_cons, List.map_nil, find_down_link hlink hrelative,
      List.append_nil]
  rw [hfollow] at hdir hloops
  rw [List.dropLast_concat] at hleads
  cases n with
  | zero => exact hloops rfl
  | succ n =>
    -- the walks from the link on, with as many links as both may follow
    have hsame : find entries (max n m) d target.steps = find entries n d target.steps :=
      find_mono (le_max_left n m) hloops
    have hto : find entries (max n m) d target.steps = .dir d' := by
      rw [find_mono (le_max_right n m) (by rw [hleads.find_eq]; simp), hleads.find_eq]
    exact hdir d' (hsame.symm.trans hto)

/-- Taking away what a path ends in, where it does not lead to a directory, keeps every
directory and every link to one. -/
theorem Located.keeps {path : List ν} (h : Located entries limit path l)
    (hother : ∀ l', l' ≠ l → entries' l' = entries l')
    (hnode : ∀ searchable, entries l ≠ some (.dir searchable))
    (hdir : ∀ d, find entries limit [] (path.map .down) ≠ .dir d)
    (hloops : find entries limit [] (path.map .down) ≠ .loops) : Keeps entries entries' where
  dir {l' searchable} hl' := by
    rw [hother l' fun hll => hnode searchable (hll ▸ hl')]
    exact hl'
  link {l' target} hl' hleads := by
    by_cases hll : l' = l
    · rw [hll] at hl' hleads
      exact absurd hleads (h.not_leadsToDir hl' hdir hloops)
    · rw [hother l' hll]
      exact hl'

end Beneath

end FileTree

end Library

end RustSak
