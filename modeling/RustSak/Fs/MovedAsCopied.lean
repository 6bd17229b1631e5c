import RustSak.Fs.CopyMove

/-!
# A move leaves what a copy leaves

The same sources are moved and copied from one tree. A rename takes the directory's
entry where a copy reads what it leads to and writes what the destination leads to:
the two agree on plain files with one name.
-/

namespace RustSak

namespace Fs

open Library FileTree

namespace Kernel

variable {k : Kernel} {t t' : Files} {source dest path : UnixPath}
  {l d e : FileTree.Location Name} {inode len : ℕ}

/-- The path leads to a regular file. -/
def IsFile (k : Kernel) (t : Files) (path : UnixPath) : Prop :=
  ∃ l, k.resolve t path = .file l

/-- What is read at a path. -/
def read (k : Kernel) (t : Files) (path : UnixPath) : Option (List UInt8) :=
  match k.resolve t path with
  | .file l =>
      match t.held l with
      | some (.file body) => some body
      | _ => none
  | _ => none

/-- The walk along the path asks what stands at `l`. -/
def LeadsThrough (k : Kernel) (t : Files) (path : UnixPath)
    (l : FileTree.Location Name) : Prop :=
  Asks t.node l k.fuel (path.start k.cwd) path.steps

/-! ## The calls -/

theorem of_metadata_file (h : k.metadata t path = .ok (.file inode len)) :
    ∃ l, k.resolve t path = .file l ∧ t.node l = some (.file inode) ∧
      len = (t.data inode).length := by
  unfold metadata at h
  split at h
  · cases h
  · rename_i l hl
    split at h
    · rename_i hnode
      cases h
      exact ⟨l, hl, hnode, rfl⟩
    · cases h
  · cases h
  · cases h
  · cases h

theorem metadata_file (hl : k.resolve t path = .file l)
    (hnode : t.node l = some (.file inode)) :
    k.metadata t path = .ok (.file inode (t.data inode).length) := by
  unfold metadata
  rw [hl]
  dsimp only
  rw [hnode]

/-- Apart from files, what a path is depends on where it leads. -/
theorem metadata_congr (h : k.resolve t' path = k.resolve t path)
    (hno : ∀ l, k.resolve t path ≠ .file l) :
    k.metadata t' path = k.metadata t path := by
  unfold metadata
  rw [h]
  cases ho : k.resolve t path with
  | file l => exact absurd ho (hno l)
  | _ => rfl

theorem of_metadata_dir (h : k.metadata t path = .ok .dir) :
    ∃ d, k.resolve t path = .dir d := by
  unfold metadata at h
  split at h
  · rename_i d hd
    exact ⟨d, hd⟩
  · split at h
    · cases h
    · cases h
  · cases h
  · cases h
  · cases h

theorem of_locate (h : k.locate t path = some l) :
    ∃ name d, path.steps = path.steps.dropLast ++ [.down name] ∧
      k.resolve t path.parent = .dir d ∧ l = d ++ [name] := by
  unfold locate at h
  split at h
  · rename_i name d hlast hdir
    cases h
    refine ⟨name, d, ?_, hdir, rfl⟩
    obtain ⟨init, hinit⟩ := List.getLast?_eq_some_iff.mp hlast
    rw [hinit, List.dropLast_concat]
  · cases h

theorem locate_eq {name : Name} (hsteps : path.steps = path.steps.dropLast ++ [.down name])
    (hdir : k.resolve t path.parent = .dir d) : k.locate t path = some (d ++ [name]) := by
  have hlast : path.steps.getLast? = some (.down name) := by
    rw [hsteps]
    exact List.getLast?_concat
  simp only [locate, hlast, hdir]

/-- What a path leads to by what stands where it is located. -/
theorem resolve_of_locate (h : k.locate t path = some l) :
    (∀ inode, t.node l = some (.file inode) → k.resolve t path = .file l) ∧
      (t.node l = none → k.resolve t path = .vacant l) ∧ k.LeadsThrough t path l := by
  obtain ⟨name, d, hsteps, hdir, rfl⟩ := of_locate h
  obtain ⟨fuel, hrest⟩ := walk_append hdir
  obtain ⟨hwalk, hasks⟩ := hrest [.down name]
  have hparent : path.parent.steps ++ [.down name] = path.steps := hsteps.symm
  rw [hparent] at hwalk hasks
  have hresolve : k.resolve t path = walk t.node (fuel + 1) d [.down name] := hwalk
  refine ⟨fun inode hnode => ?_, fun hnode => ?_, hasks _ (.inl rfl)⟩
  · rw [hresolve]
    simp [walk, hnode]
  · rw [hresolve]
    simp [walk, hnode]

/-- Where a copy can write: at a file, or where only the last name is missing. -/
def Writable (k : Kernel) (t : Files) (path : UnixPath)
    (d : FileTree.Location Name) : Prop :=
  k.resolve t path = .file d ∨ k.resolve t path = .vacant d

theorem Writable.node (h : k.Writable t path d) : t.node d = none ∨ t.SameFile d d := by
  rcases h with h | h
  · obtain ⟨inode, hnode⟩ := (asked_of_file (l := d) h).1
    exact .inr (Tree.sameFile_self hnode)
  · exact .inl (asked_of_vacant h).1

theorem Writable.leadsThrough (h : k.Writable t path d) : k.LeadsThrough t path d := by
  rcases h with h | h
  · exact (asked_of_file (l := d) h).2.1
  · exact (asked_of_vacant h).2

/-- A copy reads the source, and what it writes it has read after the destination
was truncated. -/
theorem of_copy {n : ℕ} (h : k.copy t source dest = .ok (t', n)) :
    ∃ l inode d, k.resolve t source = .file l ∧ t.node l = some (.file inode) ∧
      k.Writable t dest d ∧ t' = t.put d ((t.put d []).data inode) ∧
      n = ((t.put d []).data inode).length := by
  unfold copy at h
  split at h
  · cases h
  · cases h
  · rename_i inode len hmeta
    obtain ⟨l, hl, hnode, _⟩ := of_metadata_file hmeta
    dsimp only at h
    split at h
    · rename_i d hd
      cases h
      exact ⟨l, inode, d, hl, hnode, .inl hd, rfl, rfl⟩
    · rename_i d hd
      cases h
      exact ⟨l, inode, d, hl, hnode, .inr hd, rfl, rfl⟩
    · cases h
    · cases h

/-- Truncating another file leaves the source to be read. -/
theorem data_put_of_other (hwritable : k.Writable t dest d)
    (hnode : t.node l = some (.file inode)) (hother : t.node d ≠ some (.file inode)) :
    (t.put d []).data inode = t.data inode := by
  have hld : l ≠ d := by
    rintro rfl
    exact hother hnode
  have hsame : ¬ t.SameFile d l := by
    rintro ⟨i, hi, hi'⟩
    rw [hnode] at hi'
    cases hi'
    exact hother hi
  have hheld : (t.put d []).held l = t.held l :=
    Tree.held_put_of_ne hwritable.node hld hsame
  rw [Tree.held_file hnode,
    Tree.held_file ((Tree.node_put hwritable.node hld).trans hnode)] at hheld
  exact Node.file.inj (Option.some.inj hheld)

theorem node_ne_of_isSameFile (h : isSameFile k t source dest = .ok false)
    (hl : k.resolve t source = .file l) (hnode : t.node l = some (.file inode))
    (hwritable : k.Writable t dest d) : t.node d ≠ some (.file inode) := by
  intro hd
  rcases hwritable with hdest | hdest
  · unfold isSameFile at h
    rw [metadata_file hdest hd, metadata_file hl hnode] at h
    simp at h
  · rw [(asked_of_vacant hdest).1] at hd
    cases hd

/-- A copy onto another file writes what the source holds. -/
theorem of_copy_other {n : ℕ} (hother : isSameFile k t source dest = .ok false)
    (h : k.copy t source dest = .ok (t', n)) :
    ∃ l inode d, k.resolve t source = .file l ∧ t.node l = some (.file inode) ∧
      k.Writable t dest d ∧ t' = t.put d (t.data inode) ∧
      n = (t.data inode).length := by
  obtain ⟨l, inode, d, hl, hnode, hwritable, ht', hn⟩ := of_copy h
  rw [data_put_of_other hwritable hnode
    (node_ne_of_isSameFile hother hl hnode hwritable)] at ht' hn
  exact ⟨l, inode, d, hl, hnode, hwritable, ht', hn⟩

theorem of_rename (h : k.rename t source dest = .ok t') :
    ∃ e d, k.locate t source = some e ∧ k.locate t dest = some d ∧
      k.device e.dropLast = k.device d.dropLast ∧
      (t' = t.rename e d ∨ t.SameFile e d) := by
  unfold rename at h
  split at h
  · rename_i e d he hd
    split at h
    · cases h
    · rename_i hdevice
      refine ⟨e, d, he, hd, not_not.mp hdevice, ?_⟩
      split at h
      · cases h
      · cases h
      · cases h
      · rename_i i j hi hj
        split at h
        · rename_i heq
          subst heq
          exact .inr ⟨i, hi, hj⟩
        · cases h
          exact .inl rfl
      · cases h
        exact .inl rfl
  · cases h

theorem of_rename_crosses (h : k.rename t source dest = .error .crossesDevices) :
    ∃ e d, k.locate t source = some e ∧ k.locate t dest = some d := by
  unfold rename at h
  split at h
  · rename_i e d he hd
    exact ⟨e, d, he, hd⟩
  · cases h

theorem of_removeFile (h : k.removeFile t path = .ok t') :
    ∃ l, k.locate t path = some l ∧ t' = t.remove l := by
  unfold removeFile at h
  split at h
  · cases h
  · rename_i l hl
    split at h
    · cases h
    · cases h
    · cases h
      exact ⟨l, hl, rfl⟩

/-- Where a path is located stays while the ways to it stay. -/
theorem locate_congr (hkept : ∀ l, passage t.node l ≠ none →
      passage t'.node l = passage t.node l) (h : k.locate t path = some l) :
    k.locate t' path = some l := by
  obtain ⟨name, d, hsteps, hdir, rfl⟩ := of_locate h
  exact locate_eq hsteps (walk_dir_congr hkept hdir)

end Kernel

/-! ## One source moved and copied -/

/-- The source is one that the transfer takes to `dest`. -/
structure Taken (k : Kernel) (options : CopyOptions) (t : Files)
    (source dest : UnixPath) : Prop where
  accepted : options.filter.matchesName source.fileName = true
  isFile : k.IsFile t source
  other : (source.eq dest) = false
  distinct : isSameFile k t source dest = .ok false

/-- Taking the source at `e` to `d` is done alike by a move and by a copy: no name at
the destination leads through the source, and a rename takes a file with one name onto
nothing, or onto another such file. -/
structure Alike (k : Kernel) (t : Files) (destDir : UnixPath)
    (e d : FileTree.Location Name) : Prop where
  free : ∀ name, ¬ k.LeadsThrough t (destDir.join [name]) e
  plain : k.device e.dropLast = k.device d.dropLast →
    t.OneName e ∧ (t.node d = none ∨ t.OneName d)

/-- What holds of the trees once some sources have been moved in the one and copied in
the other; `t₁` is the tree before the first. -/
structure Together (k : Kernel) (t₁ : Files) (destDir : UnixPath)
    (gone : Set (FileTree.Location Name)) (m c : Files) : Prop where
  depleted : Depleted gone m c
  free : ∀ name l, k.LeadsThrough m (destDir.join [name]) l → l ∉ gone
  ways : ∀ l, passage m.node l ≠ none → passage t₁.node l = passage m.node l

namespace Together

variable {k : Kernel} {t₁ m c m' c' : Files} {destDir source : UnixPath} {name : Name}
  {gone : Set (FileTree.Location Name)} {l d e : FileTree.Location Name} {inode : ℕ}

theorem resolve_dest (h : Together k t₁ destDir gone m c) (name : Name) :
    k.resolve c (destDir.join [name]) = k.resolve m (destDir.join [name]) :=
  h.depleted.walk_eq fun l hl => h.free name l hl

/-- A source that the move finds, the copy finds, with what it holds. -/
theorem source_file (h : Together k t₁ destDir gone m c)
    (hl : k.resolve m source = .file l) (hnode : m.node l = some (.file inode)) :
    k.resolve c source = .file l ∧ ∃ inode', c.node l = some (.file inode') ∧
      c.data inode' = m.data inode := by
  have hc : k.resolve c source = .file l := h.depleted.walk_file hl
  obtain ⟨inode', hnode'⟩ := (asked_of_file (l := l) hc).1
  have hheld := h.depleted.held l (h.depleted.not_gone (by rw [hnode]; nofun))
  rw [Tree.held_file hnode, Tree.held_file hnode'] at hheld
  exact ⟨hc, inode', hnode', (Node.file.inj (Option.some.inj hheld)).symm⟩

/-- A source that was a file is no directory when its turn comes. -/
theorem not_dir (h : Together k t₁ destDir gone m c) (hfile : k.IsFile t₁ source) :
    k.resolve m source ≠ .dir d := by
  intro hdir
  obtain ⟨l, hl⟩ := hfile
  have hdir₁ := walk_dir_congr h.ways hdir
  unfold Kernel.resolve at hl
  rw [hl] at hdir₁
  cases hdir₁

/-- Whether the destination is the source is found alike. -/
theorem isSameFile_eq (h : Together k t₁ destDir gone m c)
    (hl : k.resolve m source = .file l) (hnode : m.node l = some (.file inode)) :
    isSameFile k c source (destDir.join [name]) =
      isSameFile k m source (destDir.join [name]) := by
  obtain ⟨hcl, inode', hcnode, _⟩ := h.source_file hl hnode
  have hdest := h.resolve_dest name
  unfold isSameFile
  rw [Kernel.metadata_file hl hnode, Kernel.metadata_file hcl hcnode]
  by_cases hfile : ∃ d, k.resolve m (destDir.join [name]) = .file d
  · obtain ⟨d, ho⟩ := hfile
    rw [ho] at hdest
    obtain ⟨j, hd⟩ := (asked_of_file (l := d) ho).1
    obtain ⟨j', hcd⟩ := (asked_of_file (l := d) hdest).1
    rw [Kernel.metadata_file ho hd, Kernel.metadata_file hdest hcd]
    have hsame := h.depleted.same l d (h.depleted.not_gone (by rw [hnode]; nofun))
      (h.depleted.not_gone (by rw [hd]; nofun))
    rw [Tree.sameFile_iff hnode, Tree.sameFile_iff hcnode, hd, hcd] at hsame
    simp only [Option.some.injEq, Node.file.injEq] at hsame
    have heq : (inode' == j') = (inode == j) := by
      rw [Bool.eq_iff_iff, beq_iff_eq, beq_iff_eq, eq_comm, ← hsame, eq_comm]
    simp only [heq]
  · have hno : ∀ d, k.resolve m (destDir.join [name]) ≠ .file d := fun d hd =>
      hfile ⟨d, hd⟩
    rw [Kernel.metadata_congr hdest hno]
    cases hmeta : k.metadata m (destDir.join [name]) with
    | error err => cases err <;> rfl
    | ok destMeta =>
      cases destMeta with
      | dir => rfl
      | file j len =>
          obtain ⟨d, hd, _⟩ := Kernel.of_metadata_file hmeta
          exact absurd hd (hno d)

/-- Once the source at `e` has been taken, and the ways apart from it are as they
were. -/
theorem taken (h : Together k t₁ destDir gone m c)
    (hdepleted : Depleted (insert e gone) m' c')
    (hfree : ∀ name, ¬ k.LeadsThrough m (destDir.join [name]) e)
    (hways : ∀ l, l ≠ e → passage m'.node l = passage m.node l) :
    Together k t₁ destDir (insert e gone) m' c' := by
  refine ⟨hdepleted, fun name l hl => ?_, fun l hl => ?_⟩
  · have hasked : k.LeadsThrough m (destDir.join [name]) l := by
      refine (asks_congr fun l hl => ?_).mp hl
      refine (hways l ?_).symm
      rintro rfl
      exact hfree name hl
    rw [Set.mem_insert_iff, not_or]
    refine ⟨?_, h.free name l hasked⟩
    rintro rfl
    exact hfree name hasked
  · have hne : l ≠ e := by
      rintro rfl
      refine hl ?_
      rw [passage, hdepleted.empty l (Set.mem_insert l gone)]
    rw [hways l hne] at hl ⊢
    exact h.ways l hl

/-- A copy of the source in the whole tree, by where the two paths lead in what is
left. -/
theorem of_copy (h : Together k t₁ destDir gone m c) {n : ℕ}
    (hl : k.resolve m source = .file l) (hnode : m.node l = some (.file inode))
    (hd : k.Writable m (destDir.join [name]) d)
    (hother : isSameFile k m source (destDir.join [name]) = .ok false)
    (hcopy : k.copy c source (destDir.join [name]) = .ok (c', n)) :
    c' = c.put d (m.data inode) ∧ n = (m.data inode).length := by
  rw [← h.isSameFile_eq hl hnode] at hother
  obtain ⟨l', inode', d', hl', hnode', hd', hc', hn⟩ :=
    Kernel.of_copy_other hother hcopy
  obtain ⟨hcl, i, hcnode, hdata⟩ := h.source_file hl hnode
  obtain rfl : l' = l := by
    rw [hcl] at hl'
    cases hl'
    rfl
  obtain rfl : inode' = i := by
    rw [hcnode] at hnode'
    cases hnode'
    rfl
  obtain rfl : d' = d := by
    unfold Kernel.Writable at hd hd'
    rw [h.resolve_dest name] at hd'
    rcases hd with hd | hd <;> rw [hd] at hd' <;> rcases hd' with hd' | hd' <;> cases hd' <;>
      rfl
  rw [hdata] at hc' hn
  exact ⟨hc', hn⟩

/-- A source renamed in the one tree and copied in the other. -/
theorem rename (h : Together k t₁ destDir gone m c) {n : ℕ}
    (hl : k.resolve m source = .file l) (hnode : m.node l = some (.file inode))
    (hother : isSameFile k m source (destDir.join [name]) = .ok false)
    (halike : ∀ e d, k.locate m source = some e →
      k.locate m (destDir.join [name]) = some d → Alike k m destDir e d)
    (hrename : k.rename m source (destDir.join [name]) = .ok m')
    (hcopy : k.copy c source (destDir.join [name]) = .ok (c', n)) :
    ∃ e, k.locate m source = some e ∧ Together k t₁ destDir (insert e gone) m' c' ∧
      n = (m.data inode).length := by
  obtain ⟨e, d, he, hd, hdevice, hm'⟩ := Kernel.of_rename hrename
  obtain ⟨hfree, hplain⟩ := halike e d he hd
  obtain ⟨hone, hdest⟩ := hplain hdevice
  obtain ⟨i, hi, _⟩ := hone.1
  obtain ⟨hfile, _, _⟩ := Kernel.resolve_of_locate he
  obtain rfl : e = l := by
    have hle := hfile i hi
    rw [hl] at hle
    cases hle
    rfl
  obtain ⟨hdfile, hdvacant, hdasks⟩ := Kernel.resolve_of_locate hd
  have hwritable : k.Writable m (destDir.join [name]) d := by
    rcases hdest with hnone | ⟨⟨j, hj, _⟩, _⟩
    · exact .inr (hdvacant hnone)
    · exact .inl (hdfile j hj)
  have hne := Kernel.node_ne_of_isSameFile hother hl hnode hwritable
  have hm' : m' = m.rename e d := by
    refine hm'.resolve_right fun hsame => hne ?_
    exact (Tree.sameFile_iff hnode).mp hsame
  obtain ⟨hc', hn⟩ := h.of_copy hl hnode hwritable hother hcopy
  refine ⟨e, he, ?_, hn⟩
  rw [hm', hc']
  refine h.taken (h.depleted.rename hnode hone (h.free name d hdasks) hdest) hfree ?_
  exact fun l hl => Tree.passage_rename hl hone.1 (hdest.imp id And.left)

/-- A source copied and deleted in the one tree and copied in the other. -/
theorem copy_remove (h : Together k t₁ destDir gone m c) {n n' : ℕ} {m₁ : Files}
    (hother : isSameFile k m source (destDir.join [name]) = .ok false)
    (halike : ∀ e d, k.locate m source = some e →
      k.locate m (destDir.join [name]) = some d → Alike k m destDir e d)
    (hcrosses : k.rename m source (destDir.join [name]) = .error .crossesDevices)
    (hmove : k.copy m source (destDir.join [name]) = .ok (m₁, n'))
    (hremove : k.removeFile m₁ source = .ok m')
    (hcopy : k.copy c source (destDir.join [name]) = .ok (c', n)) :
    ∃ e, k.locate m source = some e ∧ Together k t₁ destDir (insert e gone) m' c' ∧
      n = n' := by
  obtain ⟨l, inode, d, hl, hnode, hwritable, rfl, rfl⟩ :=
    Kernel.of_copy_other hother hmove
  obtain ⟨e, he₁, rfl⟩ := Kernel.of_removeFile hremove
  have hways : ∀ l, passage (m.put d (m.data inode)).node l = passage m.node l :=
    fun _ => Tree.passage_put hwritable.node
  have he : k.locate m source = some e :=
    Kernel.locate_congr (fun l _ => (hways l).symm) he₁
  obtain ⟨e', d', he', hd'⟩ := Kernel.of_rename_crosses hcrosses
  obtain rfl : e' = e := Option.some.inj (he'.symm.trans he)
  obtain ⟨hfree, _⟩ := halike e' d' he' hd'
  obtain ⟨hc', hn⟩ := h.of_copy hl hnode hwritable hother hcopy
  refine ⟨e', he, ?_, hn⟩
  rw [hc']
  have hput := h.depleted.put (h.free name d hwritable.leadsThrough) hwritable.node
    (m.data inode)
  refine h.taken (hput.remove e') hfree fun l hl => ?_
  rw [Tree.passage_remove hl, hways]

end Together

section Runs

variable {k : Kernel} {options : CopyOptions} {t t₁ : Files} {destDir source : UnixPath}
  {sources : List UnixPath} {gone : Set (FileTree.Location Name)} {m c m' c' : Transfer}
  {name : Name}

theorem of_renameOrCopy {dest : UnixPath} {t' : Files} {n : ℕ}
    (h : renameOrCopy k t source dest = .ok (t', n)) :
    ∃ inode, k.metadata t source = .ok (.file inode (t.data inode).length) ∧
      (k.rename t source dest = .ok t' ∧ n = (t.data inode).length ∨
        k.rename t source dest = .error .crossesDevices ∧ ∃ t₁,
          k.copy t source dest = .ok (t₁, n) ∧ k.removeFile t₁ source = .ok t') := by
  unfold renameOrCopy at h
  split at h
  · cases h
  · cases h
  · rename_i inode len hmeta
    obtain ⟨_, _, _, rfl⟩ := Kernel.of_metadata_file hmeta
    refine ⟨inode, hmeta, ?_⟩
    split at h
    · rename_i hrename
      cases h
      exact .inl ⟨hrename, rfl⟩
    · rename_i hcrosses
      refine .inr ⟨hcrosses, ?_⟩
      split at h
      · cases h
      · rename_i t₁ copied hcopy
        split at h
        · cases h
        · rename_i hremove
          cases h
          exact ⟨t₁, hcopy, hremove⟩
    · cases h

/-- A file is skipped, or it is taken: by the parent of its destination, and then. -/
theorem of_transferFile {removeSources : Bool} {dest : UnixPath} {st st' : Transfer}
    (h : transferFile k options removeSources source dest st = .ok st') :
    ¬ Taken k options st.tree source dest ∧ st' = st.skip ∨
    Taken k options st.tree source dest ∧ ∃ st₁ t n,
      createParent k st dest = .ok st₁ ∧
      (if removeSources then renameOrCopy k st₁.tree source dest
        else k.copy st₁.tree source dest) = .ok (t, n) ∧
      st' = { st₁ with
        tree := t
        summary := { st₁.summary with
          bytes := st₁.summary.bytes + n
          files := st₁.summary.files + 1 } } := by
  unfold transferFile at h
  split at h
  · rename_i hfilter
    cases h
    exact .inl ⟨fun htaken => Bool.false_ne_true (hfilter.symm.trans htaken.accepted), rfl⟩
  · rename_i hfilter
    split at h
    · cases h
    · rename_i hdir
      cases h
      refine .inl ⟨fun htaken => ?_, rfl⟩
      obtain ⟨l, hl⟩ := htaken.isFile
      obtain ⟨d, hd⟩ := Kernel.of_metadata_dir hdir
      rw [hl] at hd
      cases hd
    · rename_i inode len hmeta
      split at h
      · cases h
      · rename_i hsame
        cases h
        refine .inl ⟨fun htaken => ?_, rfl⟩
        rw [htaken.other, if_neg Bool.false_ne_true, htaken.distinct] at hsame
        cases hsame
      · rename_i hsame
        split at h
        · cases h
        · rename_i st₁ hparent
          split at h
          · cases h
          · rename_i t n hmoved
            cases h
            obtain ⟨l, hl, _⟩ := Kernel.of_metadata_file hmeta
            refine .inr ⟨⟨by simpa using hfilter, ⟨l, hl⟩, ?_, ?_⟩, st₁, t, n, hparent,
              hmoved, rfl⟩
            · cases heq : source.eq dest with
              | false => rfl
              | true =>
                  rw [heq, if_pos rfl] at hsame
                  cases hsame
            · cases heq : source.eq dest with
              | false =>
                  rw [heq, if_neg Bool.false_ne_true] at hsame
                  exact hsame
              | true =>
                  rw [heq, if_pos rfl] at hsame
                  cases hsame

theorem createParent_join {st : Transfer} (hcreated : destDir ∈ st.created) (name : Name) :
    createParent k st (destDir.join [name]) = .ok st := by
  have hparent : (destDir.join [name]).parent = destDir := by
    unfold UnixPath.parent UnixPath.join
    rw [List.map_singleton, List.dropLast_concat]
  have hany : st.created.any (UnixPath.eq destDir) = true := by
    rw [List.any_eq_true]
    exact ⟨destDir, hcreated, by simp [UnixPath.eq]⟩
  unfold createParent
  rw [hparent, if_pos hany]

/-- A source that is no directory is a file with a name to go by. -/
theorem of_transferSource {removeSources : Bool} {st st' : Transfer}
    (hno : ∀ d, k.resolve st.tree source ≠ .dir d)
    (h : transferSource k options removeSources destDir source st = .ok st') :
    ∃ l inode name, k.resolve st.tree source = .file l ∧
      st.tree.node l = some (.file inode) ∧ source.fileName = some name ∧
      transferFile k options removeSources source (destDir.join [name]) st = .ok st' := by
  unfold transferSource at h
  split at h
  · cases h
  · rename_i hdir
    obtain ⟨d, hd⟩ := Kernel.of_metadata_dir hdir
    exact absurd hd (hno d)
  · rename_i inode len hmeta
    obtain ⟨l, hl, hnode, _⟩ := Kernel.of_metadata_file hmeta
    split at h
    · cases h
    · rename_i name hname
      exact ⟨l, inode, name, hl, hnode, hname, h⟩

end Runs

/-- At each source of a move that is taken, moving it is copying it. -/
def AlikeRun (k : Kernel) (options : CopyOptions) (destDir : UnixPath) :
    List UnixPath → Transfer → Prop
  | [], _ => True
  | source :: sources, st =>
      (∀ name e d, source.fileName = some name →
        Taken k options st.tree source (destDir.join [name]) →
        k.locate st.tree source = some e →
        k.locate st.tree (destDir.join [name]) = some d →
          Alike k st.tree destDir e d) ∧
      ∀ st', transferSource k options true destDir source st = .ok st' →
        AlikeRun k options destDir sources st'

/-- What holds of the two transfers after the sources `before`. -/
structure Follows (k : Kernel) (t₁ : Files) (destDir : UnixPath)
    (before : List UnixPath) (gone : Set (FileTree.Location Name))
    (m c : Transfer) : Prop where
  trees : Together k t₁ destDir gone m.tree c.tree
  summary : m.summary = c.summary
  created : destDir ∈ m.created ∧ destDir ∈ c.created
  located : ∀ l ∈ gone, ∃ s ∈ before, k.locate t₁ s = some l
  all : m.summary.skipped = 0 → ∀ s ∈ before, ∃ l ∈ gone, k.locate t₁ s = some l

namespace Follows

variable {k : Kernel} {options : CopyOptions} {t₁ : Files} {destDir source : UnixPath}
  {before sources : List UnixPath} {gone : Set (FileTree.Location Name)}
  {m c m' c' : Transfer} {name : Name}

theorem skip (h : Follows k t₁ destDir before gone m c) :
    Follows k t₁ destDir (source :: before) gone m.skip c.skip where
  trees := h.trees
  summary := by rw [Transfer.skip, Transfer.skip, h.summary]
  created := h.created
  located l hl := by
    obtain ⟨s, hs, hlocate⟩ := h.located l hl
    exact ⟨s, List.mem_cons_of_mem _ hs, hlocate⟩
  all hskipped := absurd hskipped (Nat.succ_ne_zero _)

theorem taken (h : Follows k t₁ destDir before gone m c) {e : FileTree.Location Name}
    {tm tc : Files} {n : ℕ} (he : k.locate m.tree source = some e)
    (htrees : Together k t₁ destDir (insert e gone) tm tc) :
    Follows k t₁ destDir (source :: before) (insert e gone)
      { m with
        tree := tm
        summary := { m.summary with
          bytes := m.summary.bytes + n, files := m.summary.files + 1 } }
      { c with
        tree := tc
        summary := { c.summary with
          bytes := c.summary.bytes + n, files := c.summary.files + 1 } } := by
  have hlocate : k.locate t₁ source = some e := Kernel.locate_congr h.trees.ways he
  refine ⟨htrees, ?_, h.created, fun l hl => ?_, fun hskipped s hs => ?_⟩
  · rw [h.summary]
  · rcases Set.mem_insert_iff.mp hl with rfl | hl
    · exact ⟨source, List.mem_cons_self, hlocate⟩
    · obtain ⟨s, hs, hlocate⟩ := h.located l hl
      exact ⟨s, List.mem_cons_of_mem _ hs, hlocate⟩
  · rcases List.mem_cons.mp hs with rfl | hs
    · exact ⟨e, Set.mem_insert e gone, hlocate⟩
    · obtain ⟨l, hl, hlocate⟩ := h.all hskipped s hs
      exact ⟨l, Set.mem_insert_of_mem e hl, hlocate⟩

/-- One more source. -/
theorem step (h : Follows k t₁ destDir before gone m c) (hfile : k.IsFile t₁ source)
    (halike : ∀ name e d, source.fileName = some name →
      Taken k options m.tree source (destDir.join [name]) →
      k.locate m.tree source = some e →
      k.locate m.tree (destDir.join [name]) = some d → Alike k m.tree destDir e d)
    (hmove : transferSource k options true destDir source m = .ok m')
    (hcopy : transferSource k options false destDir source c = .ok c') :
    ∃ gone', Follows k t₁ destDir (source :: before) gone' m' c' := by
  obtain ⟨l, inode, name, hl, hnode, hname, hmove⟩ :=
    of_transferSource (fun d => h.trees.not_dir hfile) hmove
  obtain ⟨hcl, _, _, _⟩ := h.trees.source_file hl hnode
  obtain ⟨_, _, name', _, _, hname', hcopy⟩ := of_transferSource (fun d hd => by
    rw [hcl] at hd
    cases hd) hcopy
  obtain rfl : name = name' := Option.some.inj (hname.symm.trans hname')
  have hsame : isSameFile k c.tree source (destDir.join [name]) =
      isSameFile k m.tree source (destDir.join [name]) := h.trees.isSameFile_eq hl hnode
  have htaken_iff : Taken k options c.tree source (destDir.join [name]) ↔
      Taken k options m.tree source (destDir.join [name]) := by
    constructor
    · rintro ⟨haccepted, _, hother, hdistinct⟩
      exact ⟨haccepted, ⟨l, hl⟩, hother, hsame.symm.trans hdistinct⟩
    · rintro ⟨haccepted, _, hother, hdistinct⟩
      exact ⟨haccepted, ⟨l, hcl⟩, hother, hsame.trans hdistinct⟩
  rcases of_transferFile hmove with ⟨hno, rfl⟩ | ⟨htaken, st, tm, n, hparent, hdone, rfl⟩
  · rcases of_transferFile hcopy with ⟨_, rfl⟩ | ⟨hyes, _⟩
    · exact ⟨gone, h.skip⟩
    · exact absurd (htaken_iff.mp hyes) hno
  · rcases of_transferFile hcopy with ⟨hno, _⟩ | ⟨_, st', tc, n', hparent', hdone', rfl⟩
    · exact absurd (htaken_iff.mpr htaken) hno
    · rw [createParent_join h.created.1] at hparent
      rw [createParent_join h.created.2] at hparent'
      cases hparent
      cases hparent'
      have halike := fun e d => halike name e d hname htaken
      rw [if_pos rfl] at hdone
      rw [if_neg Bool.false_ne_true] at hdone'
      obtain ⟨i, hmeta, ⟨hrename, rfl⟩ | ⟨hcrosses, tm', hcopied, hremoved⟩⟩ :=
        of_renameOrCopy hdone
      · obtain ⟨l', hl', hi, _⟩ := Kernel.of_metadata_file hmeta
        obtain ⟨e, he, htrees, rfl⟩ := h.trees.rename hl' hi htaken.distinct halike
          hrename hdone'
        exact ⟨insert e gone, h.taken he htrees⟩
      · obtain ⟨e, he, htrees, rfl⟩ := h.trees.copy_remove htaken.distinct halike
          hcrosses hcopied hremoved hdone'
        exact ⟨insert e gone, h.taken he htrees⟩

/-- All the sources, one after another. -/
theorem run (h : Follows k t₁ destDir before gone m c)
    (hfiles : ∀ s ∈ sources, k.IsFile t₁ s) (halike : AlikeRun k options destDir sources m)
    (hmove : transferSources k options true destDir sources m = .ok m')
    (hcopy : transferSources k options false destDir sources c = .ok c') :
    ∃ gone', Follows k t₁ destDir (sources.reverse ++ before) gone' m' c' := by
  induction sources generalizing before gone m c with
  | nil =>
      cases hmove
      cases hcopy
      exact ⟨gone, h⟩
  | cons source sources ih =>
      unfold transferSources at hmove hcopy
      split at hmove
      · cases hmove
      · rename_i m₁ hm
        split at hcopy
        · cases hcopy
        · rename_i c₁ hc
          obtain ⟨hhere, hrest⟩ := halike
          obtain ⟨gone₁, h₁⟩ := h.step (hfiles source List.mem_cons_self) hhere hm hc
          obtain ⟨gone', h'⟩ := ih h₁
            (fun s hs => hfiles s (List.mem_cons_of_mem _ hs)) (hrest m₁ hm) hmove hcopy
          refine ⟨gone', ?_⟩
          rw [List.reverse_cons, List.append_assoc]
          exact h'

end Follows

/-! ## Whole transfers -/

namespace Kernel

variable {k : Kernel} {t t' : Files} {path : UnixPath} {l : FileTree.Location Name}

theorem of_createDir (h : k.createDir t path = .ok t') (hl : t.node l ≠ none) :
    t'.node l = t.node l := by
  unfold createDir at h
  split at h
  · rename_i at' _
    split at h
    · rename_i hnone
      cases h
      refine Function.update_of_ne ?_ _ _
      rintro rfl
      exact hl hnone
    · cases h
  · split at h
    · cases h
    · cases h

/-- Creating directories changes nothing that is there. -/
theorem of_createDirAll {absolute : Bool} {steps : List (Step Name)}
    (h : k.createDirAll absolute steps t = .ok t') (hl : t.node l ≠ none) :
    t'.node l = t.node l := by
  induction steps generalizing t t' with
  | nil =>
      cases h
      rfl
  | cons step steps ih =>
      have hunless : ∀ {t₁ : Files} {err : IoKind},
          (if k.metadata t₁ ⟨absolute, (step :: steps).reverse⟩ = .ok .dir then .ok t₁
            else .error err) = Except.ok t' → t₁ = t' := by
        intro t₁ err h
        split at h
        · cases h
          rfl
        · cases h
      unfold createDirAll at h
      dsimp only at h
      split at h
      · rename_i hcreate
        cases h
        exact of_createDir hcreate hl
      · split at h
        · cases h
        · rename_i t₁ hparents
          have hkept := ih hparents hl
          split at h
          · rename_i hcreate
            cases h
            rw [← hkept]
            exact of_createDir hcreate (by rw [hkept]; exact hl)
          · obtain rfl := hunless h
            exact hkept
      · obtain rfl := hunless h
        rfl

/-- A file stays where it is if everything that is there stays. -/
theorem isFile_congr (hkept : ∀ l, t.node l ≠ none → t'.node l = t.node l)
    (h : k.IsFile t path) : k.IsFile t' path := by
  obtain ⟨d, hd⟩ := h
  refine ⟨d, Eq.trans (walk_congr fun l hl => ?_) hd⟩
  rw [shape, shape, hkept l ((asked_of_file hd).2.2 hl)]

theorem locate_of_kept (hkept : ∀ l, t.node l ≠ none → t'.node l = t.node l)
    (hfile : k.IsFile t path) (h : k.locate t' path = some l) :
    k.locate t path = some l := by
  obtain ⟨name, d', hsteps, hdir', rfl⟩ := of_locate h
  obtain ⟨f, hf⟩ := hfile
  unfold resolve at hf
  rw [hsteps] at hf
  obtain ⟨d, hd⟩ := dir_of_file (List.cons_ne_nil _ _) hf
  have hdir : k.resolve t path.parent = .dir d := hd
  have hd' : k.resolve t' path.parent = .dir d := by
    refine walk_dir_congr (fun l hl => ?_) hdir
    rw [passage, passage, hkept l]
    intro hnone
    exact hl (by rw [passage, hnone])
  obtain rfl : d = d' := by
    rw [hdir'] at hd'
    cases hd'
    rfl
  exact locate_eq hsteps hdir

end Kernel

/-- After a move of the sources, and after a copy, from one tree: the report is the
same, every name at the destination reads the same, and the trees hold the same but
at the sources' places, where the moved tree holds nothing. -/
structure SameButSources (k : Kernel) (t : Files) (sources : List UnixPath)
    (destDir : UnixPath) (m c : Transfer) : Prop where
  report : m.summary = c.summary
  destination : ∀ name, k.read m.tree (destDir.join [name]) =
    k.read c.tree (destDir.join [name])
  rest : ∀ l, m.tree.held l = c.tree.held l ∨
    m.tree.node l = none ∧ ∃ s ∈ sources, k.locate t s = some l
  gone : m.summary.skipped = 0 →
    ∀ s ∈ sources, ∃ l, k.locate t s = some l ∧ m.tree.node l = none

theorem Follows.sameButSources {k : Kernel} {t t₁ : Files} {destDir : UnixPath}
    {sources before : List UnixPath} {gone : Set (FileTree.Location Name)}
    {m c : Transfer} (h : Follows k t₁ destDir before gone m c)
    (hbefore : ∀ s, s ∈ before ↔ s ∈ sources)
    (hlocate : ∀ s ∈ sources, ∀ l, k.locate t₁ s = some l → k.locate t s = some l) :
    SameButSources k t sources destDir m c := by
  refine ⟨h.summary, fun name => ?_, fun l => ?_, fun hskipped s hs => ?_⟩
  · unfold Kernel.read
    rw [h.trees.resolve_dest name]
    cases ho : k.resolve m.tree (destDir.join [name]) with
    | file l =>
        obtain ⟨inode, hnode⟩ := (asked_of_file (l := l) ho).1
        have hheld := h.trees.depleted.held l
          (h.trees.depleted.not_gone (by rw [hnode]; nofun))
        simp only [hheld]
    | _ => rfl
  · by_cases hl : l ∈ gone
    · obtain ⟨s, hs, hs'⟩ := h.located l hl
      have hs := (hbefore s).mp hs
      exact .inr ⟨h.trees.depleted.empty l hl, s, hs, hlocate s hs l hs'⟩
    · exact .inl (h.trees.depleted.held l hl)
  · obtain ⟨l, hl, hs'⟩ := h.all hskipped s ((hbefore s).mpr hs)
    exact ⟨l, hlocate s hs l hs', h.trees.depleted.empty l hl⟩

/-- A move whose every step is as a copy's leaves what the copy leaves. -/
theorem moved_as_copied {k : Kernel} {t : Files} {sources : List UnixPath}
    {destDir : UnixPath} {options : CopyOptions} {m c : Transfer}
    (hfiles : ∀ s ∈ sources, k.IsFile t s)
    (halike : ∀ t₁, k.createDirAll destDir.absolute destDir.steps.reverse t = .ok t₁ →
      AlikeRun k options destDir sources (started t₁ destDir))
    (hmove : moveFiles k t sources destDir options = .ok m)
    (hcopy : copyFiles k t sources destDir options = .ok c) :
    SameButSources k t sources destDir m c := by
  unfold moveFiles transfer at hmove
  unfold copyFiles transfer at hcopy
  split at hmove
  · cases hmove
  · rename_i t₁ hcreate
    rw [hcreate] at hcopy
    have hkept : ∀ l, t.node l ≠ none → t₁.node l = t.node l := fun l hl =>
      Kernel.of_createDirAll hcreate hl
    have hstart : Follows k t₁ destDir [] ∅ (started t₁ destDir) (started t₁ destDir) :=
      ⟨⟨.refl t₁, fun _ _ _ => Set.notMem_empty _, fun _ _ => rfl⟩, rfl,
        ⟨List.mem_cons_self, List.mem_cons_self⟩, nofun, nofun⟩
    obtain ⟨gone, h⟩ := hstart.run (fun s hs => Kernel.isFile_congr hkept (hfiles s hs))
      (halike t₁ hcreate) hmove hcopy
    refine h.sameButSources (fun s => ?_) fun s hs l hl =>
      Kernel.locate_of_kept hkept (hfiles s hs) hl
    rw [List.append_nil, List.mem_reverse]

/-! ## A file and a link to it -/

/-- One file system, and its root the working directory. -/
def oneDevice : Kernel where
  cwd := []
  fuel := 10
  device _ := 0
  listPath _ _ _ := .error .other

def takeAll : CopyOptions := ⟨false, false, []⟩

/-- Directories `a` and `d`, and a file `a/f` of one byte. -/
def oneFile : Files :=
  ((FileTree.Tree.mk (fun _ => none) (fun _ => []) 0 nofun).mkdir [['a']]).mkdir [['d']]
    |>.create [['a'], ['f']] [1]

/-- The same with a link `a/l` to the file next to it. -/
def linkToFile : Files :=
  oneFile.place [['a'], ['l']] (some (.link ⟨false, [.down ['f']]⟩)) nofun

def below (dir name : Char) : UnixPath := ⟨false, [.down [dir], .down [name]]⟩

theorem node_oneFile (l : FileTree.Location Name) :
    oneFile.node l = if l = [['a'], ['f']] then some (.file 0)
      else if l = [['d']] then some .dir else if l = [['a']] then some .dir else none := by
  have hnode : oneFile.node = Function.update (Function.update (Function.update
      (fun _ => none) [['a']] (some .dir)) [['d']] (some .dir)) [['a'], ['f']]
        (some (.file 0)) := rfl
  rw [hnode, Function.update_apply, Function.update_apply, Function.update_apply]

/-- The file is moved to `d` as it is copied there. -/
theorem moved_as_copied_file :
    ∃ m c, moveFiles oneDevice oneFile [below 'a' 'f'] ⟨false, [.down ['d']]⟩ takeAll =
        .ok m ∧
      SameButSources oneDevice oneFile [below 'a' 'f'] ⟨false, [.down ['d']]⟩ m c := by
  refine ⟨_, _, rfl, @moved_as_copied _ _ _ _ takeAll _ _ ?_ ?_ rfl rfl⟩
  · intro s hs
    rw [List.mem_singleton.mp hs]
    exact ⟨[['a'], ['f']], rfl⟩
  · intro t₁ ht₁
    have hstart : t₁ = oneFile := by
      cases ht₁
      rfl
    subst hstart
    refine ⟨fun name e d hname _ he hd => ?_, fun _ _ => trivial⟩
    cases hname
    cases he
    cases hd
    refine ⟨fun name hl => ?_, fun _ => ⟨⟨⟨0, rfl, rfl⟩, fun l hl => ?_⟩, .inl rfl⟩⟩
    · have hl : Asks oneFile.node [['a'], ['f']] 10 [] [.down ['d'], .down name] := hl
      simp [Asks, node_oneFile] at hl
    · obtain ⟨inode, _, hnode⟩ := hl
      have hnode : oneFile.node l = some (.file inode) := hnode
      rw [node_oneFile] at hnode
      split at hnode
      · assumption
      · split at hnode
        · cases hnode
        · split at hnode
          · cases hnode
          · cases hnode

/-- A relative link that is renamed leads nowhere from where it is then. -/
theorem not_moved_as_copied :
    ¬ ∀ (k : Kernel) (t : Files) (sources : List UnixPath) (destDir : UnixPath)
      (options : CopyOptions) (m c : Transfer), (∀ s ∈ sources, k.IsFile t s) →
      moveFiles k t sources destDir options = .ok m →
      copyFiles k t sources destDir options = .ok c →
        SameButSources k t sources destDir m c := by
  intro h
  have hfiles : ∀ s ∈ [below 'a' 'l'], oneDevice.IsFile linkToFile s := by
    intro s hs
    rw [List.mem_singleton.mp hs]
    exact ⟨[['a'], ['f']], rfl⟩
  have hsame := (h oneDevice linkToFile [below 'a' 'l'] ⟨false, [.down ['d']]⟩ takeAll
    _ _ hfiles rfl rfl).destination ['l']
  cases hsame

end Fs

end RustSak
