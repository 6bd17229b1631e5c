import RustSak.Ai.Unpack

/-!
# A folder that reads as installed

While one thread works in the folder at a time, its marker is gone before anything
beside staging is touched and comes back last, over all that the archive holds.
`Progress` says what each step has left for the next. The lock alone does not keep
other threads out: it goes with a future that is dropped, and its thread goes on.
-/

namespace RustSak

namespace Ai

open Library

variable {β : Type} {c : Setting β}

/-- What a verified archive of this hash holds, none of it named like the marker. -/
structure Extracted (c : Setting β) (asset : RemoteFile) (contents : Contents β) :
    Prop where
  archive : ∃ archive, asset.hash.verifies c.digests archive = true ∧
    c.extracts archive = some contents
  marker : contents.lookup [MARKER] = none
  pending : contents.lookup [PENDING] = none

/-- All that is held of one is held of the other. -/
def Within (contents items : Contents β) : Prop :=
  ∀ path node, contents.lookup path = some node → items.lookup path = some node

/-- What holds of the folder, by what is left to do. -/
def Progress (c : Setting β) (asset : RemoteFile) (folder : Folder β) : Work β → Prop
  | .clearing => ∃ archive, folder.staged.lookup asset.fileName = some archive ∧
      asset.hash.verifies c.digests archive = true
  | .extracting rest => ∃ contents, Extracted c asset contents ∧
      (∀ item ∈ rest, item ∈ contents.entries) ∧
      (∀ path node, contents.lookup path = some node →
        ⟨path, node⟩ ∈ rest ∨ folder.extract.lookup path = some node) ∧
      ∀ path, (folder.extract.lookup path).isSome → (contents.lookup path).isSome
  | .unmarking => ∃ contents, Extracted c asset contents ∧
      Within contents folder.extract ∧ Within folder.extract contents
  | .emptying => folder.items.lookup [MARKER] = none ∧
      ∃ contents, Extracted c asset contents ∧
        Within contents folder.extract ∧ Within folder.extract contents
  | .moving => folder.items.lookup [MARKER] = none ∧
      ∃ contents, Extracted c asset contents ∧ Within folder.extract contents ∧
        ∀ path node, contents.lookup path = some node →
          folder.extract.lookup path = some node ∨
          folder.items.lookup path = some node
  | .recording => folder.items.lookup [MARKER] = none ∧
      ∃ contents, Extracted c asset contents ∧ Within contents folder.items
  | .writing marker => folder.items.lookup [MARKER] = none ∧
      marker.hash = asset.hash.hex ∧
      ∃ contents, Extracted c asset contents ∧ Within contents folder.items
  | .publishing => folder.items.lookup [MARKER] = none ∧
      (∃ marker, marker.hash = asset.hash.hex ∧ folder.items.lookup [PENDING] =
        some (.file (c.json.encode marker))) ∧
      ∃ contents, Extracted c asset contents ∧ Within contents folder.items
  | .cleaning => True

theorem marker_ne_pending : ([MARKER] : Path) ≠ [PENDING] := by decide

/-- A marker that is no link is read where it stands. -/
theorem readMarker_eq {folder : Folder β} (hlink : folder.isLink MARKER = false) :
    c.readMarker folder = match folder.items.lookup [MARKER] with
      | some (.file bytes) => c.json.decode bytes
      | _ => none := by
  rw [Setting.readMarker, Marker.read]
  cases hmarker : folder.items.lookup [MARKER] with
  | none => rfl
  | some node =>
      cases node with
      | file bytes => rfl
      | link target =>
          rw [Folder.isLink, hmarker] at hlink
          cases hlink

theorem not_isLink_of_unmarked {folder : Folder β}
    (h : folder.items.lookup [MARKER] = none) : folder.isLink MARKER = false := by
  rw [Folder.isLink, h]

/-- Without a marker a folder reads as nothing. -/
theorem sound_of_unmarked {folder : Folder β}
    (h : folder.items.lookup [MARKER] = none) : Sound c folder := by
  intro marker hmarker
  rw [readMarker_eq (not_isLink_of_unmarked h), h] at hmarker
  cases hmarker

/-- Staging does not count. -/
theorem Sound.of_items {folder folder' : Folder β} (h : Sound c folder)
    (hlink : folder.isLink MARKER = false) (hitems : folder'.items = folder.items) :
    Sound c folder' := by
  intro marker hmarker
  have hlink' : folder'.isLink MARKER = false := by
    rw [Folder.isLink, hitems]
    exact hlink
  rw [readMarker_eq hlink', hitems, ← readMarker_eq hlink] at hmarker
  rw [hitems]
  exact h marker hmarker

/-- With its marker over all that its archive holds, a folder is whole. -/
theorem sound_of_published {folder : Folder β} {asset : RemoteFile} {marker : Marker}
    {contents : Contents β} (hextracted : Extracted c asset contents)
    (hwithin : Within contents folder.items) (hhash : marker.hash = asset.hash.hex)
    (hmarker : folder.items.lookup [MARKER] = some (.file (c.json.encode marker))) :
    Sound c folder := by
  intro marker' hread _
  rw [Setting.readMarker, Marker.read, hmarker] at hread
  change c.json.decode (c.json.encode marker) = some marker' at hread
  rw [c.json.decode_encode] at hread
  obtain rfl := Option.some.inj hread
  obtain ⟨archive, hverifies, hextracts⟩ := hextracted.archive
  exact ⟨archive, contents, asset.hash, hhash.symm, hverifies, hextracts, hwithin⟩

/-- What is put at a path that the archive does not have is beside what it holds. -/
theorem Within.insert {contents items : Contents β} (h : Within contents items)
    {path : Path} (hpath : contents.lookup path = none) (node : Node β) :
    Within contents (items.insert path node) := by
  intro path' node' hnode
  rw [Table.lookup_insert]
  by_cases heq : path' = path
  · subst heq
    rw [hpath] at hnode
    cases hnode
  · rw [if_neg heq]
    exact h path' node' hnode

theorem Within.erase {contents items : Contents β} (h : Within contents items)
    {path : Path} (hpath : contents.lookup path = none) :
    Within contents (items.erase path) := by
  intro path' node' hnode
  rw [Table.lookup_erase]
  by_cases heq : path' = path
  · subst heq
    rw [hpath] at hnode
    cases hnode
  · rw [if_neg heq]
    exact h path' node' hnode

theorem within_of_entries_nil {contents items extract : Contents β}
    (h : ∀ path node, contents.lookup path = some node →
      extract.lookup path = some node ∨ items.lookup path = some node)
    (hextract : extract.entries = []) : Within contents items := by
  intro path node hnode
  rcases h path node hnode with hin | hin
  · have hmem := AList.mem_lookup_iff.mp (Option.mem_def.mpr hin)
    rw [hextract] at hmem
    cases hmem
  · exact hin

section Extracting

variable {asset : RemoteFile} {folder : Folder β}
  {item : Sigma fun _ : Path => Node β} {rest : List (Sigma fun _ : Path => Node β)}

/-- Writing some of an item takes nothing from what is written. -/
theorem Progress.writePart (h : Progress c asset folder (.extracting (item :: rest)))
    (node : Node β) :
    Progress c asset (folder.withExtract (folder.extract.insert item.1 node))
      (.extracting (item :: rest)) := by
  obtain ⟨contents, hextracted, hrest, hall, honly⟩ := h
  refine ⟨contents, hextracted, hrest, ?_, ?_⟩
  · intro path node' hnode
    by_cases hpath : path = item.1
    · subst hpath
      have hitem := AList.mem_lookup_iff.mpr (hrest item List.mem_cons_self)
      obtain rfl := Option.some.inj (hnode.symm.trans (Option.mem_def.mp hitem))
      exact .inl List.mem_cons_self
    · refine (hall path node' hnode).imp_right fun hin => ?_
      change (folder.extract.insert item.1 node).lookup path = some node'
      rwa [Table.lookup_insert, if_neg hpath]
  · intro path hin
    by_cases hpath : path = item.1
    · subst hpath
      have hitem := AList.mem_lookup_iff.mpr (hrest item List.mem_cons_self)
      rw [Option.mem_def.mp hitem]
      rfl
    · refine honly path ?_
      change ((folder.extract.insert item.1 node).lookup path).isSome = true at hin
      rwa [Table.lookup_insert, if_neg hpath] at hin

/-- An item that is written whole is done with. -/
theorem Progress.writeWhole (h : Progress c asset folder (.extracting (item :: rest))) :
    Progress c asset (folder.withExtract (folder.extract.insert item.1 item.2))
      (.extracting rest) := by
  obtain ⟨contents, hextracted, hrest, hall, honly⟩ := h.writePart item.2
  refine ⟨contents, hextracted, fun other hother => hrest other (.tail _ hother), ?_,
    honly⟩
  intro path node hnode
  rcases hall path node hnode with hmem | hin
  · rcases List.mem_cons.mp hmem with rfl | hmem
    · refine .inr ?_
      exact AList.lookup_insert folder.extract
    · exact .inl hmem
  · exact .inr hin

/-- When nothing is left to write, all is there and nothing else. -/
theorem Progress.extracted (h : Progress c asset folder (.extracting [])) :
    Progress c asset folder .unmarking := by
  obtain ⟨contents, hextracted, _, hall, honly⟩ := h
  have hwithin : Within contents folder.extract := fun path node hnode =>
    (hall path node hnode).resolve_left List.not_mem_nil
  refine ⟨contents, hextracted, hwithin, ?_⟩
  intro path node hin
  obtain ⟨node', hnode⟩ := Option.isSome_iff_exists.mp (honly path (by rw [hin]; rfl))
  rw [hnode, ← hwithin path node' hnode, hin]

end Extracting

section Moving

variable {asset : RemoteFile} {folder : Folder β}

theorem lookup_moveIn_extract {name : String} {path : Path} {node : Node β} :
    (folder.moveIn name).extract.lookup path = some node ↔
      folder.extract.lookup path = some node ∧ path.head? ≠ some name := by
  change node ∈ (Table.retain _ folder.extract).lookup path ↔ _
  rw [Table.mem_lookup_retain, Option.mem_def, bne_iff_ne]

theorem lookup_moveIn_items {name : String} {path : Path} {node : Node β} :
    (folder.moveIn name).items.lookup path = some node ↔
      (folder.extract.lookup path = some node ∧ path.head? = some name) ∨
      ((folder.extract.lookup path = none ∨ path.head? ≠ some name) ∧
        folder.items.lookup path = some node) := by
  have hmoved : ∀ node', (folder.extract.retain
      fun path _ => path.head? == some name).lookup path = some node' ↔
      folder.extract.lookup path = some node' ∧ path.head? = some name := by
    intro node'
    rw [← Option.mem_def, Table.mem_lookup_retain, Option.mem_def, beq_iff_eq]
  change (Table.retain _ folder.extract ∪ folder.items).lookup path = some node ↔ _
  rw [AList.lookup_union_eq_some, hmoved]
  refine or_congr_right (and_congr_left fun _ => ?_)
  rw [← AList.lookup_eq_none]
  constructor
  · intro hnone
    by_contra hboth
    rw [not_or, not_not] at hboth
    obtain ⟨node', hnode'⟩ := Option.ne_none_iff_exists'.mp hboth.1
    rw [(hmoved node').mpr ⟨hnode', hboth.2⟩] at hnone
    cases hnone
  · intro hor
    rw [Option.eq_none_iff_forall_not_mem]
    intro node' hnode'
    obtain ⟨hin, hhead⟩ := (hmoved node').mp hnode'
    rcases hor with hnone | hne
    · rw [hnone] at hin
      cases hin
    · exact hne hhead

/-- What is moved in was extracted, and what is not moved in stays. -/
theorem Progress.move (h : Progress c asset folder .moving) (name : String) :
    Progress c asset (folder.moveIn name) .moving := by
  obtain ⟨hmarker, contents, hextracted, honly, hall⟩ := h
  refine ⟨?_, contents, hextracted, ?_, ?_⟩
  · rw [Option.eq_none_iff_forall_ne_some]
    intro node hnode
    rcases lookup_moveIn_items.mp hnode with ⟨hin, _⟩ | ⟨_, hin⟩
    · have hmoved := honly _ node hin
      rw [hextracted.marker] at hmoved
      cases hmoved
    · rw [hmarker] at hin
      cases hin
  · intro path node hin
    exact honly path node (lookup_moveIn_extract.mp hin).1
  · intro path node hnode
    by_cases hhead : path.head? = some name
    · rcases hall path node hnode with hin | hin
      · exact .inr (lookup_moveIn_items.mpr (.inl ⟨hin, hhead⟩))
      · refine .inr ?_
        rw [lookup_moveIn_items]
        cases hother : folder.extract.lookup path with
        | none => exact .inr ⟨.inl rfl, hin⟩
        | some node' =>
            have hsame := honly path node' hother
            rw [hnode] at hsame
            exact .inl ⟨congrArg some (Option.some.inj hsame).symm, hhead⟩
    · rcases hall path node hnode with hin | hin
      · exact .inl (lookup_moveIn_extract.mpr ⟨hin, hhead⟩)
      · exact .inr (lookup_moveIn_items.mpr (.inr ⟨.inr hhead, hin⟩))

end Moving

section Steps

variable {asset : RemoteFile} {folder folder' : Folder β}

/-- Opening the archive finds the one that was verified, and nothing extracted. -/
theorem Progress.open {archive : List β} {contents : Contents β}
    (h : Progress c asset folder .clearing) (hempty : folder.extract.entries = [])
    (hstaged : folder.staged.lookup asset.fileName = some archive)
    (hextracts : c.extracts archive = some contents)
    (hmarker : contents.lookup [MARKER] = none)
    (hpending : contents.lookup [PENDING] = none) :
    Progress c asset folder (.extracting contents.entries) := by
  obtain ⟨archive', hstaged', hverifies⟩ := h
  obtain rfl := Option.some.inj (hstaged.symm.trans hstaged')
  refine ⟨contents, ⟨⟨archive, hverifies, hextracts⟩, hmarker, hpending⟩,
    fun _ hitem => hitem, ?_, ?_⟩
  · intro path node hnode
    exact .inl (AList.mem_lookup_iff.mp (Option.mem_def.mpr hnode))
  · intro path hin
    obtain ⟨node, hnode⟩ := Option.isSome_iff_exists.mp hin
    have hmem := AList.mem_lookup_iff.mp (Option.mem_def.mpr hnode)
    rw [hempty] at hmem
    cases hmem

/-- Once the marker is gone, all that is taken away is beside what is extracted. -/
theorem Progress.remove (h : Progress c asset folder .emptying) (path : Path) :
    Progress c asset (folder.withItems (folder.items.erase path)) .emptying := by
  obtain ⟨hmarker, h⟩ := h
  refine ⟨?_, h⟩
  change (folder.items.erase path).lookup [MARKER] = none
  rw [Table.lookup_erase]
  split
  · rfl
  · exact hmarker

theorem Progress.writePending {marker : Marker} (node : Node β)
    (h : Progress c asset folder (.writing marker)) :
    Progress c asset (folder.withItems (folder.items.insert [PENDING] node))
      (.writing marker) := by
  obtain ⟨hmarker, hhash, contents, hextracted, hwithin⟩ := h
  refine ⟨?_, hhash, contents, hextracted, hwithin.insert hextracted.pending node⟩
  change (folder.items.insert [PENDING] node).lookup [MARKER] = none
  rw [Table.lookup_insert, if_neg marker_ne_pending]
  exact hmarker

theorem Progress.written {marker : Marker}
    (h : Progress c asset folder (.writing marker)) :
    Progress c asset (folder.withItems (folder.items.insert [PENDING]
      (.file (c.json.encode marker)))) .publishing := by
  obtain ⟨hmarker, hhash, hcontents⟩ := h.writePending (.file (c.json.encode marker))
  refine ⟨hmarker, ⟨marker, hhash, ?_⟩, hcontents⟩
  exact AList.lookup_insert folder.items

/-- The marker comes into place over a folder that is whole. -/
theorem Progress.publish {node : Node β} (h : Progress c asset folder .publishing)
    (hnode : folder.items.lookup [PENDING] = some node) :
    (folder.withItems ((folder.items.erase [PENDING]).insert [MARKER]
      node)).isLink MARKER = false ∧
    Sound c (folder.withItems ((folder.items.erase [PENDING]).insert [MARKER]
      node)) := by
  obtain ⟨_, ⟨marker, hhash, hpending⟩, contents, hextracted, hwithin⟩ := h
  obtain rfl := Option.some.inj (hnode.symm.trans hpending)
  have hpublished : (folder.withItems ((folder.items.erase [PENDING]).insert [MARKER]
      (.file (c.json.encode marker)))).items.lookup [MARKER] =
      some (.file (c.json.encode marker)) :=
    AList.lookup_insert (folder.items.erase [PENDING])
  refine ⟨by rw [Folder.isLink, hpublished], ?_⟩
  exact sound_of_published hextracted
    ((hwithin.erase hextracted.pending).insert hextracted.marker _) hhash hpublished

/-- An archive that is opened has nothing at its top named like the marker or its
pending write. -/
def OwnsNothing (c : Setting β) (asset : RemoteFile) (folder : Folder β)
    (step : Step) : Prop :=
  step = .open → ∀ archive contents,
    folder.staged.lookup asset.fileName = some archive →
    c.extracts archive = some contents →
    contents.lookup [MARKER] = none ∧ contents.lookup [PENDING] = none

/-- One step of a thread that is alone in the folder. -/
theorem Progress.next {work work' : Work β} {step : Step} {current : Bool}
    (hnext : work.next c asset current folder step = some (folder', work'))
    (hlink : folder.isLink MARKER = false) (hsound : Sound c folder)
    (h : Progress c asset folder work) (howns : OwnsNothing c asset folder step) :
    folder'.isLink MARKER = false ∧ Sound c folder' ∧
      Progress c asset folder' work' := by
  unfold Work.next at hnext
  split at hnext
  · -- removing an earlier extraction
    cases hnext
    exact ⟨hlink, hsound.of_items hlink rfl, h⟩
  · -- opening the archive
    split at hnext
    · rename_i hempty
      obtain ⟨archive, hstaged, hnext⟩ := Option.bind_eq_some_iff.mp hnext
      obtain ⟨contents, hextracts, hnext⟩ := Option.map_eq_some_iff.mp hnext
      cases hnext
      obtain ⟨hmarker, hpending⟩ := howns rfl archive contents hstaged hextracts
      exact ⟨hlink, hsound, h.open hempty hstaged hextracts hmarker hpending⟩
    · cases hnext
  · obtain ⟨_, hnext⟩ := Option.ite_none_right_eq_some.mp hnext
    cases hnext
    exact ⟨hlink, hsound.of_items hlink rfl, h.writePart _⟩
  · obtain ⟨_, hnext⟩ := Option.ite_none_right_eq_some.mp hnext
    cases hnext
    exact ⟨hlink, hsound.of_items hlink rfl, h.writeWhole⟩
  · cases hnext
    exact ⟨hlink, hsound, h.extracted⟩
  · -- the marker goes before anything else
    split at hnext
    · cases hnext
    · cases hnext
      have hgone : (folder.withItems (folder.items.erase [MARKER])).items.lookup
          [MARKER] = none := AList.lookup_erase [MARKER] folder.items
      exact ⟨not_isLink_of_unmarked hgone, sound_of_unmarked hgone, hgone, h⟩
  · cases hnext
    have hremoved := h.remove ‹_›
    exact ⟨not_isLink_of_unmarked hremoved.1, sound_of_unmarked hremoved.1, hremoved⟩
  · -- emptied
    split at hnext
    · cases hnext
      obtain ⟨hmarker, contents, hextracted, hall, honly⟩ := h
      exact ⟨hlink, hsound, hmarker, contents, hextracted, honly,
        fun path node hnode => .inl (hall path node hnode)⟩
    · cases hnext
  · -- moving one entry in
    split at hnext
    · cases hnext
    · cases hnext
      have hmoved := h.move ‹_›
      exact ⟨not_isLink_of_unmarked hmoved.1, sound_of_unmarked hmoved.1, hmoved⟩
  · -- moved
    split at hnext
    · rename_i hempty
      cases hnext
      obtain ⟨hmarker, contents, hextracted, _, hall⟩ := h
      exact ⟨hlink, hsound, hmarker, contents, hextracted,
        within_of_entries_nil hall hempty⟩
    · cases hnext
  · cases hnext
    obtain ⟨hmarker, hcontents⟩ := h
    exact ⟨hlink, hsound, hmarker, rfl, hcontents⟩
  · split at hnext
    · cases hnext
    · cases hnext
      have hwritten := h.writePending (.file ((c.json.encode ‹_›).take ‹_›))
      exact ⟨not_isLink_of_unmarked hwritten.1, sound_of_unmarked hwritten.1, hwritten⟩
  · split at hnext
    · cases hnext
    · cases hnext
      have hwritten := h.written
      exact ⟨not_isLink_of_unmarked hwritten.1, sound_of_unmarked hwritten.1, hwritten⟩
  · -- the marker comes last
    split at hnext
    · cases hnext
    · obtain ⟨node, hnode, hnext⟩ := Option.map_eq_some_iff.mp hnext
      cases hnext
      obtain ⟨hlink', hsound'⟩ := h.publish hnode
      exact ⟨hlink', hsound', trivial⟩
  · cases hnext
    exact ⟨hlink, hsound.of_items hlink rfl, trivial⟩
  · cases hnext
    exact ⟨hlink, hsound.of_items hlink rfl, trivial⟩
  · cases hnext

end Steps

/-- No install comes into the folder while the thread of a dropped one is still at
work there, and no verified archive has an entry of the marker's name, or of its
pending write's. -/
def Exclusive (c : Setting β) (s : State β) : Event β → Prop
  | .acquire _ _ => ∀ j, (s.runs j).isStray = false
  | .evict _ => ∀ j, (s.runs j).isStray = false
  | .unpack i step => ∀ asset work, (s.runs i).work = some (asset, work) →
      OwnsNothing c asset s.folder step
  | _ => True

/-- One run at most is in the folder, it is the one the lock is held by, and the
folder is as it has left it. -/
structure Inv (c : Setting β) (s : State β) : Prop where
  link : s.folder.isLink MARKER = false
  sound : Sound c s.folder
  alone : ∀ i j, (s.runs i).isIdle = false → (s.runs j).isIdle = false → i = j
  lock : ∀ i, s.lock = some i ↔ (s.runs i).holds = true
  progress : ∀ i asset work, (s.runs i).work = some (asset, work) →
    Progress c asset s.folder work
  evicted : ∀ i, s.runs i = .removing true → s.folder.items.lookup [MARKER] = none

theorem Run.isIdle_of_work {run : Run β} {asset : RemoteFile} {work : Work β}
    (h : run.work = some (asset, work)) : run.isIdle = false := by
  cases run with
  | idle => cases h
  | _ => rfl

theorem Run.eq_idle {run : Run β} (h : run.isIdle = true) : run = .idle := by
  cases run with
  | idle => rfl
  | _ => cases h

namespace Inv

variable {s : State β} {i : ℕ}

/-- Nobody else is in the folder. -/
theorem others (h : Inv c s) (hi : (s.runs i).isIdle = false) {j : ℕ} (hne : j ≠ i) :
    (s.runs j).isIdle = true := by
  by_contra hj
  exact hne (h.alone j i (by simpa using hj) hi)

/-- The one run that is in the folder, or comes into it, moves on. -/
theorem update (h : Inv c s) (hothers : ∀ j, j ≠ i → (s.runs j).isIdle = true)
    {folder : Folder β} {lock extractor : Option ℕ} {run : Run β}
    (hlink : folder.isLink MARKER = false) (hsound : Sound c folder)
    (hlock : lock = some i ↔ run.holds = true)
    (hkept : ∀ j, j ≠ i → lock = some j → s.lock = some j)
    (hprogress : ∀ asset work, run.work = some (asset, work) →
      Progress c asset folder work)
    (hevicted : run = .removing true → folder.items.lookup [MARKER] = none) :
    Inv c ⟨folder, lock, Function.update s.runs i run, extractor⟩ := by
  have hidle : ∀ j, j ≠ i → Function.update s.runs i run j = .idle := by
    intro j hne
    rw [Function.update_of_ne hne]
    exact Run.eq_idle (hothers j hne)
  refine ⟨hlink, hsound, ?_, ?_, ?_, ?_⟩
  · intro j k hj hk
    have honly : ∀ l, (Function.update s.runs i run l).isIdle = false → l = i := by
      intro l hl
      by_contra hne
      rw [hidle l hne] at hl
      cases hl
    rw [honly j hj, honly k hk]
  · intro j
    change lock = some j ↔ (Function.update s.runs i run j).holds = true
    rcases eq_or_ne j i with rfl | hne
    · rw [Function.update_self]
      exact hlock
    · rw [hidle j hne]
      refine ⟨fun hheld => ?_, fun hholds => by cases hholds⟩
      have hholds := (h.lock j).mp (hkept j hne hheld)
      rw [Run.eq_idle (hothers j hne)] at hholds
      cases hholds
  · intro j asset work hwork
    change (Function.update s.runs i run j).work = _ at hwork
    rcases eq_or_ne j i with rfl | hne
    · rw [Function.update_self] at hwork
      exact hprogress asset work hwork
    · rw [hidle j hne] at hwork
      cases hwork
  · intro j hremoving
    change Function.update s.runs i run j = _ at hremoving
    rcases eq_or_ne j i with rfl | hne
    · rw [Function.update_self] at hremoving
      exact hevicted hremoving
    · rw [hidle j hne] at hremoving
      cases hremoving

/-- The run moves on, with the lock if it had it. -/
theorem step (h : Inv c s) (hi : (s.runs i).isIdle = false) {folder : Folder β}
    {run : Run β} (extractor : Option ℕ) (hlink : folder.isLink MARKER = false)
    (hsound : Sound c folder) (hholds : run.holds = (s.runs i).holds)
    (hprogress : ∀ asset work, run.work = some (asset, work) →
      Progress c asset folder work)
    (hevicted : run = .removing true → folder.items.lookup [MARKER] = none) :
    Inv c { (s.withFolder folder).set i run with extractor := extractor } := by
  refine h.update (fun j => h.others hi) hlink hsound ?_ (fun _ _ hheld => hheld)
    hprogress hevicted
  change s.lock = some i ↔ _
  rw [hholds]
  exact h.lock i

theorem set (h : Inv c s) (hi : (s.runs i).isIdle = false) {folder : Folder β}
    {run : Run β} (hlink : folder.isLink MARKER = false) (hsound : Sound c folder)
    (hholds : run.holds = (s.runs i).holds)
    (hprogress : ∀ asset work, run.work = some (asset, work) →
      Progress c asset folder work)
    (hevicted : run = .removing true → folder.items.lookup [MARKER] = none) :
    Inv c ((s.withFolder folder).set i run) :=
  h.step hi s.extractor hlink hsound hholds hprogress hevicted

/-- The run has changed the folder, and is where it was. -/
theorem withFolder (h : Inv c s) (hi : (s.runs i).isIdle = false) {folder : Folder β}
    (hlink : folder.isLink MARKER = false) (hsound : Sound c folder)
    (hprogress : ∀ asset work, (s.runs i).work = some (asset, work) →
      Progress c asset folder work)
    (hevicted : s.runs i = .removing true → folder.items.lookup [MARKER] = none) :
    Inv c (s.withFolder folder) := by
  have hset := h.set hi hlink hsound rfl hprogress hevicted
  have hself : (s.withFolder folder).set i (s.runs i) = s.withFolder folder := by
    change State.mk folder s.lock (Function.update s.runs i (s.runs i)) s.extractor = _
    rw [Function.update_eq_self]
    rfl
  rwa [hself] at hset

/-- The run gives the lock up. -/
theorem release (h : Inv c s) (hi : (s.runs i).isIdle = false) {run : Run β}
    (hholds : run.holds = false)
    (hprogress : ∀ asset work, run.work = some (asset, work) →
      Progress c asset s.folder work) : Inv c (s.release i run) := by
  refine h.update (fun j => h.others hi) h.link h.sound ?_ ?_ hprogress ?_
  · rw [hholds]
    split
    · exact ⟨nofun, nofun⟩
    · rename_i hlock
      exact ⟨fun hheld => absurd hheld hlock, nofun⟩
  · intro j _ hheld
    change (if s.lock = some i then none else s.lock) = some j at hheld
    split at hheld
    · cases hheld
    · exact hheld
  · rintro rfl
    cases hholds

/-- A run takes the lock of a folder that nobody is in. -/
theorem enter (h : Inv c s) (hlock : s.lock = none)
    (hstray : ∀ j, (s.runs j).isStray = false) {run : Run β}
    (hholds : run.holds = true) (hwork : run.work = none)
    (hevicted : run ≠ .removing true) :
    Inv c { s.set i run with lock := some i } := by
  have hidle : ∀ j, (s.runs j).isIdle = true := by
    intro j
    have hheld : (s.runs j).holds = false := by
      by_contra hheld
      have hj := (h.lock j).mpr (by simpa using hheld)
      rw [hlock] at hj
      cases hj
    have hj := hstray j
    cases hrun : s.runs j with
    | idle => rfl
    | stray asset work => rw [hrun] at hj; cases hj
    | entered asset => rw [hrun] at hheld; cases hheld
    | fetching asset => rw [hrun] at hheld; cases hheld
    | working asset work => rw [hrun] at hheld; cases hheld
    | removing unmarked => rw [hrun] at hheld; cases hheld
  refine h.update (fun j _ => hidle j) h.link h.sound ?_ ?_ ?_ ?_
  · rw [hholds]
    exact ⟨fun _ => rfl, fun _ => rfl⟩
  · intro j hne hheld
    exact absurd (Option.some.inj hheld).symm hne
  · intro asset work hrun
    rw [hwork] at hrun
    cases hrun
  · exact fun hrun => absurd hrun hevicted

/-- A process takes its runs with it, and the lock if one of them has it. -/
theorem crash (h : Inv c s) (process : ℕ → ℕ) (p : ℕ) :
    Inv c { s with
      runs := fun i => if process i = p then .idle else s.runs i
      lock := s.lock.filter fun i => process i != p } := by
  have hrun : ∀ j, process j ≠ p →
      (if process j = p then Run.idle else s.runs j) = s.runs j := fun j hne =>
    if_neg hne
  refine ⟨h.link, h.sound, ?_, ?_, ?_, ?_⟩
  · intro j k hj hk
    have hactive : ∀ l, (if process l = p then Run.idle else s.runs l).isIdle = false →
        (s.runs l).isIdle = false := by
      intro l hl
      split at hl
      · cases hl
      · exact hl
    exact h.alone j k (hactive j hj) (hactive k hk)
  · intro j
    change s.lock.filter (fun i => process i != p) = some j ↔
      (if process j = p then Run.idle else s.runs j).holds = true
    rw [Option.filter_eq_some_iff, bne_iff_ne, h.lock j]
    by_cases hj : process j = p
    · rw [if_pos hj]
      exact ⟨fun hheld => absurd hj hheld.2, fun hheld => by cases hheld⟩
    · rw [if_neg hj]
      exact ⟨fun hheld => hheld.1, fun hheld => ⟨hheld, hj⟩⟩
  · intro j asset work hwork
    change (if process j = p then Run.idle else s.runs j).work = _ at hwork
    split at hwork
    · cases hwork
    · exact h.progress j asset work hwork
  · intro j hremoving
    change (if process j = p then Run.idle else s.runs j) = _ at hremoving
    split at hremoving
    · cases hremoving
    · exact h.evicted j hremoving

theorem unpack (h : Inv c s) {asset : RemoteFile} {work work' : Work β}
    {step : Step} {folder : Folder β} {current : Bool} (extractor : Option ℕ)
    (hwork : (s.runs i).work = some (asset, work))
    (hnext : work.next c asset current s.folder step = some (folder, work'))
    (howns : OwnsNothing c asset s.folder step) :
    Inv c { (s.withFolder folder).set i ((s.runs i).withWork work') with
      extractor := extractor } := by
  obtain ⟨hlink, hsound, hprogress⟩ :=
    (h.progress i asset work hwork).next hnext h.link h.sound howns
  refine h.step (Run.isIdle_of_work hwork) extractor hlink hsound ?_ ?_ ?_
  · cases s.runs i with
    | working asset work => rfl
    | stray asset work => rfl
    | _ => rfl
  · intro asset' work'' hwork'
    cases hrun : s.runs i with
    | working asset₀ work₀ =>
        rw [hrun] at hwork hwork'
        cases hwork
        cases hwork'
        exact hprogress
    | stray asset₀ work₀ =>
        rw [hrun] at hwork hwork'
        cases hwork
        cases hwork'
        exact hprogress
    | _ =>
        rw [hrun] at hwork
        cases hwork
  · intro hremoving
    cases hrun : s.runs i with
    | removing unmarked =>
        rw [hrun] at hwork
        cases hwork
    | _ =>
        rw [hrun] at hremoving
        cases hremoving

theorem next (h : Inv c s) {kind : Kind} {process : ℕ → ℕ} {e : Event β}
    {s' : State β} (hnext : s.next c kind process e = some s')
    (hexclusive : Exclusive c s e) : Inv c s' := by
  cases e with
  | acquire i asset =>
      obtain ⟨⟨hlock, _⟩, rfl⟩ := Option.ite_none_right_eq_some.mp hnext |>.imp_right
        Option.some.inj
      exact h.enter hlock hexclusive rfl rfl nofun
  | check i =>
      rw [State.next] at hnext
      split at hnext
      · rename_i asset hrun
        have hactive : (s.runs i).isIdle = false := by rw [hrun]; rfl
        split at hnext
        · cases hnext
          exact h.release hactive rfl nofun
        · cases hnext
          exact h.set hactive h.link h.sound (by rw [hrun]; rfl) nofun nofun
      · cases hnext
  | download i archive =>
      rw [State.next] at hnext
      split at hnext
      · rename_i asset hrun
        cases hnext
        have hactive : (s.runs i).isIdle = false := by rw [hrun]; rfl
        exact h.withFolder hactive h.link (h.sound.of_items h.link rfl)
          (by rw [hrun]; exact nofun) (by rw [hrun]; exact nofun)
      · cases hnext
  | verified i =>
      rw [State.next] at hnext
      split at hnext
      · rename_i asset hrun
        have hactive : (s.runs i).isIdle = false := by rw [hrun]; rfl
        split at hnext
        · rename_i hverifies
          cases hnext
          refine h.set hactive h.link h.sound (by rw [hrun]; rfl) ?_ nofun
          intro asset' work hwork
          cases hwork
          obtain ⟨archive, hstaged, hverifies⟩ := (Option.any_eq_true _ _).mp hverifies
          exact ⟨archive, hstaged, hverifies⟩
        · cases hnext
      · cases hnext
  | unpack i step =>
      obtain ⟨⟨asset, work⟩, hwork, hnext⟩ := Option.bind_eq_some_iff.mp hnext
      obtain ⟨⟨folder, work'⟩, hstep, hnext⟩ := Option.map_eq_some_iff.mp hnext
      cases hnext
      exact h.unpack _ hwork hstep (hexclusive asset work hwork)
  | finish i =>
      rw [State.next] at hnext
      split at hnext
      · rename_i hrun
        cases hnext
        exact h.release (by rw [hrun]; rfl) rfl nofun
      · rename_i hrun
        cases hnext
        exact h.set (by rw [hrun]; rfl) h.link h.sound (by rw [hrun]; rfl) nofun nofun
      · cases hnext
  | fail i =>
      rw [State.next] at hnext
      split at hnext
      · cases hnext
      · rename_i hactive
        cases hnext
        exact h.release (by simpa using hactive) rfl nofun
  | drop i =>
      rw [State.next] at hnext
      split at hnext
      · rename_i hrun
        cases hnext
        exact h.release (by rw [hrun]; rfl) rfl nofun
      · rename_i hrun
        cases hnext
        exact h.release (by rw [hrun]; rfl) rfl nofun
      · rename_i asset work hrun
        cases hnext
        refine h.release (by rw [hrun]; rfl) rfl ?_
        intro asset' work' hwork
        cases hwork
        exact h.progress i asset work (by rw [hrun]; rfl)
      · cases hnext
  | crash p =>
      cases hnext
      exact h.crash process p
  | evict i =>
      obtain ⟨⟨hlock, _⟩, rfl⟩ := Option.ite_none_right_eq_some.mp hnext |>.imp_right
        Option.some.inj
      exact h.enter hlock hexclusive rfl rfl nofun
  | evictMarker i =>
      rw [State.next] at hnext
      split at hnext
      · rename_i hrun
        split at hnext
        · cases hnext
        · cases hnext
          have hgone : (s.folder.withItems
              (s.folder.items.erase [MARKER])).items.lookup [MARKER] = none :=
            AList.lookup_erase [MARKER] s.folder.items
          exact h.set (by rw [hrun]; rfl) (not_isLink_of_unmarked hgone)
            (sound_of_unmarked hgone) (by rw [hrun]; rfl) nofun fun _ => hgone
      · cases hnext
  | evictItem i path =>
      rw [State.next] at hnext
      split at hnext
      · rename_i hrun
        cases hnext
        have hgone : (s.folder.withItems
            (s.folder.items.erase path)).items.lookup [MARKER] = none := by
          change (s.folder.items.erase path).lookup [MARKER] = none
          rw [Table.lookup_erase]
          split
          · rfl
          · exact h.evicted i hrun
        exact h.withFolder (by rw [hrun]; rfl) (not_isLink_of_unmarked hgone)
          (sound_of_unmarked hgone) (by rw [hrun]; exact nofun) fun _ => hgone
      · cases hnext
  | evictStaged i name =>
      rw [State.next] at hnext
      split at hnext
      · rename_i hrun
        cases hnext
        exact h.withFolder (by rw [hrun]; rfl) h.link (h.sound.of_items h.link rfl)
          (by rw [hrun]; exact nofun) fun _ => h.evicted i hrun
      · cases hnext
  | evictExtract i path =>
      rw [State.next] at hnext
      split at hnext
      · rename_i hrun
        cases hnext
        exact h.withFolder (by rw [hrun]; rfl) h.link (h.sound.of_items h.link rfl)
          (by rw [hrun]; exact nofun) fun _ => h.evicted i hrun
      · cases hnext
  | leave i =>
      rw [State.next] at hnext
      split at hnext
      · rename_i hrun
        cases hnext
        exact h.release (by rw [hrun]; rfl) rfl nofun
      · cases hnext

end Inv

theorem reachable_inv {kind : Kind} {process : ℕ → ℕ} {s : State β}
    (hr : ((machine c kind process).restrict (Exclusive c)).Reachable s) :
    Inv c s := by
  refine hr.invariant (I := Inv c) ?_ ?_
  · rintro t ⟨hlock, hidle, hsound, hlink⟩
    refine ⟨hlink, hsound, ?_, ?_, ?_, ?_⟩
    · intro i j hi
      rw [hidle i] at hi
      cases hi
    · intro i
      rw [hlock, hidle i]
      exact ⟨nofun, nofun⟩
    · intro i asset work hwork
      rw [hidle i] at hwork
      cases hwork
    · intro i hremoving
      rw [hidle i] at hremoving
      cases hremoving
  · rintro t e t' h ⟨hexclusive, hnext⟩
    exact h.next hnext hexclusive

/-- In every run of installs into one folder, and of installs of its other versions,
with any downloads, failures, dropped futures and crashes, in which no install comes
in while the thread of a dropped one is at work and no archive has an entry named like
the marker: one thread at most unpacks at a time, and whenever the folder reads as
installed it holds all that the archive of its marker does, whole. -/
theorem installed_is_whole {kind : Kind} {process : ℕ → ℕ} {s : State β}
    (hr : ((machine c kind process).restrict (Exclusive c)).Reachable s) :
    (∀ i j, (s.runs i).unpacks = true → (s.runs j).unpacks = true → i = j) ∧
    ∀ marker, c.readMarker s.folder = some marker →
      marker.intact s.folder.items = true → Whole c s.folder.items marker := by
  have h := reachable_inv hr
  refine ⟨fun i j hi hj => h.alone i j ?_ ?_, h.sound⟩
  · cases hrun : s.runs i with
    | idle => rw [hrun] at hi; cases hi
    | _ => rfl
  · cases hrun : s.runs j with
    | idle => rw [hrun] at hj; cases hj
    | _ => rfl

/-! ## A dropped install and one that follows it -/

section Dropped

/-- Bytes that can be a marker. -/
abbrev Byte := Marker ⊕ ℕ

/-- The files of the one archive there is. -/
def twoFiles : Contents Byte :=
  ((∅ : Contents Byte).insert ["b"] (.file [.inr 2])).insert ["a"] (.file [.inr 1])

/-- A file of the name the marker's pending write has, beside another. -/
def ownFile : Contents Byte :=
  ((∅ : Contents Byte).insert [PENDING] (.file [.inr 2])).insert ["a"] (.file [.inr 1])

def oneArchive (contents : Contents Byte) : Setting Byte where
  digests := ⟨fun bytes => if bytes = [.inr 7] then "h" else "", fun _ => ""⟩
  json :=
    { encode := fun marker => [.inl marker]
      decode := fun bytes => match bytes with
        | [.inl marker] => some marker
        | _ => none
      decode_encode := fun _ => rfl }
  follow _ _ := none
  extracts archive := if archive = [.inr 7] then some contents else none
  os := "linux"

def archiveFile : RemoteFile := ⟨"cuda_linux_x64.7z", 1, .sha256 "h"⟩

def emptyState : State Byte := ⟨⟨∅, ∅, ∅⟩, none, fun _ => .idle, none⟩

/-- An install up to its extraction. -/
def entering (i : ℕ) : List (Event Byte) :=
  [.acquire i archiveFile, .check i, .download i (some [.inr 7]), .verified i]

/-- What follows the extraction, for the names that are moved in. -/
def placing (i : ℕ) (names : List String) : List (Event Byte) :=
  [.unpack i .extracted, .unpack i .unmark, .unpack i .emptied] ++
    names.map (fun name => .unpack i (.move name)) ++
    [.unpack i .moved, .unpack i .record, .unpack i .written, .unpack i .publish]

/-- An install that nothing comes between. -/
def undisturbed (names : List String) : List (Event Byte) :=
  entering 0 ++ [.unpack 0 .open, .unpack 0 .writeWhole, .unpack 0 .writeWhole] ++
    placing 0 names

/-- The first install is dropped, and its thread extracts both files. The second finds
the lock free and has removed one of them when the first lists what it moves in. -/
def overtaken : List (Event Byte) :=
  entering 0 ++ [.unpack 0 .open, .unpack 0 .writeWhole, .drop 0] ++ entering 1 ++
    [.unpack 0 .writeWhole, .unpack 1 (.unstage ["a"])] ++ placing 0 ["b"]

def replayed (contents : Contents Byte) (es : List (Event Byte)) :
    Option (State Byte) :=
  Machine.replay (fun s => State.next (oneArchive contents) .libraries id s)
    emptyState es

theorem emptyState_init (contents : Contents Byte) :
    (machine (oneArchive contents) .libraries id).init emptyState := by
  refine ⟨rfl, fun _ => rfl, ?_, rfl⟩
  exact sound_of_unmarked rfl

/-- What a folder reads as, if that is installed. -/
def installed (contents : Contents Byte) (s : State Byte) : Option Marker :=
  ((oneArchive contents).readMarker s.folder).filter fun marker =>
    marker.intact s.folder.items

theorem reachable_of_replayed {contents : Contents Byte} (es : List (Event Byte))
    {p : State Byte → Bool} (h : (replayed contents es).any p = true) :
    ∃ s, (machine (oneArchive contents) .libraries id).Reachable s ∧ p s = true := by
  obtain ⟨s, hs, hp⟩ := (Option.any_eq_true _ _).mp h
  exact ⟨s, ⟨_, Machine.run_of_replay (emptyState_init contents) hs⟩, hp⟩

theorem within_of_whole {contents items : Contents Byte} {marker : Marker}
    (h : Whole (oneArchive contents) items marker) : Within contents items := by
  obtain ⟨archive, contents', hash, _, _, hextracts, hwithin⟩ := h
  obtain ⟨_, heq⟩ := Option.ite_none_right_eq_some.mp hextracts
  obtain rfl := Option.some.inj heq
  exact hwithin

theorem ownsNothing_twoFiles {asset : RemoteFile} {folder : Folder Byte}
    {step : Step} : OwnsNothing (oneArchive twoFiles) asset folder step := by
  intro _ archive contents _ hextracts
  obtain ⟨_, heq⟩ := Option.ite_none_right_eq_some.mp hextracts
  obtain rfl := Option.some.inj heq
  exact ⟨by decide, by decide⟩

/-- The event takes the lock. -/
def Event.enters : Event Byte → Bool
  | .acquire _ _ | .evict _ => true
  | _ => false

theorem exclusive_twoFiles {t : State Byte} {e : Event Byte} (he : e.enters = false) :
    Exclusive (oneArchive twoFiles) t e := by
  cases e with
  | acquire i asset => cases he
  | evict i => cases he
  | unpack i step => exact fun asset work _ => ownsNothing_twoFiles
  | _ => exact trivial

/-- An install that has the folder to itself leaves both files there. -/
theorem installed_is_whole_undisturbed :
    ∃ s marker, installed twoFiles s = some marker ∧
      Whole (oneArchive twoFiles) s.folder.items marker := by
  have hreplayed : (replayed twoFiles (undisturbed ["a", "b"])).any
      (fun s => (installed twoFiles s).isSome) = true := by decide
  obtain ⟨s, hs, hinstalled⟩ := (Option.any_eq_true _ _).mp hreplayed
  obtain ⟨marker, hmarker⟩ := Option.isSome_iff_exists.mp hinstalled
  obtain ⟨hread, hintact⟩ := Option.filter_eq_some_iff.mp hmarker
  have hstart : ((machine (oneArchive twoFiles) .libraries id).restrict
      (Exclusive (oneArchive twoFiles))).Run [] emptyState :=
    .start (emptyState_init twoFiles)
  have hfree : Exclusive (oneArchive twoFiles) emptyState (.acquire 0 archiveFile) :=
    fun _ => rfl
  have hcons : undisturbed ["a", "b"] =
      .acquire 0 archiveFile :: (undisturbed ["a", "b"]).tail := rfl
  rw [replayed, hcons, Machine.replay_cons, Option.bind_eq_some_iff] at hs
  obtain ⟨t, ht, hs⟩ := hs
  have hentered := hstart.next ⟨hfree, ht⟩
  have hrest : ∀ e ∈ (undisturbed ["a", "b"]).tail, e.enters = false := by decide
  have hrun := hentered.replay_restrict hs fun e he _ =>
    exclusive_twoFiles (hrest e he)
  exact ⟨s, marker, hmarker, (installed_is_whole ⟨_, hrun⟩).2 marker hread hintact⟩

/-- A file that the archive holds is not where the folder reads as installed. -/
theorem not_whole_of_replayed {contents : Contents Byte} (es : List (Event Byte))
    (path : Path) (hpath : (contents.lookup path).isSome = true)
    (h : (replayed contents es).any (fun s => (installed contents s).isSome &&
      (s.folder.items.lookup path).isNone) = true) :
    ¬ ∀ s, (machine (oneArchive contents) .libraries id).Reachable s →
      ∀ marker, (oneArchive contents).readMarker s.folder = some marker →
        marker.intact s.folder.items = true →
        Whole (oneArchive contents) s.folder.items marker := by
  intro hwhole
  obtain ⟨s, hs, hp⟩ := reachable_of_replayed es h
  obtain ⟨hinstalled, hgone⟩ := (Bool.and_eq_true _ _).mp hp
  obtain ⟨marker, hmarker⟩ := Option.isSome_iff_exists.mp hinstalled
  obtain ⟨hread, hintact⟩ := Option.filter_eq_some_iff.mp hmarker
  obtain ⟨node, hnode⟩ := Option.isSome_iff_exists.mp hpath
  have hheld := within_of_whole (hwhole s hs marker hread hintact) path node hnode
  rw [hheld] at hgone
  cases hgone

/-- A dropped install and one that follows it unpack at once, and what is recorded is
not all that the archive holds. Neither is it where the archive has a file of the
pending marker's name. -/
theorem not_installed_is_whole :
    (¬ ∀ s, (machine (oneArchive twoFiles) .libraries id).Reachable s →
      ∀ i j, (s.runs i).unpacks = true → (s.runs j).unpacks = true → i = j) ∧
    (¬ ∀ s, (machine (oneArchive twoFiles) .libraries id).Reachable s →
      ∀ marker, (oneArchive twoFiles).readMarker s.folder = some marker →
        marker.intact s.folder.items = true →
        Whole (oneArchive twoFiles) s.folder.items marker) ∧
    ¬ ∀ s, (machine (oneArchive ownFile) .libraries id).Reachable s →
      ∀ marker, (oneArchive ownFile).readMarker s.folder = some marker →
        marker.intact s.folder.items = true →
        Whole (oneArchive ownFile) s.folder.items marker := by
  refine ⟨?_, ?_, ?_⟩
  · intro halone
    have hreplayed : (replayed twoFiles (overtaken.take 13)).any
        (fun s => (s.runs 0).unpacks && (s.runs 1).unpacks) = true := by decide
    obtain ⟨s, hs, hboth⟩ := reachable_of_replayed _ hreplayed
    obtain ⟨hfirst, hsecond⟩ := (Bool.and_eq_true _ _).mp hboth
    exact Nat.zero_ne_one (halone s hs 0 1 hfirst hsecond)
  · exact not_whole_of_replayed overtaken ["a"] (by decide) (by decide)
  · exact not_whole_of_replayed (undisturbed ["a", PENDING]) [PENDING] (by decide)
      (by decide)

end Dropped

end Ai

end RustSak
