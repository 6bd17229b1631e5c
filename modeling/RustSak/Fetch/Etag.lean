import RustSak.Fetch.Publish

/-!
# The tag of a partial

The machine never looks at a byte, so the bytes here carry where they came from: the
strong tag their response declared and, when that response went on from a partial,
the tag recorded for it. The sidecar is written before the first byte of a response
and says what both have to say; `Tagged` is that it says so of every byte that is
there by then or still to come.
-/

namespace RustSak

namespace Fetch

open Library

/-- Where a byte came from: the strong tag its response declared, and the tag
recorded for the bytes the response went on from, if it did. -/
structure Origin where
  tag : Option String
  under : Option String
  deriving DecidableEq

/-- The byte is of a response that declared the tag, or of one that declared none
and went on from bytes recorded under it. -/
def Origin.Bears (origin : Origin) (tag : String) : Prop :=
  origin.tag = some tag ∨ origin.tag = none ∧ origin.under = some tag

instance (origin : Origin) (tag : String) : Decidable (origin.Bears tag) :=
  inferInstanceAs (Decidable (_ ∨ _ ∧ _))

variable {γ : Type}

def originOf (offset : ℕ) (recorded : Option Sidecar)
    (response : Response (γ × Origin)) : Origin where
  tag := response.responseEtag
  under := if resumes offset response then recorded.bind Sidecar.etag else none

/-- The bytes of a response say where they came from. -/
def Labelled (_ : State (γ × Origin)) : Event (γ × Origin) → Prop
  | .answer _ offset recorded response =>
      ∀ byte ∈ response.body, byte.2 = originOf offset recorded response
  | _ => True

/-- The response goes on from the partial under another strong tag than the one
recorded for it. -/
def disputes {β : Type} (offset : ℕ) (recorded : Option Sidecar)
    (response : Response β) : Bool :=
  resumes offset response && response.contentRangeStart == some offset &&
    (response.responseEtag.isSome &&
      response.responseEtag != recorded.bind Sidecar.etag)

/-- No response has gone on from the partial under another strong tag since it was
created anew. The labels are the newest first. -/
def undisputed {β : Type} : List (Event β) → Bool
  | [] => true
  | .answer _ offset recorded response :: es =>
      (!response.isError && !resumes offset response) ||
        (!disputes offset recorded response && undisputed es)
  | _ :: es => undisputed es

/-- The sidecar's tag is borne by every byte of the partial. -/
def TagsPart (disk : Disk (γ × Origin)) : Prop :=
  ∀ sidecar tag part, disk.sidecar.read = some sidecar → sidecar.etag = some tag →
    disk.part = some part → ∀ byte ∈ part, byte.2.Bears tag

/-- The sidecar of a transfer holds of what it finds, what it has buffered and what
is to come. -/
structure Tagged (args : Args) (x : Transfer (γ × Origin))
    (disk : Disk (γ × Origin)) : Prop where
  part : ∀ tag part, (x.sidecar args).etag = some tag → disk.part = some part →
    ∀ byte ∈ part, byte.2.Bears tag
  buffer : ∀ tag, (x.sidecar args).etag = some tag →
    ∀ byte ∈ x.buffer, byte.2.Bears tag
  body : ∀ tag, (x.sidecar args).etag = some tag →
    ∀ byte ∈ x.response.body, byte.2.Bears tag

/-- What holds of the tags, by where the run is. -/
def Tags (disk : Disk (γ × Origin)) : Phase (γ × Origin) → Prop
  | .asked _ offset recorded => 0 < offset → recorded = disk.sidecar.read
  | .opened args x => Tagged args x disk
  | .recording args x => Tagged args x disk
  | .streaming args x => disk.sidecar = .recorded (x.sidecar args) ∧
      Tagged args x disk
  | _ => True

structure Provenance (s : State (γ × Origin)) : Prop where
  tagsPart : TagsPart s.disk
  tags : Tags s.disk s.phase

theorem TagsPart.of_part_none {disk : Disk (γ × Origin)} (h : disk.part = none) :
    TagsPart disk := by
  intro sidecar tag part _ _ hpart
  cases h.symm.trans hpart

theorem TagsPart.of_part_nil {disk : Disk (γ × Origin)} (h : disk.part = some []) :
    TagsPart disk := by
  intro sidecar tag part _ _ hpart
  obtain rfl := Option.some.inj (h.symm.trans hpart)
  exact fun _ hbyte => absurd hbyte List.not_mem_nil

theorem TagsPart.of_sidecar {disk : Disk (γ × Origin)}
    (h : disk.sidecar.read = none) : TagsPart disk := by
  intro sidecar tag part hsidecar
  cases h.symm.trans hsidecar

/-- With the transfer's own sidecar beside it, the partial is tagged. -/
theorem Tagged.tagsPart {args : Args} {x : Transfer (γ × Origin)}
    {disk : Disk (γ × Origin)} (h : Tagged args x disk)
    (hsidecar : disk.sidecar = .recorded (x.sidecar args)) : TagsPart disk := by
  intro sidecar tag part hread htag hpart
  rw [hsidecar] at hread
  obtain rfl := Option.some.inj hread
  exact h.part tag part htag hpart

theorem Tagged.withSidecar {args : Args} {x : Transfer (γ × Origin)}
    {disk : Disk (γ × Origin)} (h : Tagged args x disk) (sidecar : SidecarFile) :
    Tagged args x (disk.withSidecar sidecar) := ⟨h.part, h.buffer, h.body⟩

/-- What comes in is of the response's body. -/
theorem Tagged.chunk {args : Args} {x : Transfer (γ × Origin)}
    {disk : Disk (γ × Origin)} {bytes : List (γ × Origin)} (h : Tagged args x disk)
    (hbytes : x.received ++ bytes <+: x.response.body) :
    Tagged args { x with
      received := x.received ++ bytes
      buffer := x.buffer ++ bytes
      hasher := x.hasher.map (· ++ bytes) } disk where
  part := h.part
  buffer tag htag byte hbyte := by
    rcases List.mem_append.mp hbyte with hbyte | hbyte
    · exact h.buffer tag htag byte hbyte
    · have hmem : byte ∈ x.received ++ bytes := List.mem_append_right _ hbyte
      exact h.body tag htag byte (hbytes.subset hmem)
  body := h.body

theorem Tagged.spill {args : Args} {x : Transfer (γ × Origin)}
    {disk : Disk (γ × Origin)} (h : Tagged args x disk) (n : ℕ) :
    Tagged args { x with buffer := x.buffer.drop n }
      (disk.withPart (disk.part.map (· ++ x.buffer.take n))) where
  part tag part htag hpart := by
    obtain ⟨before, hbefore, rfl⟩ := Option.map_eq_some_iff.mp hpart
    intro byte hbyte
    rcases List.mem_append.mp hbyte with hbyte | hbyte
    · exact h.part tag before htag hbefore byte hbyte
    · exact h.buffer tag htag byte (List.mem_of_mem_take hbyte)
  buffer tag htag byte hbyte := h.buffer tag htag byte (List.mem_of_mem_drop hbyte)
  body := h.body

section Steps

variable {s : State (γ × Origin)}

theorem Provenance.goto (h : Provenance s) {phase : Phase (γ × Origin)}
    (htags : Tags s.disk phase) : Provenance (s.goto phase) := ⟨h.tagsPart, htags⟩

theorem Provenance.forget (h : Provenance s) : Provenance s.forget :=
  ⟨h.tagsPart, h.tags⟩

theorem Provenance.promote (h : Provenance s) {args : Args} {offset : ℕ} :
    Provenance (s.promote args offset) := by
  unfold State.promote
  split
  · exact h.forget.goto trivial
  · exact h.goto trivial

/-- A transfer that starts over has only its own response to speak for. -/
theorem provenance_fresh {args : Args} {offset : ℕ} {recorded : Option Sidecar}
    {response : Response (γ × Origin)}
    (hlabelled : ∀ byte ∈ response.body,
      byte.2 = originOf offset recorded response) :
    Provenance (s.createPart args recorded response) := by
  refine ⟨.of_part_nil rfl, ?_, ?_, ?_⟩
  · intro tag part _ hpart
    obtain rfl := Option.some.inj hpart
    exact fun _ hbyte => absurd hbyte List.not_mem_nil
  · exact fun _ _ _ hbyte => absurd hbyte List.not_mem_nil
  · intro tag htag byte hbyte
    have htag' : response.responseEtag.or none = some tag := htag
    rw [Option.or_none] at htag'
    rw [hlabelled byte hbyte]
    exact .inl htag'

/-- A transfer that goes on from a partial, without a tag or under the one recorded,
speaks for both. -/
theorem tagged_resumed (h : TagsPart s.disk) {args : Args} {offset : ℕ}
    {recorded : Option Sidecar} {response : Response (γ × Origin)}
    {hasher : Option (List (γ × Origin))} (hread : recorded = s.disk.sidecar.read)
    (hresumes : resumes offset response = true)
    (hstart : response.contentRangeStart = some offset)
    (hundisputed : disputes offset recorded response = false)
    (hlabelled : ∀ byte ∈ response.body,
      byte.2 = originOf offset recorded response) :
    Tagged args ⟨response, recorded, true, offset, [], [], hasher⟩ s.disk := by
  have hagrees : response.responseEtag = none ∨
      response.responseEtag = recorded.bind Sidecar.etag := by
    rw [disputes, hresumes, hstart, beq_self_eq_true, Bool.and_self, Bool.true_and,
      Bool.and_eq_false_iff] at hundisputed
    rcases hundisputed with hnone | hsame
    · exact .inl (Option.isNone_iff_eq_none.mp (Option.isSome_eq_false_iff.mp hnone))
    · exact .inr (bne_eq_false_iff_eq.mp hsame)
  -- the tag that goes into the sidecar is the recorded one either way
  have hrecorded : ∀ tag, response.responseEtag.or (recorded.bind Sidecar.etag) =
      some tag → recorded.bind Sidecar.etag = some tag := by
    intro tag htag
    rcases hagrees with hnone | hsame
    · rwa [hnone, Option.none_or] at htag
    · rwa [hsame, Option.or_self] at htag
  refine ⟨?_, ?_, ?_⟩
  · intro tag part htag hpart
    obtain ⟨sidecar, hsidecar, hetag⟩ :=
      Option.bind_eq_some_iff.mp (hrecorded tag htag)
    exact h sidecar tag part (hread ▸ hsidecar) hetag hpart
  · exact fun _ _ _ hbyte => absurd hbyte List.not_mem_nil
  · intro tag htag byte hbyte
    rw [hlabelled byte hbyte]
    rcases hagrees with hnone | hsame
    · refine .inr ⟨hnone, ?_⟩
      rw [originOf, if_pos hresumes]
      exact hrecorded tag htag
    · exact .inl (hsame.trans (hrecorded tag htag))

/-- A response that goes on from the partial does so undisputed, and any other
starts over. -/
theorem Provenance.answer (h : Provenance s) {args : Args} {offset : ℕ}
    {recorded : Option Sidecar} {response : Response (γ × Origin)}
    (hphase : s.phase = .asked args offset recorded)
    (hlabelled : ∀ byte ∈ response.body, byte.2 = originOf offset recorded response)
    (hundisputed : disputes offset recorded response = false) :
    Provenance (answered s args offset recorded response) := by
  have htags := h.tags
  rw [hphase] at htags
  unfold answered
  split
  · split
    · exact h.goto trivial
    · exact h.promote
  · split
    · exact h.goto trivial
    · split
      · rename_i hresumes
        split
        · rename_i hstart
          have hoffset : 0 < offset := by
            rw [resumes, Bool.and_eq_true, decide_eq_true_eq] at hresumes
            exact hresumes.1
          have htagged : ∀ hasher, Tagged args
              ⟨response, recorded, true, offset, [], [], hasher⟩ s.disk := fun _ =>
            tagged_resumed h.tagsPart (htags hoffset) hresumes hstart hundisputed
              hlabelled
          unfold State.append
          split
          · exact h.forget.goto (htagged _)
          · exact h.goto (htagged _)
        · exact ⟨.of_part_nil rfl, trivial⟩
      · exact provenance_fresh hlabelled

/-- A success that does not go on from the partial creates it anew, whatever went
before. -/
theorem provenance_created {args : Args} {offset : ℕ} {recorded : Option Sidecar}
    {response : Response (γ × Origin)}
    (hlabelled : ∀ byte ∈ response.body, byte.2 = originOf offset recorded response)
    (hsuccess : response.isError = false)
    (hfresh : resumes offset response = false) :
    Provenance (answered s args offset recorded response) := by
  have hsatisfied : ¬ (0 < offset ∧ response.status = 416) := by
    rintro ⟨_, hstatus⟩
    rw [Response.isError, hstatus] at hsuccess
    cases hsuccess
  rw [answered, if_neg hsatisfied, hsuccess, hfresh]
  exact provenance_fresh hlabelled

theorem Provenance.next {e : Event (γ × Origin)} (h : Provenance s)
    (he : Enabled s e) (hlabelled : Labelled s e)
    (hundisputed : ∀ args offset recorded response,
      e = .answer args offset recorded response →
        disputes offset recorded response = false) : Provenance (next s e) := by
  have htags := h.tags
  cases e with
  | start args =>
      rw [Fetch.next]
      split
      · exact h
      · exact h.forget.goto trivial
  | reconcile args =>
      rw [Fetch.next]
      split
      · exact h.goto trivial
      · exact h.goto trivial
  | removePart args failing => exact ⟨.of_part_none rfl, trivial⟩
  | removeSidecar args failing =>
      cases failing with
      | true => exact ⟨.of_sidecar rfl, trivial⟩
      | false => exact ⟨.of_sidecar rfl, trivial⟩
  | ask args => exact h.goto fun hoffset => if_pos hoffset
  | answer args offset recorded response =>
      exact h.answer he hlabelled (hundisputed _ _ _ _ rfl)
  | truncateSidecar args x =>
      rw [show s.phase = _ from he] at htags
      exact ⟨.of_sidecar rfl, Tagged.withSidecar htags _⟩
  | writeSidecar args x =>
      rw [show s.phase = _ from he] at htags
      have htagged := Tagged.withSidecar htags (.recorded (x.sidecar args))
      exact ⟨htagged.tagsPart rfl, rfl, htagged⟩
  | chunk args x bytes =>
      rw [he.1] at htags
      exact h.goto ⟨htags.1, htags.2.chunk he.2⟩
  | spill args x n =>
      rw [show s.phase = _ from he] at htags
      have hspilled := htags.2.spill n
      exact ⟨hspilled.tagsPart htags.1, htags.1, hspilled⟩
  | mark args x => exact ⟨h.tagsPart, h.tags⟩
  | finish args x => exact h.goto trivial
  | unlinkSidecar args digest => exact ⟨.of_sidecar rfl, trivial⟩
  | rename args digest => exact ⟨.of_part_none rfl, trivial⟩
  | failCreate args offset recorded => exact h.forget.goto trivial
  | fail args => exact h.goto trivial
  | retry args => exact h.goto trivial
  | stop => exact h.goto trivial

end Steps

/-- A step that disputes nothing needs nothing disputed before it. -/
theorem undisputed_of_cons {β : Type} {e : Event β} {es : List (Event β)}
    (he : ∀ args offset recorded response,
      e ≠ .answer args offset recorded response)
    (h : undisputed (e :: es) = true) : undisputed es = true := by
  cases e with
  | answer args offset recorded response => exact absurd rfl (he _ _ _ _)
  | _ => exact h

theorem run_provenance {target : Option (List (γ × Origin))}
    {es : List (Event (γ × Origin))} {s : State (γ × Origin)}
    (hr : ((machine target).restrict Labelled).Run es s) :
    undisputed es = true → Provenance s := by
  refine hr.invariant (I := fun es s => undisputed es = true → Provenance s) ?_ ?_
  · rintro t ⟨hphase, _, hsidecar⟩ _
    refine ⟨.of_sidecar hsidecar, ?_⟩
    rw [hphase]
    trivial
  · rintro es e t _ _ ih ⟨hlabelled, he, rfl⟩ hundisputed
    by_cases hanswer : ∃ args offset recorded response,
        e = .answer args offset recorded response
    · obtain ⟨args, offset, recorded, response, rfl⟩ := hanswer
      rw [undisputed, Bool.or_eq_true, Bool.and_eq_true, Bool.and_eq_true,
        Bool.not_eq_true', Bool.not_eq_true', Bool.not_eq_true'] at hundisputed
      rcases hundisputed with ⟨hsuccess, hfresh⟩ | ⟨hagrees, hrest⟩
      · exact provenance_created hlabelled hsuccess hfresh
      · refine (ih hrest).next he hlabelled ?_
        intro args' offset' recorded' response' heq
        cases heq
        exact hagrees
    · have hother : ∀ args offset recorded response,
          e ≠ .answer args offset recorded response := by
        intro args offset recorded response heq
        exact hanswer ⟨args, offset, recorded, response, heq⟩
      refine (ih (undisputed_of_cons hother hundisputed)).next he hlabelled ?_
      intro args offset recorded response heq
      exact absurd heq (hother args offset recorded response)

/-- In every run of downloads against one target, with any server and any crashes:
when a sidecar on disk records a strong tag, and no response has gone on from the
partial under another strong tag since the partial was created, every byte of the
partial came from a response that declared the tag, or from one that declared none
and went on from bytes recorded under it. -/
theorem sidecar_tags_part {target : Option (List (γ × Origin))}
    {es : List (Event (γ × Origin))} {s : State (γ × Origin)}
    (hr : ((machine target).restrict Labelled).Run es s)
    (hundisputed : undisputed es = true) {sidecar : Sidecar} {tag : String}
    {part : List (γ × Origin)} (hread : s.disk.sidecar.read = some sidecar)
    (htag : sidecar.etag = some tag) (hpart : s.disk.part = some part) :
    ∀ byte ∈ part, byte.2.Bears tag :=
  (run_provenance hr hundisputed).tagsPart sidecar tag part hread htag hpart

/-! ## One byte from a second response -/

section Continued

/-- Three bytes, their tag declared. -/
def threeBytes : Response (ℕ × Origin) where
  status := 200
  etag := some "e"
  lastModified := none
  contentRange := none
  contentLength := some 3
  body := [(1, ⟨some "e", none⟩), (2, ⟨some "e", none⟩), (3, ⟨some "e", none⟩)]
  representation := []

/-- The last of them, under a tag of the server's choice. -/
def lastByte (tag : Option String) : Response (ℕ × Origin) where
  status := 206
  etag := tag
  lastModified := none
  contentRange := some "bytes 2-2/3"
  contentLength := some 1
  body := [(3, ⟨tag, some "e"⟩)]
  representation := []

def twoBytes : List (ℕ × Origin) := [(1, ⟨some "e", none⟩), (2, ⟨some "e", none⟩)]

/-- Two bytes arrive and are flushed with their hash before the stream breaks, and one
by the second attempt. -/
def continued (tag : Option String) : List (Event (ℕ × Origin)) :=
  let x : Transfer (ℕ × Origin) := ⟨threeBytes, none, false, 0, [], [], some []⟩
  let y : Transfer (ℕ × Origin) :=
    ⟨lastByte tag, some (x.sidecar caller), true, 2, [], [], some twoBytes⟩
  [.start caller, .reconcile caller, .removePart caller false,
    .removeSidecar caller false, .ask caller, .answer caller 0 none threeBytes,
    .truncateSidecar caller x, .writeSidecar caller x, .chunk caller x twoBytes,
    .spill caller { x with received := twoBytes, buffer := twoBytes, hasher := some twoBytes } 2,
    .mark caller { x with received := twoBytes, hasher := some twoBytes }, .fail caller,
    .retry caller, .ask caller,
    .answer caller 2 y.recorded (lastByte tag), .truncateSidecar caller y,
    .writeSidecar caller y, .chunk caller y (lastByte tag).body,
    .spill caller { y with
      received := (lastByte tag).body
      buffer := (lastByte tag).body
      hasher := some (twoBytes ++ (lastByte tag).body) } 1]

def afterContinued (tag : Option String) : State (ℕ × Origin) :=
  (continued tag).foldl next ⟨⟨none, none, .absent⟩, .idle, none⟩

theorem labelled_threeBytes :
    ∀ byte ∈ threeBytes.body, byte.2 = originOf 0 none threeBytes := by decide

theorem run_continued {tag : Option String}
    (hlegal : Machine.Legal Enabled next ⟨⟨none, none, .absent⟩, .idle, none⟩
      (continued tag))
    (hlast : ∀ byte ∈ (lastByte tag).body, byte.2 = originOf 2
      (some (Transfer.sidecar ⟨threeBytes, none, false, 0, [], [], some []⟩ caller))
      (lastByte tag)) :
    ((machine none).restrict Labelled).Run (continued tag).reverse
      (afterContinued tag) := by
  have hrun := Machine.Run.legal (.start ⟨rfl, rfl, rfl⟩ :
    (machine none).Run [] (⟨⟨none, none, .absent⟩, .idle, none⟩ :
      State (ℕ × Origin))) hlegal
  rw [List.append_nil] at hrun
  refine hrun.restrict fun e he t => ?_
  rw [List.mem_reverse] at he
  revert e
  simp only [continued, List.forall_mem_cons]
  refine ⟨trivial, trivial, trivial, trivial, trivial, labelled_threeBytes, trivial,
    trivial, trivial, trivial, trivial, trivial, trivial, trivial, hlast, trivial, trivial,
    trivial, trivial, fun e he => absurd he List.not_mem_nil⟩

/-- The second response declares no tag. -/
theorem sidecar_tags_part_carried :
    (afterContinued none).disk.part = some (twoBytes ++ [(3, ⟨none, some "e"⟩)]) ∧
      ∀ byte ∈ twoBytes ++ [(3, ⟨none, some "e"⟩)], byte.2.Bears "e" := by
  have hrun := run_continued (by decide : Machine.Legal Enabled next
    ⟨⟨none, none, .absent⟩, .idle, none⟩ (continued none)) (by decide)
  have hread : (afterContinued none).disk.sidecar.read =
      some ⟨"u", some "e", none, some 3, none⟩ := by decide
  exact ⟨by decide, sidecar_tags_part hrun (by decide) hread rfl (by decide)⟩

/-- The tag of a sidecar is not declared by every response that gave bytes: one may
go on from the partial without a tag, and under another one. -/
theorem sidecar_tag_not_declared :
    (¬ ∀ (es : List (Event (ℕ × Origin))) (s : State (ℕ × Origin)),
      ((machine none).restrict Labelled).Run es s → undisputed es = true →
      ∀ sidecar tag part, s.disk.sidecar.read = some sidecar →
        sidecar.etag = some tag → s.disk.part = some part →
        ∀ byte ∈ part, byte.2.tag = some tag) ∧
    ¬ ∀ (es : List (Event (ℕ × Origin))) (s : State (ℕ × Origin)),
      ((machine none).restrict Labelled).Run es s →
      ∀ sidecar tag part, s.disk.sidecar.read = some sidecar →
        sidecar.etag = some tag → s.disk.part = some part →
        ∀ byte ∈ part, byte.2.Bears tag := by
  refine ⟨fun h => ?_, fun h => ?_⟩
  · have hrun := run_continued (by decide : Machine.Legal Enabled next
      ⟨⟨none, none, .absent⟩, .idle, none⟩ (continued none)) (by decide)
    have hlast := h _ _ hrun (by decide) _ "e" _ rfl (by decide) rfl
      (3, ⟨none, some "e"⟩) (by decide)
    exact absurd hlast (by decide)
  · have hrun := run_continued (by decide : Machine.Legal Enabled next
      ⟨⟨none, none, .absent⟩, .idle, none⟩ (continued (some "f"))) (by decide)
    have hfirst := h _ _ hrun _ "f" _ rfl (by decide) rfl
      (1, ⟨some "e", none⟩) (by decide)
    exact absurd hfirst (by decide)

end Continued

end Fetch

end RustSak
