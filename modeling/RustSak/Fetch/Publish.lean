import RustSak.Fetch.Download

/-!
# What is published

A file that appears at the target is the partial as it was when its transfer
ended, so it is whole exactly when the partial was. `Vouches` is what keeps a
partial resumable: the strong tag in its sidecar is the tag of a representation
the partial is a prefix of. It survives every step, whichever file a run has
stopped between. A partial that a response goes on from is then a prefix of that
response's representation, and what remains to be asked of the response is that it
reaches the end.
-/

namespace RustSak

namespace Fetch

open Library

variable {β : Type}

/-- A strong tag was recorded for the partial, from the same URL. -/
def Vouched (args : Args) (recorded : Option Sidecar) : Prop :=
  ∃ sidecar tag, recorded = some sidecar ∧ sidecar.etag = some tag ∧
    sidecar.url = args.identity.url

/-- The bytes a success is written after. -/
def base (s : State β) (offset : ℕ) (response : Response β) : List β :=
  if resumes offset response then s.disk.part.getD [] else []

/-- What publishing a whole representation takes of the responses:

* a partial without a recorded strong tag, or any other success than a `200` or a
  resumed `206`, is only gone on from where the bytes are of one representation;
* a `416` is only taken for the end where the representation ends there;
* a response other than a `200` ends where its representation ends. -/
def Reaches (s : State β) : Event β → Prop
  | .answer args offset recorded response =>
      if 0 < offset ∧ response.status = 416 then
        disowns offset recorded response = false →
          response.representation.length ≤ offset ∧
          (Vouched args recorded ∨
            s.disk.part.getD [] <+: response.representation)
      else
        response.isError = false →
        (resumes offset response = true →
          response.contentRangeStart = some offset) →
          response.status = 200 ∨
          (resumes offset response = true ∧ Vouched args recorded) ∨
          base s offset response ++ response.body <+: response.representation
  | .finish _ x =>
      x.response.status = 200 ∨
        x.start + x.response.body.length = x.response.representation.length
  | _ => True

section Invariant

variable (represents : String → String → List β)

/-- The partial is a prefix of what the strong tag in its sidecar stands for. -/
def Vouches (disk : Disk β) : Prop :=
  ∀ sidecar tag part, disk.sidecar = .recorded sidecar → sidecar.etag = some tag →
    disk.part = some part → part <+: represents sidecar.url tag

/-- A transfer under way: the partial and the buffer are what was there and what
has come in, and with the rest of the body they are of one representation. -/
structure Carries (seen : List (List β)) (args : Args) (x : Transfer β)
    (part : List β) : Prop where
  written : ∃ before, before.length = x.start ∧
    part ++ x.buffer = before ++ x.received ∧
    before ++ x.response.body <+: x.response.representation
  received : x.received <+: x.response.body
  served : x.response.representation ∈ seen
  whole : x.response.status = 200 →
    x.start + x.response.body.length = x.response.representation.length
  tag : ∀ tag, (x.sidecar args).etag = some tag →
    x.response.representation = represents args.identity.url tag

/-- What holds of the files, by where the run is. -/
def Holds (seen : List (List β)) (disk : Disk β) : Phase β → Prop
  | .asked _ offset recorded => 0 < offset → recorded = disk.sidecar.read ∧
      ∃ part, disk.part = some part ∧ part.length = offset
  | .opened args x =>
      ∃ part, disk.part = some part ∧ Carries represents seen args x part
  | .recording args x =>
      ∃ part, disk.part = some part ∧ Carries represents seen args x part
  | .streaming args x => disk.sidecar = .recorded (x.sidecar args) ∧
      ∃ part, disk.part = some part ∧ Carries represents seen args x part
  | .promoting _ _ _ => ∃ part, disk.part = some part ∧ part ∈ seen
  | _ => True

structure Inv (target : Option (List β)) (seen : List (List β)) (s : State β) :
    Prop where
  target : s.disk.target = target ∨ ∃ file ∈ seen, s.disk.target = some file
  vouches : Vouches represents s.disk
  holds : Holds represents seen s.disk s.phase

end Invariant

variable {represents : String → String → List β}

theorem Vouches.of_part_none {disk : Disk β} (h : disk.part = none) :
    Vouches represents disk := by
  intro sidecar tag part _ _ hpart
  cases h.symm.trans hpart

theorem Vouches.of_part_nil {disk : Disk β} (h : disk.part = some []) :
    Vouches represents disk := by
  intro sidecar tag part _ _ hpart
  obtain rfl := Option.some.inj (h.symm.trans hpart)
  exact List.nil_prefix

theorem Vouches.of_sidecar {disk : Disk β} (h : disk.sidecar.read = none) :
    Vouches represents disk := by
  intro sidecar tag part hsidecar
  rw [hsidecar] at h
  cases h

/-- All that is on disk in a transfer is of its representation. -/
theorem Carries.isPrefix {seen : List (List β)} {args : Args} {x : Transfer β}
    {part : List β} (h : Carries represents seen args x part) :
    part <+: x.response.representation := by
  obtain ⟨before, _, hwritten, hpre⟩ := h.written
  have hreceived : before ++ x.received <+: before ++ x.response.body :=
    (List.prefix_append_right_inj before).mpr h.received
  have hpart : part <+: before ++ x.received := by
    rw [← hwritten]
    exact List.prefix_append part x.buffer
  exact hpart.trans (hreceived.trans hpre)

/-- With the transfer's own sidecar beside it, the partial is vouched for. -/
theorem Carries.vouches {seen : List (List β)} {args : Args} {x : Transfer β}
    {part : List β} {disk : Disk β} (h : Carries represents seen args x part)
    (hsidecar : disk.sidecar = .recorded (x.sidecar args))
    (hpart : disk.part = some part) : Vouches represents disk := by
  intro sidecar tag part' hsidecar' htag hpart'
  obtain rfl := SidecarFile.recorded.inj (hsidecar.symm.trans hsidecar')
  obtain rfl := Option.some.inj (hpart.symm.trans hpart')
  exact h.tag tag htag ▸ h.isPrefix

theorem Carries.mono {seen seen' : List (List β)} {args : Args} {x : Transfer β}
    {part : List β} (h : Carries represents seen args x part)
    (hseen : seen ⊆ seen') : Carries represents seen' args x part where
  written := h.written
  received := h.received
  served := hseen h.served
  whole := h.whole
  tag := h.tag

/-- Goes on from a prefix of a representation with the range that starts there. -/
theorem append_range_prefix {before whole : List β} {n : ℕ}
    (h : before <+: whole) :
    before ++ (whole.drop before.length).take n <+: whole := by
  obtain ⟨rest, rfl⟩ := h
  rw [List.drop_left]
  exact (List.prefix_append_right_inj before).mpr (List.take_prefix n rest)

theorem Holds.mono {seen seen' : List (List β)} {disk : Disk β} {phase : Phase β}
    (h : Holds represents seen disk phase) (hseen : seen ⊆ seen') :
    Holds represents seen' disk phase := by
  cases phase with
  | opened args x =>
      obtain ⟨part, hpart, hcarries⟩ := h
      exact ⟨part, hpart, hcarries.mono hseen⟩
  | recording args x =>
      obtain ⟨part, hpart, hcarries⟩ := h
      exact ⟨part, hpart, hcarries.mono hseen⟩
  | streaming args x =>
      obtain ⟨hsidecar, part, hpart, hcarries⟩ := h
      exact ⟨hsidecar, part, hpart, hcarries.mono hseen⟩
  | promoting args digest sidecarGone =>
      obtain ⟨part, hpart, hmem⟩ := h
      exact ⟨part, hpart, hseen hmem⟩
  | asked args offset recorded => exact h
  | _ => trivial

section Steps

variable {target : Option (List β)} {seen : List (List β)} {s : State β}

/-- The run moves on and leaves the files as they are. -/
theorem Inv.goto (h : Inv represents target seen s) {phase : Phase β}
    (hholds : Holds represents seen s.disk phase) :
    Inv represents target seen (s.goto phase) :=
  ⟨h.target, h.vouches, hholds⟩

/-- The run moves on with another partial or another sidecar. -/
theorem Inv.update (h : Inv represents target seen s) {disk : Disk β}
    {phase : Phase β} (htarget : disk.target = s.disk.target)
    (hvouches : Vouches represents disk) (hholds : Holds represents seen disk phase) :
    Inv represents target seen ((s.withDisk disk).goto phase) := by
  refine ⟨?_, hvouches, hholds⟩
  change disk.target = target ∨ ∃ file ∈ seen, disk.target = some file
  rw [htarget]
  exact h.target

/-- The partial is created anew. -/
theorem Inv.restart (h : Inv represents target seen s) {phase : Phase β}
    (hholds : Holds represents seen (s.disk.withPart (some [])) phase) :
    Inv represents target seen
      (((s.withDisk (s.disk.withPart (some []))).forget).goto phase) :=
  ⟨h.target, .of_part_nil rfl, hholds⟩

theorem Inv.forget (h : Inv represents target seen s) :
    Inv represents target seen s.forget := ⟨h.target, h.vouches, h.holds⟩

/-- With a strong tag recorded for it, the partial is of the representation the
server answers from. -/
theorem vouched_prefix (h : Vouches represents s.disk) {args : Args} {offset : ℕ}
    {recorded : Option Sidecar} {response : Response β} {part : List β}
    (hoffset : 0 < offset) (hread : recorded = s.disk.sidecar.read)
    (hpart : s.disk.part = some part) (hvouched : Vouched args recorded)
    (hstatus : response.status = 206 ∨ response.status = 416)
    (hserver : Truthful represents args.identity.url (request offset recorded)
      response) : part <+: response.representation := by
  obtain ⟨sidecar, tag, rfl, htag, hurl⟩ := hvouched
  have hsidecar : s.disk.sidecar = .recorded sidecar := by
    cases hs : s.disk.sidecar with
    | recorded sidecar' =>
        rw [hs] at hread
        rw [Option.some.inj hread]
    | absent => rw [hs] at hread; cases hread
    | unreadable => rw [hs] at hread; cases hread
  have hifRange : (request offset (some sidecar)).ifRange = some (.etag tag) := by
    simp [request, hoffset, Sidecar.validator, htag]
  rw [hserver.ifRange hstatus tag hifRange, ← hurl]
  exact h sidecar tag part hsidecar htag hpart

/-- A `416` that is taken for the end finds the partial whole. -/
theorem Inv.promote (h : Inv represents target seen s) {args : Args} {offset : ℕ}
    (hmem : ∃ part, s.disk.part = some part ∧ part ∈ seen) :
    Inv represents target seen (s.promote args offset) := by
  unfold State.promote
  split
  · exact h.forget.goto hmem
  · exact h.goto hmem

/-- A transfer that appends to the partial. -/
theorem carries_append {args : Args} {offset : ℕ} {recorded : Option Sidecar}
    {response : Response β} {part : List β} {hasher : Option (List β)}
    (hoffset : 0 < offset) (hlength : part.length = offset)
    (hstatus : response.status = 206)
    (hpre : part ++ response.body <+: response.representation)
    (hserver : Truthful represents args.identity.url (request offset recorded)
      response) :
    Carries represents (response.representation :: seen) args
      ⟨response, recorded, true, offset, [], [], hasher⟩ part where
  written := ⟨part, hlength, rfl, hpre⟩
  received := List.nil_prefix
  served := List.mem_cons_self
  whole hwhole := by cases hstatus.symm.trans hwhole
  tag tag htag := by
    have htag' : response.responseEtag.or (recorded.bind Sidecar.etag) =
        some tag := htag
    cases hresponse : response.responseEtag with
    | some tag' =>
        rw [hresponse, Option.some_or, Option.some.injEq] at htag'
        subst htag'
        exact hserver.strong tag' hresponse
    | none =>
        rw [hresponse, Option.none_or, Option.bind_eq_some_iff] at htag'
        obtain ⟨sidecar, rfl, hsidecar⟩ := htag'
        refine hserver.ifRange (.inl hstatus) tag ?_
        simp [request, hoffset, Sidecar.validator, hsidecar]

/-- A transfer that starts over. -/
theorem carries_fresh {args : Args} {offset : ℕ} {recorded : Option Sidecar}
    {response : Response β} {hasher : Option (List β)}
    (hpre : response.status = 200 ∨ response.body <+: response.representation)
    (hserver : Truthful represents args.identity.url (request offset recorded)
      response) :
    Carries represents (response.representation :: seen) args
      ⟨response, recorded, false, 0, [], [], hasher⟩ [] where
  written := by
    refine ⟨[], rfl, rfl, ?_⟩
    rcases hpre with hstatus | hpre
    · rw [List.nil_append, hserver.whole hstatus]
    · exact hpre
  received := List.nil_prefix
  served := List.mem_cons_self
  whole hstatus := by
    change 0 + response.body.length = _
    rw [hserver.whole hstatus, Nat.zero_add]
  tag tag htag := by
    have htag' : response.responseEtag.or none = some tag := htag
    rw [Option.or_none] at htag'
    exact hserver.strong tag htag'

/-- A `206` from the right byte continues the partial within one
representation. -/
theorem resumed_prefix (h : Vouches represents s.disk) {args : Args} {offset : ℕ}
    {recorded : Option Sidecar} {response : Response β} {part : List β}
    (hoffset : 0 < offset) (hread : recorded = s.disk.sidecar.read)
    (hpart : s.disk.part = some part) (hlength : part.length = offset)
    (hstatus : response.status = 206)
    (hstart : response.contentRangeStart = some offset)
    (hserver : Truthful represents args.identity.url (request offset recorded)
      response)
    (hreaches : Vouched args recorded ∨
      part ++ response.body <+: response.representation) :
    part ++ response.body <+: response.representation := by
  rcases hreaches with hvouched | hpre
  · have hof := vouched_prefix h hoffset hread hpart hvouched (.inl hstatus)
      hserver
    obtain ⟨text, first, last, htext, hnames, _, _, hbody⟩ := hserver.range hstatus
    have hfirst : part.length = first :=
      hlength.trans (contentRangeStart_of_names htext hnames hstart)
    rw [hbody, ← hfirst]
    exact append_range_prefix hof
  · exact hpre

/-- A response is taken so that what is written from then on is of one
representation. -/
theorem Inv.answer (h : Inv represents target seen s) {args : Args} {offset : ℕ}
    {recorded : Option Sidecar} {response : Response β}
    (hphase : s.phase = .asked args offset recorded)
    (hserver : Truthful represents args.identity.url (request offset recorded)
      response)
    (hreaches : Reaches s (.answer args offset recorded response)) :
    Inv represents target (response.representation :: seen)
      (answered s args offset recorded response) := by
  have hholds := h.holds
  rw [hphase] at hholds
  have h' : Inv represents target (response.representation :: seen) s := by
    refine ⟨h.target.imp_right ?_, h.vouches,
      h.holds.mono (List.subset_cons_self _ _)⟩
    rintro ⟨file, hmem, hfile⟩
    exact ⟨file, List.mem_cons_of_mem _ hmem, hfile⟩
  simp only [Reaches] at hreaches
  unfold answered
  split
  · -- a `416`: discard, or promote a partial that is whole
    rename_i hunsatisfied
    rw [if_pos hunsatisfied] at hreaches
    obtain ⟨hoffset, hstatus⟩ := hunsatisfied
    split
    · exact h'.goto trivial
    · rename_i hdisowns
      obtain ⟨hend, hof⟩ := hreaches (by simpa using hdisowns)
      obtain ⟨hread, part, hpart, hlength⟩ := hholds hoffset
      have hpre : part <+: response.representation := by
        rcases hof with hvouched | hpre
        · exact vouched_prefix h.vouches hoffset hread hpart hvouched (.inr hstatus)
            hserver
        · rwa [hpart] at hpre
      have hwhole : part = response.representation :=
        hpre.eq_of_length_le (hlength ▸ hend)
      exact h'.promote ⟨part, hpart, hwhole ▸ List.mem_cons_self⟩
  · rename_i hnot
    rw [if_neg hnot] at hreaches
    split
    · exact h'.goto trivial
    · rename_i herror
      have hreaches := hreaches (by simpa using herror)
      split
      · rename_i hresumes
        have ⟨hoffset, hstatus⟩ : 0 < offset ∧ response.status = 206 := by
          simpa [resumes] using hresumes
        split
        · -- a `206` from the right byte goes on from the partial
          rename_i hstart
          obtain ⟨hread, part, hpart, hlength⟩ := hholds hoffset
          have hpre : part ++ response.body <+: response.representation := by
            refine resumed_prefix h.vouches hoffset hread hpart hlength hstatus
              hstart hserver ?_
            rcases hreaches (fun _ => hstart) with hwhole | ⟨_, hvouched⟩ | hpre
            · cases hstatus.symm.trans hwhole
            · exact .inl hvouched
            · rw [base, if_pos hresumes, hpart] at hpre
              exact .inr hpre
          have hcarries : ∀ hasher, Carries represents
              (response.representation :: seen) args
              ⟨response, recorded, true, offset, [], [], hasher⟩ part := fun _ =>
            carries_append hoffset hlength hstatus hpre hserver
          unfold State.append
          split
          · exact h'.forget.goto ⟨part, hpart, hcarries _⟩
          · exact h'.goto ⟨part, hpart, hcarries _⟩
        · exact h'.restart trivial
      · -- any other success starts over
        rename_i hresumes
        have hpre : response.status = 200 ∨
            response.body <+: response.representation := by
          rcases hreaches (fun hr => absurd hr hresumes) with hwhole | ⟨hr, _⟩ | hpre
          · exact .inl hwhole
          · exact absurd hr hresumes
          · rw [base, if_neg hresumes] at hpre
            exact .inr hpre
        exact h'.restart ⟨[], rfl, carries_fresh hpre hserver⟩

/-- What comes in waits in the buffer. -/
theorem Carries.chunk {args : Args} {x : Transfer β} {part bytes : List β}
    (h : Carries represents seen args x part)
    (hbytes : x.received ++ bytes <+: x.response.body) :
    Carries represents seen args { x with
      received := x.received ++ bytes
      buffer := x.buffer ++ bytes
      hasher := x.hasher.map (· ++ bytes) } part where
  written := by
    obtain ⟨before, hlength, hwritten, hpre⟩ := h.written
    refine ⟨before, hlength, ?_, hpre⟩
    change part ++ (x.buffer ++ bytes) = before ++ (x.received ++ bytes)
    rw [← List.append_assoc, hwritten, List.append_assoc]
  received := hbytes
  served := h.served
  whole := h.whole
  tag := h.tag

theorem Carries.spill {args : Args} {x : Transfer β} {part : List β}
    (h : Carries represents seen args x part) (n : ℕ) :
    Carries represents seen args { x with buffer := x.buffer.drop n }
      (part ++ x.buffer.take n) where
  written := by
    obtain ⟨before, hlength, hwritten, hpre⟩ := h.written
    refine ⟨before, hlength, ?_, hpre⟩
    change part ++ x.buffer.take n ++ x.buffer.drop n = before ++ x.received
    rw [List.append_assoc, List.take_append_drop, hwritten]
  received := h.received
  served := h.served
  whole := h.whole
  tag := h.tag

/-- At the end of its stream the partial is as long as start and body are. -/
theorem Carries.length_eq {args : Args} {x : Transfer β} {part : List β}
    (h : Carries represents seen args x part)
    (hreceived : x.received = x.response.body)
    (hbuffer : x.buffer = []) : part.length = x.start + x.response.body.length := by
  obtain ⟨before, hlength, hwritten, _⟩ := h.written
  rw [hbuffer, List.append_nil, hreceived] at hwritten
  rw [hwritten, List.length_append, hlength]

/-- When the stream ends where the representation does, the partial is whole. -/
theorem Carries.finish {args : Args} {x : Transfer β} {part : List β}
    (h : Carries represents seen args x part)
    (hreceived : x.received = x.response.body)
    (hbuffer : x.buffer = [])
    (hend : x.start + x.response.body.length = x.response.representation.length) :
    part = x.response.representation := by
  refine h.isPrefix.eq_of_length ?_
  rw [h.length_eq hreceived hbuffer, hend]

theorem Inv.next {e : Event β} (h : Inv represents target seen s)
    (he : Enabled s e) (hserver : Answers represents s e) (hreaches : Reaches s e) :
    Inv represents target (served [e] ++ seen) (next s e) := by
  have hholds := h.holds
  cases e with
  | start args =>
      rw [Fetch.next]
      split
      · exact h
      · exact h.forget.goto trivial
  | reconcile args =>
      rw [Fetch.next]
      split
      · exact h.goto trivial
      · exact h.goto trivial
  | removePart args failing =>
      exact h.update rfl (.of_part_none rfl) trivial
  | removeSidecar args failing =>
      have hgone : Vouches represents (s.disk.withSidecar .absent) := .of_sidecar rfl
      cases failing with
      | true => exact ⟨h.target, hgone, trivial⟩
      | false => exact h.update rfl hgone trivial
  | ask args =>
      refine h.goto fun hoffset => ⟨if_pos hoffset, ?_⟩
      exact exists_part_of_offsetOf hoffset
  | answer args offset recorded response => exact h.answer he hserver hreaches
  | truncateSidecar args x =>
      rw [show s.phase = _ from he] at hholds
      exact h.update rfl (.of_sidecar rfl) hholds
  | writeSidecar args x =>
      rw [show s.phase = _ from he] at hholds
      obtain ⟨part, hpart, hcarries⟩ := hholds
      exact h.update rfl (hcarries.vouches rfl hpart) ⟨rfl, part, hpart, hcarries⟩
  | chunk args x bytes =>
      rw [he.1] at hholds
      obtain ⟨hsidecar, part, hpart, hcarries⟩ := hholds
      exact h.goto ⟨hsidecar, part, hpart, hcarries.chunk he.2⟩
  | spill args x n =>
      rw [show s.phase = _ from he] at hholds
      obtain ⟨hsidecar, part, hpart, hcarries⟩ := hholds
      have hspilled := hcarries.spill n
      have hpart' : s.disk.part.map (· ++ x.buffer.take n) =
          some (part ++ x.buffer.take n) := by rw [hpart]; rfl
      exact h.update rfl (hspilled.vouches hsidecar hpart')
        ⟨hsidecar, _, hpart', hspilled⟩
  | mark args x => exact ⟨h.target, h.vouches, h.holds⟩
  | finish args x =>
      obtain ⟨hphase, hreceived, hbuffer⟩ := he
      rw [hphase] at hholds
      obtain ⟨_, part, hpart, hcarries⟩ := hholds
      have hend := hreaches.elim hcarries.whole id
      have hwhole := hcarries.finish hreceived hbuffer hend
      exact h.goto ⟨part, hpart, hwhole ▸ hcarries.served⟩
  | unlinkSidecar args digest =>
      rw [show s.phase = _ from he] at hholds
      exact h.update rfl (.of_sidecar rfl) hholds
  | rename args digest =>
      rw [show s.phase = _ from he] at hholds
      obtain ⟨part, hpart, hmem⟩ := hholds
      exact ⟨.inr ⟨part, hmem, hpart⟩, .of_part_none rfl, trivial⟩
  | failCreate args offset recorded => exact h.forget.goto trivial
  | fail args => exact h.goto trivial
  | retry args => exact h.goto trivial
  | stop => exact h.goto trivial

end Steps

theorem run_inv {target : Option (List β)} {es : List (Event β)} {s : State β}
    (hr : ((machine target).restrict fun s e =>
      Answers represents s e ∧ Reaches s e).Run es s) :
    Inv represents target (served es) s := by
  refine hr.invariant (I := fun es s => Inv represents target (served es) s) ?_ ?_
  · rintro t ⟨hphase, htarget, hsidecar⟩
    refine ⟨.inl htarget, .of_sidecar hsidecar, ?_⟩
    rw [hphase]
    trivial
  · rintro es e t _ _ h ⟨⟨hserver, hreaches⟩, he, rfl⟩
    have hserved : served (e :: es) = served [e] ++ served es := by
      cases e <;> rfl
    rw [hserved]
    exact h.next he hserver hreaches

/-- In every run of downloads against one target, with any modes, retries,
cancellations and crashes, whose responses are gone on from where the bytes are of
one representation and end where it ends: the file at the target is the one that
was there at first or, byte for byte, a representation the server answered from.
A transfer that ends elsewhere next promotes less than its representation. -/
theorem publishes_whole {target : Option (List β)} {es : List (Event β)}
    {s : State β}
    (hr : ((machine target).restrict fun s e =>
      Answers represents s e ∧ Reaches s e).Run es s) :
    (s.disk.target = target ∨ ∃ file ∈ served es, s.disk.target = some file) ∧
    ∀ args x, Enabled s (.finish args x) → ¬ Reaches s (.finish args x) →
      ∃ part, s.disk.part = some part ∧ part <+: x.response.representation ∧
        part ≠ x.response.representation := by
  have h := run_inv hr
  refine ⟨h.target, ?_⟩
  rintro args x ⟨hphase, hreceived, hbuffer⟩ hreaches
  have hholds := h.holds
  rw [hphase] at hholds
  obtain ⟨_, part, hpart, hcarries⟩ := hholds
  refine ⟨part, hpart, hcarries.isPrefix, fun hwhole => hreaches (.inr ?_)⟩
  rw [← hcarries.length_eq hreceived hbuffer, hwhole]

/-! ## A shorter range than was asked for -/

section Resumed

def caller : Args := ⟨.resume, ⟨"u", none, false⟩, true⟩

/-- A representation of six bytes, its tag declared. -/
def sixBytes : Response ℕ where
  status := 200
  etag := some "e"
  lastModified := none
  contentRange := none
  contentLength := some 6
  body := [1, 2, 3, 4, 5, 6]
  representation := [1, 2, 3, 4, 5, 6]

/-- Some of the six bytes, from the third on. -/
def someBytes (contentRange : String) (body : List ℕ) : Response ℕ where
  status := 206
  etag := some "e"
  lastModified := none
  contentRange := some contentRange
  contentLength := some body.length
  body := body
  representation := [1, 2, 3, 4, 5, 6]

def firstTransfer : Transfer ℕ := ⟨sixBytes, none, false, 0, [], [], some []⟩

def secondTransfer (response : Response ℕ) : Transfer ℕ :=
  ⟨response, some (firstTransfer.sidecar caller), true, 2, [], [], some [1, 2]⟩

/-- Two bytes arrive and are flushed with their hash before the stream breaks; the
second attempt resumes. -/
def resumed (response : Response ℕ) : List (Event ℕ) :=
  let x := firstTransfer
  let y := secondTransfer response
  let file := [1, 2] ++ response.body
  [.start caller, .reconcile caller, .removePart caller false,
    .removeSidecar caller false, .ask caller, .answer caller 0 none sixBytes,
    .truncateSidecar caller x, .writeSidecar caller x, .chunk caller x [1, 2],
    .spill caller { x with received := [1, 2], buffer := [1, 2], hasher := some [1, 2] } 2,
    .mark caller { x with received := [1, 2], hasher := some [1, 2] }, .fail caller,
    .retry caller, .ask caller, .answer caller 2 y.recorded response,
    .truncateSidecar caller y, .writeSidecar caller y, .chunk caller y response.body,
    .spill caller
      { y with received := response.body, buffer := response.body, hasher := some file } 4,
    .finish caller { y with received := response.body, hasher := some file },
    .unlinkSidecar caller (some file), .rename caller (some file)]

def afterResumed (response : Response ℕ) : State ℕ :=
  (resumed response).foldl next ⟨⟨none, none, .absent⟩, .idle, none⟩

theorem truthful_sixBytes :
    Truthful (fun _ _ => [1, 2, 3, 4, 5, 6]) caller.identity.url (request 0 none)
      sixBytes where
  strong _ _ := rfl
  whole _ := rfl
  range h := by cases h
  ifRange _ _ _ := rfl

theorem truthful_someBytes {text : String} {body : List ℕ} {last : ℕ}
    (hnames : NamesRange text 2 last) (hle : 2 ≤ last) (hlt : last < 6)
    (hbody : body = ([3, 4, 5, 6] : List ℕ).take (last + 1 - 2)) (q : Request) :
    Truthful (fun _ _ => [1, 2, 3, 4, 5, 6]) caller.identity.url q
      (someBytes text body) where
  strong _ _ := rfl
  whole h := by cases h
  range _ := ⟨text, 2, last, rfl, hnames, hle, hlt, hbody⟩
  ifRange _ _ _ := rfl

theorem run_resumed {response : Response ℕ}
    (hlegal : Machine.Legal Enabled next ⟨⟨none, none, .absent⟩, .idle, none⟩
      (resumed response)) :
    (machine none).Run (resumed response).reverse (afterResumed response) := by
  have hrun := Machine.Run.legal (.start ⟨rfl, rfl, rfl⟩ :
    (machine none).Run [] (⟨⟨none, none, .absent⟩, .idle, none⟩ : State ℕ)) hlegal
  rwa [List.append_nil] at hrun

/-- The second attempt is answered with all that is missing. -/
theorem publishes_whole_resumed :
    (afterResumed (someBytes "bytes 2-5/6" [3, 4, 5, 6])).disk.target =
      some [1, 2, 3, 4, 5, 6] ∧
    ∃ file ∈ served (resumed (someBytes "bytes 2-5/6" [3, 4, 5, 6])).reverse,
      (afterResumed (someBytes "bytes 2-5/6" [3, 4, 5, 6])).disk.target =
        some file := by
  set response := someBytes "bytes 2-5/6" [3, 4, 5, 6] with hresponse
  have htarget : (afterResumed response).disk.target = some [1, 2, 3, 4, 5, 6] := by
    decide
  have hnames : NamesRange "bytes 2-5/6" 2 5 := ⟨['2'], ['5'], ['6'], by decide⟩
  have hmeets : ∀ e ∈ resumed response, ∀ t,
      Answers (fun _ _ => [1, 2, 3, 4, 5, 6]) t e ∧ Reaches t e := by
    have hvouched : Vouched caller (secondTransfer response).recorded :=
      ⟨firstTransfer.sidecar caller, "e", rfl, rfl, rfl⟩
    simp only [resumed, List.forall_mem_cons]
    refine ⟨?_, ?_, ?_, ?_, ?_, fun _ => ⟨truthful_sixBytes, fun _ _ => .inl rfl⟩,
      ?_, ?_, ?_, ?_, ?_, ?_, ?_, ?_, fun _ => ⟨truthful_someBytes hnames (by decide)
        (by decide) rfl _, fun _ _ => .inr (.inl ⟨rfl, hvouched⟩)⟩, ?_, ?_, ?_, ?_,
      fun _ => ⟨trivial, .inr rfl⟩, ?_, ?_, fun e he => absurd he List.not_mem_nil⟩
    all_goals exact fun _ => ⟨trivial, trivial⟩
  have hr := (run_resumed (by decide : Machine.Legal Enabled next
    ⟨⟨none, none, .absent⟩, .idle, none⟩ (resumed response))).restrict
      fun e he => hmeets e (List.mem_reverse.mp he)
  refine ⟨htarget, (publishes_whole hr).1.resolve_left ?_⟩
  rw [htarget]
  exact nofun

/-- The second attempt is answered with two of the four bytes that are missing,
and the four that are there are published. -/
theorem publishes_truncated :
    ¬ ∀ (represents : String → String → List ℕ) (es : List (Event ℕ)) (s : State ℕ),
        ((machine none).restrict (Answers represents)).Run es s →
        s.disk.target = none ∨ ∃ file ∈ served es, s.disk.target = some file := by
  intro h
  set response := someBytes "bytes 2-3/6" [3, 4] with hresponse
  have hnames : NamesRange "bytes 2-3/6" 2 3 := ⟨['2'], ['3'], ['6'], by decide⟩
  have hanswers : ∀ e ∈ resumed response, ∀ t,
      Answers (fun _ _ => [1, 2, 3, 4, 5, 6]) t e := by
    simp only [resumed, List.forall_mem_cons]
    refine ⟨?_, ?_, ?_, ?_, ?_, fun _ => truthful_sixBytes, ?_, ?_, ?_, ?_, ?_, ?_,
      ?_, ?_, fun _ => truthful_someBytes hnames (by decide) (by decide) rfl _, ?_, ?_,
      ?_, ?_, ?_, ?_, ?_, fun e he => absurd he List.not_mem_nil⟩
    all_goals exact fun _ => trivial
  have hr := (run_resumed (by decide : Machine.Legal Enabled next
    ⟨⟨none, none, .absent⟩, .idle, none⟩ (resumed response))).restrict
      fun e he => hanswers e (List.mem_reverse.mp he)
  exact absurd (h _ _ _ hr) (by decide)

end Resumed

end Fetch

end RustSak
