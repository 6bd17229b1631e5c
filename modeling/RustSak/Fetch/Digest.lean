import RustSak.Fetch.Publish

/-!
# The digest of a transfer

The hash of a transfer is taken on the side: of the partial that a response goes on
from, read back past what an earlier attempt had hashed, then of every chunk on its
way into the buffer. `Fed` says that it is the hash of what is on disk with the
buffer behind it, and `Covers` that what is carried from one attempt to the next is
the hash of a prefix of the partial. A partial may lose its bytes only together with
what was carried.
-/

namespace RustSak

namespace Fetch

open Library

variable {β : Type}

/-- Runs against one target, whatever lies there and beside it. -/
def anywhere : Machine (State β) (Event β) :=
  .guarded (fun s => s.phase = .idle ∧ s.checkpoint = none) Enabled next

/-- The carried hash is of the bytes it claims, while they are on disk. -/
def Covers (checkpoint : Option (List β × ℕ)) (disk : Disk β) : Prop :=
  ∀ hashed n part, checkpoint = some (hashed, n) → disk.part = some part →
    n ≤ part.length ∧ hashed = part.take n

/-- A transfer that is hashed has hashed all that is on disk or in its buffer. -/
structure Fed (args : Args) (x : Transfer β) (part : List β) : Prop where
  hasher : x.hasher = if args.hashes then some (part ++ x.buffer) else none
  length : (part ++ x.buffer).length = x.start + x.received.length

/-- What holds of the hash, by where the run is. -/
def Hashed (disk : Disk β) : Phase β → Prop
  | .asked _ offset _ => 0 < offset → (disk.part.getD []).length = offset ∧
      disk.part.isSome = true
  | .opened args x => ∃ part, disk.part = some part ∧ Fed args x part
  | .recording args x => ∃ part, disk.part = some part ∧ Fed args x part
  | .streaming args x => ∃ part, disk.part = some part ∧ Fed args x part
  | .promoting args digest _ => ∃ part, disk.part = some part ∧
      digest = if args.hashes then some part else none
  | _ => True

structure Sound (s : State β) : Prop where
  covers : Covers s.checkpoint s.disk
  hashed : Hashed s.disk s.phase

theorem Covers.none {disk : Disk β} : Covers none disk := nofun

theorem Covers.of_part_none {checkpoint : Option (List β × ℕ)} {disk : Disk β}
    (h : disk.part = Option.none) : Covers checkpoint disk := by
  intro hashed n part _ hpart
  cases h.symm.trans hpart

/-- More bytes do not change the ones that are covered. -/
theorem Covers.append {checkpoint : Option (List β × ℕ)} {disk : Disk β}
    (h : Covers checkpoint disk) (bytes : List β) :
    Covers checkpoint (disk.withPart (disk.part.map (· ++ bytes))) := by
  intro hashed n part hcheckpoint hpart
  obtain ⟨before, hbefore, rfl⟩ := Option.map_eq_some_iff.mp hpart
  obtain ⟨hle, htake⟩ := h hashed n before hcheckpoint hbefore
  refine ⟨?_, ?_⟩
  · rw [List.length_append]
    exact Nat.le_add_right_of_le hle
  · rw [htake, List.take_append_of_le_length hle]

/-- What is read back goes on where the carried hash stops. -/
theorem hashPrefix_part {checkpoint : Option (List β × ℕ)} {disk : Disk β}
    {part : List β} (h : Covers checkpoint disk) (hpart : disk.part = some part) :
    hashPrefix checkpoint part part.length = part := by
  unfold hashPrefix
  cases hcarried : checkpoint.filter fun c => c.2 ≤ part.length with
  | none => simp
  | some carried =>
      obtain ⟨hashed, n⟩ := carried
      have hcheckpoint : checkpoint = some (hashed, n) :=
        (Option.filter_eq_some_iff.mp hcarried).1
      obtain ⟨_, htake⟩ := h hashed n part hcheckpoint hpart
      have hrest : (part.drop n).take (part.length - n) = part.drop n :=
        List.take_of_length_le (by rw [List.length_drop])
      rw [Option.getD_some, htake]
      change part.take n ++ (part.drop n).take (part.length - n) = part
      rw [hrest, List.take_append_drop]

section Steps

variable {s : State β}

theorem Sound.goto (h : Sound s) {phase : Phase β} (hhashed : Hashed s.disk phase) :
    Sound (s.goto phase) := ⟨h.covers, hhashed⟩

theorem Sound.forget (h : Sound s) : Sound s.forget := ⟨.none, h.hashed⟩

/-- The partial is created anew, and nothing is carried. -/
theorem sound_restart {phase : Phase β}
    (hhashed : Hashed (s.disk.withPart (some [])) phase) :
    Sound (((s.withDisk (s.disk.withPart (some []))).forget).goto phase) :=
  ⟨.none, hhashed⟩

/-- A partial that is all there is hashed to its end. -/
theorem Sound.promote (h : Sound s) {args : Args} {part : List β}
    (hpart : s.disk.part = some part) : Sound (s.promote args part.length) := by
  unfold State.promote
  split
  · rename_i hhashes
    rw [hpart, Option.getD_some, hashPrefix_part h.covers hpart]
    exact h.forget.goto ⟨part, hpart, by rw [if_pos hhashes]⟩
  · rename_i hhashes
    exact h.goto ⟨part, hpart, by rw [if_neg hhashes]⟩

/-- A transfer goes on from a partial that has been hashed to its end. -/
theorem Sound.append (h : Sound s) {args : Args} {recorded : Option Sidecar}
    {response : Response β} {part : List β} (hpart : s.disk.part = some part) :
    Sound (s.append args part.length recorded response) := by
  unfold State.append
  split
  · rename_i hhashes
    rw [hpart, Option.getD_some, hashPrefix_part h.covers hpart]
    refine h.forget.goto ⟨part, hpart, ?_, ?_⟩
    · rw [if_pos hhashes, List.append_nil]
    · rw [List.append_nil]
      rfl
  · rename_i hhashes
    refine h.goto ⟨part, hpart, ?_, ?_⟩
    · rw [if_neg hhashes]
    · rw [List.append_nil]
      rfl

theorem Sound.answer (h : Sound s) {args : Args} {offset : ℕ}
    {recorded : Option Sidecar} {response : Response β}
    (hphase : s.phase = .asked args offset recorded) :
    Sound (answered s args offset recorded response) := by
  have hhashed := h.hashed
  rw [hphase] at hhashed
  -- a response that is gone on from finds the partial as long as was asked for
  have hpartial : 0 < offset →
      ∃ part, s.disk.part = some part ∧ part.length = offset := by
    intro hoffset
    obtain ⟨hlength, hsome⟩ := hhashed hoffset
    obtain ⟨part, hpart⟩ := Option.isSome_iff_exists.mp hsome
    rw [hpart, Option.getD_some] at hlength
    exact ⟨part, hpart, hlength⟩
  unfold answered
  split
  · rename_i hunsatisfied
    split
    · exact h.goto trivial
    · obtain ⟨part, hpart, rfl⟩ := hpartial hunsatisfied.1
      exact h.promote hpart
  · split
    · exact h.goto trivial
    · split
      · rename_i hresumes
        split
        · have hoffset : 0 < offset := by
            rw [resumes, Bool.and_eq_true, decide_eq_true_eq] at hresumes
            exact hresumes.1
          obtain ⟨part, hpart, rfl⟩ := hpartial hoffset
          exact h.append hpart
        · exact sound_restart trivial
      · exact sound_restart ⟨[], rfl, rfl, rfl⟩

/-- A chunk is hashed as it goes into the buffer. -/
theorem Fed.chunk {args : Args} {x : Transfer β} {part : List β}
    (h : Fed args x part) (bytes : List β) :
    Fed args { x with
      received := x.received ++ bytes
      buffer := x.buffer ++ bytes
      hasher := x.hasher.map (· ++ bytes) } part where
  hasher := by
    change x.hasher.map (· ++ bytes) = _
    rw [h.hasher]
    split
    · rw [Option.map_some, List.append_assoc]
    · rfl
  length := by
    change (part ++ (x.buffer ++ bytes)).length = _
    rw [← List.append_assoc, List.length_append, h.length, List.length_append,
      Nat.add_assoc]

/-- The buffer reaches the disk and the hash stays as it is. -/
theorem Fed.spill {args : Args} {x : Transfer β} {part : List β}
    (h : Fed args x part) (n : ℕ) :
    Fed args { x with buffer := x.buffer.drop n } (part ++ x.buffer.take n) where
  hasher := by
    rw [List.append_assoc, List.take_append_drop]
    exact h.hasher
  length := by
    rw [List.append_assoc, List.take_append_drop]
    exact h.length

/-- After a flush the hash is of the whole partial. -/
theorem Fed.flushed {args : Args} {x : Transfer β} {part : List β}
    (h : Fed args x part) (hbuffer : x.buffer = []) :
    x.hasher = (if args.hashes then some part else none) ∧
    part.length = x.start + x.received.length := by
  have hhasher := h.hasher
  have hlength := h.length
  rw [hbuffer, List.append_nil] at hhasher hlength
  exact ⟨hhasher, hlength⟩

/-- What is carried from a flush on is the hash of the partial. -/
theorem Sound.mark (h : Sound s) {args : Args} {x : Transfer β}
    (he : Enabled s (.mark args x)) : Sound (Fetch.next s (.mark args x)) := by
  obtain ⟨hphase, hbuffer⟩ := he
  have hhashed := h.hashed
  rw [hphase] at hhashed
  obtain ⟨part, hpart, hfed⟩ := hhashed
  obtain ⟨hhasher, hlength⟩ := hfed.flushed hbuffer
  refine ⟨?_, h.hashed⟩
  cases hashes : args.hashes with
  | false =>
      have hnone : x.hasher = none := by rw [hhasher, hashes]; rfl
      simp only [next, hnone]
      exact h.covers
  | true =>
      have hsome : x.hasher = some part := by rw [hhasher, hashes]; rfl
      simp only [next, hsome, ← hlength]
      intro hashed n part' hcheckpoint hpart'
      obtain ⟨rfl, rfl⟩ := Prod.mk.inj (Option.some.inj hcheckpoint)
      obtain rfl := Option.some.inj (hpart.symm.trans hpart')
      exact ⟨le_rfl, List.take_length.symm⟩

theorem Sound.next {e : Event β} (h : Sound s) (he : Enabled s e) :
    Sound (next s e) := by
  have hhashed := h.hashed
  cases e with
  | start args =>
      rw [Fetch.next]
      split
      · exact h
      · exact h.forget.goto trivial
  | reconcile args =>
      rw [Fetch.next]
      split
      · exact h.goto trivial
      · exact h.goto trivial
  | removePart args failing => exact ⟨.of_part_none rfl, trivial⟩
  | removeSidecar args failing =>
      cases failing with
      | true => exact ⟨.none, trivial⟩
      | false => exact ⟨h.covers, trivial⟩
  | ask args =>
      refine h.goto fun hoffset => ?_
      obtain ⟨part, hpart, hlen⟩ := exists_part_of_offsetOf hoffset
      rw [← hlen, hpart]
      exact ⟨rfl, rfl⟩
  | answer args offset recorded response => exact h.answer he
  | truncateSidecar args x =>
      rw [show s.phase = _ from he] at hhashed
      exact ⟨h.covers, hhashed⟩
  | writeSidecar args x =>
      rw [show s.phase = _ from he] at hhashed
      exact ⟨h.covers, hhashed⟩
  | chunk args x bytes =>
      rw [he.1] at hhashed
      obtain ⟨part, hpart, hfed⟩ := hhashed
      exact h.goto ⟨part, hpart, hfed.chunk bytes⟩
  | spill args x n =>
      rw [show s.phase = _ from he] at hhashed
      obtain ⟨part, hpart, hfed⟩ := hhashed
      have hpart' : s.disk.part.map (· ++ x.buffer.take n) =
          some (part ++ x.buffer.take n) := by rw [hpart]; rfl
      exact ⟨h.covers.append _, _, hpart', hfed.spill n⟩
  | mark args x => exact h.mark he
  | finish args x =>
      obtain ⟨hphase, _, hbuffer⟩ := he
      rw [hphase] at hhashed
      obtain ⟨part, hpart, hfed⟩ := hhashed
      exact h.goto ⟨part, hpart, (hfed.flushed hbuffer).1⟩
  | unlinkSidecar args digest =>
      rw [show s.phase = _ from he] at hhashed
      exact ⟨h.covers, hhashed⟩
  | rename args digest => exact ⟨.of_part_none rfl, trivial⟩
  | failCreate args offset recorded => exact h.forget.goto trivial
  | fail args => exact h.goto trivial
  | retry args => exact h.goto trivial
  | stop => exact h.goto trivial

end Steps

theorem reachable_sound {s : State β} (hr : anywhere.Reachable s) : Sound s := by
  refine hr.invariant (I := Sound) ?_ ?_
  · rintro t ⟨hphase, hcheckpoint⟩
    refine ⟨hcheckpoint ▸ .none, ?_⟩
    rw [hphase]
    trivial
  · rintro t e _ h ⟨he, rfl⟩
    exact h.next he

/-- In every run of downloads against one target, from any files, with any modes,
responses, retries, flushes, failures and crashes: a checkpoint is the hash of as
many bytes of the partial as it says, when it is taken and for as long as the
partial is there; and the file that a rename puts at the target is, byte for byte,
what the digest reported for it was taken of. -/
theorem digests_published {s : State β} (hr : anywhere.Reachable s) :
    (∀ hashed n part, s.checkpoint = some (hashed, n) → s.disk.part = some part →
      n ≤ part.length ∧ hashed = part.take n) ∧
    (∀ args x hashed n, Enabled s (.mark args x) →
      (next s (.mark args x)).checkpoint = some (hashed, n) →
      ∃ part, (next s (.mark args x)).disk.part = some part ∧ n ≤ part.length ∧
        hashed = part.take n) ∧
    ∀ args digest, Enabled s (.rename args digest) →
      ∃ file, (next s (.rename args digest)).disk.target = some file ∧
        digest = if args.hashes then some file else none := by
  have h := reachable_sound hr
  refine ⟨h.covers, ?_, ?_⟩
  · intro args x hashed n he hcheckpoint
    have hmarked := h.mark he
    obtain ⟨part, hpart, _⟩ : Hashed s.disk (.streaming args x) := by
      rw [← he.1]
      exact h.hashed
    exact ⟨part, hpart, hmarked.covers hashed n part hcheckpoint hpart⟩
  · intro args digest he
    obtain ⟨part, hpart, hdigest⟩ : Hashed s.disk (.promoting args digest true) := by
      rw [← show s.phase = _ from he]
      exact h.hashed
    exact ⟨part, hpart, hdigest⟩

/-! ## A stream that breaks after a checkpoint -/

section Hashing

/-- Two bytes are flushed and a third is lost; what follows the two is hashed from
their checkpoint on. -/
def hashedAttempts : List (Event ℕ) :=
  let args := caller
  let x := firstTransfer
  let response := someBytes "bytes 2-5/6" [3, 4, 5, 6]
  let y := secondTransfer response
  [.start args, .reconcile args, .removePart args false, .removeSidecar args false,
    .ask args, .answer args 0 none sixBytes, .truncateSidecar args x,
    .writeSidecar args x, .chunk args x [1, 2],
    .spill args ⟨sixBytes, none, false, 0, [1, 2], [1, 2], some [1, 2]⟩ 2,
    .mark args ⟨sixBytes, none, false, 0, [1, 2], [], some [1, 2]⟩,
    .chunk args ⟨sixBytes, none, false, 0, [1, 2], [], some [1, 2]⟩ [3],
    .fail args, .retry args, .ask args, .answer args 2 y.recorded response,
    .truncateSidecar args y, .writeSidecar args y, .chunk args y response.body,
    .spill args ⟨response, y.recorded, true, 2, response.body, response.body,
      some [1, 2, 3, 4, 5, 6]⟩ 4,
    .finish args ⟨response, y.recorded, true, 2, response.body, [],
      some [1, 2, 3, 4, 5, 6]⟩,
    .unlinkSidecar args (some [1, 2, 3, 4, 5, 6])]

def afterHashed : State ℕ :=
  hashedAttempts.foldl next ⟨⟨none, none, .absent⟩, .idle, none⟩

theorem digests_published_resumed :
    ∃ file, (next afterHashed (.rename caller
        (some [1, 2, 3, 4, 5, 6]))).disk.target = some file ∧
      some [1, 2, 3, 4, 5, 6] =
        if caller.hashes then some file else none := by
  have hstart : anywhere.Reachable (⟨⟨none, none, .absent⟩, .idle, none⟩ : State ℕ) :=
    .start ⟨rfl, rfl⟩
  have hlegal : Machine.Legal Enabled next
      (⟨⟨none, none, .absent⟩, .idle, none⟩ : State ℕ) hashedAttempts := by decide
  have hreach : anywhere.Reachable afterHashed := hstart.legal hlegal
  exact (digests_published hreach).2.2 _ _ (by decide)

end Hashing

end Fetch

end RustSak
