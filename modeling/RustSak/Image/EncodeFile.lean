import RustSak.Image.Encode
import RustSak.Fs.CopyMove
import RustSak.Library.BufWriter

/-!
# Encoding into a file

The file is created once the extension and the options are settled, and the encoder hands
its bytes to a buffered writer over it. The writer is flushed before the encode counts as
done, since a writer that is dropped keeps quiet about what it could not write.
-/

namespace RustSak

namespace Image

open Library

namespace ImageFormat

/-- Every format, in declaration order. -/
def all : List ImageFormat := [.bmp, .gif, .jpeg, .png, .tiff, .avif, .heif, .webP]

/-- The extensions that select a format, the canonical one first. -/
def extensions : ImageFormat → List (List Char)
  | bmp => ["bmp".toList]
  | gif => ["gif".toList]
  | jpeg => ["jpg".toList, "jpeg".toList]
  | png => ["png".toList]
  | tiff => ["tiff".toList, "tif".toList]
  | avif => ["avif".toList]
  | heif => ["heif".toList, "heic".toList]
  | webP => ["webp".toList]

def fromExtension (extension : List Char) : Option ImageFormat :=
  all.find? fun format => format.extensions.any fun ext => Text.eqIgnoreAsciiCase ext extension

end ImageFormat

namespace EncodeFile

open Encode

/-- `from_path`, of the name that the path ends in, if it ends in one. -/
def fromPath (fileName : Option (List Char)) : Option ImageFormat :=
  (fileName.bind Fs.ExtFilter.extension).bind ImageFormat.fromExtension

/-- The capacity of a buffered writer. -/
def defaultBufSize : ℕ := 8 * 1024

variable {ρ χ π σ ℓ ω ε : Type}

/-- How a call ends. -/
inductive Outcome (ω ε : Type) where
  | ok
  | failed (error : ImageError ω ε)
  | panicked

/-- Where a call is. `x` is the encode, `answers` what it has been told by the writer. -/
inductive Phase (π ρ χ σ ℓ ω ε : Type) where
  | idle
  | resolved (job : EncodeOptions ρ χ × π)
  | encoding (job : EncodeOptions ρ χ × π) (x : σ × Progress ℓ ω ε)
      (answers : List (Except ω Unit)) (writer : BufWriter UInt8)
  | refused (error : ImageError ω ε)
  | ended (job : EncodeOptions ρ χ × π) (answers : List (Except ω Unit))
      (outcome : Outcome ω ε)

/-- `file` is what the path leads to, if there is a file. -/
structure State (π ρ χ σ ℓ ω ε : Type) where
  phase : Phase π ρ χ σ ℓ ω ε
  file : Option (List UInt8)

/-- `dropped` is the file's answer to the flush of a writer that is dropped. -/
inductive Event (π ρ χ ω : Type) where
  | call (image : π) (fileName : Option (List Char)) (options : Option (EncodeOptions ρ χ))
  | create (answer : Except ω Unit)
  | write (flushed written : Answer ω)
  | finish (flushed : Answer ω) (inner : Except ω Unit) (dropped : Answer ω)

section Steps

variable (C : Codecs π ρ χ σ ℓ ω ε) (P : Encode.Pictures π) (D : HeifDefaults ρ χ) (shared : σ)

namespace State

def next (s : State π ρ χ σ ℓ ω ε) : Event π ρ χ ω → State π ρ χ σ ℓ ω ε
  | .call image fileName options =>
      match fromPath fileName with
      | none => { s with phase := .refused .unknownExtension }
      | some format =>
          match (Call.mk image format options).job P D with
          | .error error => { s with phase := .refused error }
          | .ok job => { s with phase := .resolved job }
  | .create answer =>
      match s.phase with
      | .resolved job =>
          match answer with
          | .error error => { s with phase := .refused (.io error) }
          | .ok () =>
              ⟨.encoding job (encodeInto C job.1 job.2 shared) [] ⟨defaultBufSize, [], []⟩,
                some []⟩
      | _ => s
  | .write flushed written =>
      match s.phase with
      | .encoding job x answers writer =>
          match x.2.act with
          | .write bytes =>
              let r := writer.writeAll bytes flushed written
              ⟨.encoding job (goOn C x r.2) (answers ++ [r.2]) r.1, some r.1.sink⟩
          | _ => s
      | _ => s
  | .finish flushed inner dropped =>
      match s.phase with
      | .encoding job x answers writer =>
          match x.2.act with
          | .write _ => s
          | .done =>
              let r := writer.flush flushed inner
              let outcome := match r.2 with
                | .ok () => .ok
                | .error error => .failed (.io error)
              ⟨.ended job answers outcome, some (r.1.flushBuf dropped).1.sink⟩
          | .failed error =>
              ⟨.ended job answers (.failed error), some (writer.flushBuf dropped).1.sink⟩
          | .panicked => ⟨.ended job answers .panicked, some (writer.flushBuf dropped).1.sink⟩
      | _ => s

def Enabled (s : State π ρ χ σ ℓ ω ε) : Event π ρ χ ω → Prop
  | .call .. =>
      match s.phase with
      | .idle => True
      | _ => False
  | .create _ =>
      match s.phase with
      | .resolved _ => True
      | _ => False
  | .write .. =>
      match s.phase with
      | .encoding _ x _ _ =>
          match x.2.act with
          | .write _ => True
          | _ => False
      | _ => False
  | .finish .. =>
      match s.phase with
      | .encoding _ x _ _ =>
          match x.2.act with
          | .write _ => False
          | _ => True
      | _ => False

end State

/-- One call of `encode_file` on a path that leads to `before`. -/
def machine (before : Option (List UInt8)) :
    Machine (State π ρ χ σ ℓ ω ε) (Event π ρ χ ω) :=
  .guarded (· = ⟨.idle, before⟩) State.Enabled (State.next C P D shared)

end Steps

/-! ## What the file holds -/

section Runs

variable {C : Codecs π ρ χ σ ℓ ω ε} {P : Encode.Pictures π} {D : HeifDefaults ρ χ}

/-- An encoder goes on with the answers to what it hands to its writer. -/
def follow {τ : Type} (next : τ → Except ω Unit → τ × Act ω ε) (x : τ × Act ω ε)
    (answer : Except ω Unit) : τ × Act ω ε :=
  match x.2 with
  | .write _ => next x.1 answer
  | _ => x

/-- Once it has been told of an error, an encoder does not end well. -/
def Admits {τ : Type} (next : τ → Except ω Unit → τ × Act ω ε) (x : τ × Act ω ε) : Prop :=
  ∀ answers bytes error more, (answers.foldl (follow next) x).2 = .write bytes →
    ((answers ++ .error error :: more).foldl (follow next) x).2 ≠ .done

variable (C) in
def Honest : Prop :=
  (∀ options image, options.format ∈ [.jpeg, .png, .heif, .webP] →
    Admits C.ownNext (C.own options image)) ∧
  ∀ options image shared, Admits C.avifNext (C.avif options image shared)

/-- An encoder that fails as soon as its writer does. -/
theorem admits_of_failed {τ : Type} {next : τ → Except ω Unit → τ × Act ω ε}
    (h : ∀ here error, ∃ failure, (next here (.error error)).2 = .failed failure)
    (x : τ × Act ω ε) : Admits next x := by
  intro answers bytes error more hwrite
  obtain ⟨failure, hfailure⟩ := h (answers.foldl (follow next) x).1 error
  have hstays : ∀ answer, follow next (next (answers.foldl (follow next) x).1 (.error error))
      answer = next (answers.foldl (follow next) x).1 (.error error) := by
    intro answer
    rw [follow, hfailure]
  have hfollow : follow next (answers.foldl (follow next) x) (.error error) =
      next (answers.foldl (follow next) x).1 (.error error) := by
    rw [follow, hwrite]
  rw [List.foldl_append, List.foldl_cons, hfollow, List.foldl_fixed' hstays, hfailure]
  intro hdone
  cases hdone

theorem foldl_goOn_own (shared : σ) (x : ℓ × Act ω ε) (out : List UInt8)
    (answers : List (Except ω Unit)) :
    ∃ out', answers.foldl (goOn C) (shared, ⟨.own x.1, x.2, out⟩) =
      (shared, ⟨.own (answers.foldl (follow C.ownNext) x).1,
        (answers.foldl (follow C.ownNext) x).2, out'⟩) := by
  induction answers generalizing x out with
  | nil => exact ⟨out, rfl⟩
  | cons answer answers ih =>
      obtain ⟨here, act⟩ := x
      cases act with
      | write bytes => exact ih (C.ownNext here answer) (taken out bytes answer)
      | done => exact ih (here, .done) out
      | failed error => exact ih (here, .failed error) out
      | panicked => exact ih (here, .panicked) out

theorem foldl_goOn_avif (x : (σ × ℓ) × Act ω ε) (out : List UInt8)
    (answers : List (Except ω Unit)) :
    ∃ out', answers.foldl (goOn C) (x.1.1, ⟨.avif x.1.2, x.2, out⟩) =
      ((answers.foldl (follow C.avifNext) x).1.1,
        ⟨.avif (answers.foldl (follow C.avifNext) x).1.2,
          (answers.foldl (follow C.avifNext) x).2, out'⟩) := by
  induction answers generalizing x out with
  | nil => exact ⟨out, rfl⟩
  | cons answer answers ih =>
      obtain ⟨here, act⟩ := x
      cases act with
      | write bytes => exact ih (C.avifNext here answer) (taken out bytes answer)
      | done => exact ih (here, .done) out
      | failed error => exact ih (here, .failed error) out
      | panicked => exact ih (here, .panicked) out

theorem foldl_goOn_buffered {x : σ × Progress ℓ ω ε} (h : x.2.encoder = .buffered)
    (answers : List (Except ω Unit)) : (answers.foldl (goOn C) x).2.encoder = .buffered := by
  induction answers generalizing x with
  | nil => exact h
  | cons answer answers ih =>
      refine ih ?_
      unfold goOn
      split
      · rw [h]
        cases answer <;> rfl
      · exact h

theorem buffered_encodeInto {options : EncodeOptions ρ χ}
    (h : options.format ∈ [.bmp, .gif, .tiff]) (image : π) (shared : σ) :
    (encodeInto C options image shared).2.encoder = .buffered := by
  cases options with
  | bmp | gif | tiff => unfold encodeInto; dsimp only; split <;> rfl
  | jpeg | png | avif | heif | webP => simp [EncodeOptions.format] at h

/-- Bytes that were buffered are handed on at once, and an error then is the encode's. -/
theorem foldl_goOn_error {x : σ × Progress ℓ ω ε} (hbuffered : x.2.encoder = .buffered)
    {answers : List (Except ω Unit)} {bytes : List UInt8}
    (h : (answers.foldl (goOn C) x).2.act = .write bytes) (error : ω)
    (more : List (Except ω Unit)) :
    ((answers ++ .error error :: more).foldl (goOn C) x).2.act = .failed (.io error) := by
  have hfailed : (goOn C (answers.foldl (goOn C) x) (.error error)).2.act =
      .failed (.io error) := by
    rw [goOn, h]
    dsimp only
    rw [foldl_goOn_buffered hbuffered answers]
  have hstays : ∀ answer, goOn C (goOn C (answers.foldl (goOn C) x) (.error error)) answer =
      goOn C (answers.foldl (goOn C) x) (.error error) := by
    intro answer
    conv_lhs => rw [goOn, hfailed]
  rw [List.foldl_append, List.foldl_cons, List.foldl_fixed' hstays, hfailed]

/-- With honest codecs no encode ends well that was told of an error. -/
theorem Honest.alone (hhonest : Honest C) {job : EncodeOptions ρ χ × π} {shared : σ}
    {answers : List (Except ω Unit)} {bytes : List UInt8}
    (h : (encodeAlone C job shared answers).2.act = .write bytes) (error : ω)
    (more : List (Except ω Unit)) :
    (encodeAlone C job shared (answers ++ .error error :: more)).2.act ≠ .done := by
  obtain ⟨options, image⟩ := job
  have hown (hformat : options.format ∈ [.jpeg, .png, .heif, .webP])
      (heq : encodeInto C options image shared =
        (shared, ⟨.own (C.own options image).1, (C.own options image).2, []⟩)) :
      (encodeAlone C (options, image) shared (answers ++ .error error :: more)).2.act ≠
        .done := by
    obtain ⟨out, hbefore⟩ := foldl_goOn_own (C := C) shared (C.own options image) [] answers
    obtain ⟨out', hafter⟩ := foldl_goOn_own (C := C) shared (C.own options image) []
      (answers ++ .error error :: more)
    rw [encodeAlone, heq, hbefore] at h
    rw [encodeAlone, heq, hafter]
    exact hhonest.1 options image hformat answers bytes error more h
  cases options with
  | avif settings =>
      obtain ⟨out, hbefore⟩ := foldl_goOn_avif (C.avif settings image shared) [] answers
      obtain ⟨out', hafter⟩ := foldl_goOn_avif (C.avif settings image shared) []
        (answers ++ .error error :: more)
      rw [encodeAlone, encodeInto, hbefore] at h
      rw [encodeAlone, encodeInto, hafter]
      exact hhonest.2 settings image shared answers bytes error more h
  | jpeg | png | heif | webP => exact hown (by simp [EncodeOptions.format]) rfl
  | bmp | gif | tiff =>
      rw [encodeAlone] at h ⊢
      rw [foldl_goOn_error (buffered_encodeInto (by simp [EncodeOptions.format]) image shared) h]
      intro hdone
      cases hdone

theorem out_encodeInto (options : EncodeOptions ρ χ) (image : π) (shared : σ) :
    (encodeInto C options image shared).2.out = [] := by
  cases options with
  | bmp | gif | tiff => unfold encodeInto; dsimp only; split <;> rfl
  | jpeg | png | avif | heif | webP => rfl

theorem out_goOn {x : σ × Progress ℓ ω ε} {bytes : List UInt8} (h : x.2.act = .write bytes)
    (answer : Except ω Unit) : (goOn C x answer).2.out = taken x.2.out bytes answer := by
  unfold goOn
  rw [h]
  dsimp only
  split
  · cases answer <;> rfl
  · rfl
  · rfl

/-- The writer has failed while the encoder was writing. -/
def Told (C : Codecs π ρ χ σ ℓ ω ε) (job : EncodeOptions ρ χ × π) (shared : σ)
    (answers : List (Except ω Unit)) : Prop :=
  ∃ before error after bytes, answers = before ++ .error error :: after ∧
    (encodeAlone C job shared before).2.act = .write bytes

/-- What is known of an encode and its writer. -/
structure Encoding (C : Codecs π ρ χ σ ℓ ω ε) (job : EncodeOptions ρ χ × π) (shared : σ)
    (x : σ × Progress ℓ ω ε) (answers : List (Except ω Unit)) (writer : BufWriter UInt8) :
    Prop where
  progress : x = encodeAlone C job shared answers
  fits : writer.Fits
  held : Told C job shared answers ∨ writer.held = x.2.out

theorem Encoding.write {job : EncodeOptions ρ χ × π} {shared : σ} {x : σ × Progress ℓ ω ε}
    {answers : List (Except ω Unit)} {writer : BufWriter UInt8} {bytes : List UInt8}
    (h : Encoding C job shared x answers writer) (hact : x.2.act = .write bytes)
    (flushed written : Answer ω) :
    Encoding C job shared (goOn C x (writer.writeAll bytes flushed written).2)
      (answers ++ [(writer.writeAll bytes flushed written).2])
      (writer.writeAll bytes flushed written).1 := by
  refine ⟨?_, h.fits.writeAll bytes flushed written, ?_⟩
  · rw [h.progress, encodeAlone, encodeAlone, List.foldl_concat]
  · rcases h.held with ⟨before, error, after, earlier, hanswers, hwrite⟩ | hheld
    · exact .inl ⟨before, error, _, earlier,
        by rw [hanswers, List.append_assoc, List.cons_append], hwrite⟩
    · cases hanswer : (writer.writeAll bytes flushed written).2 with
      | error error => exact .inl ⟨answers, error, [], bytes, rfl, by rw [← h.progress, hact]⟩
      | ok =>
          right
          rw [BufWriter.held_writeAll h.fits hanswer, hheld, out_goOn hact]
          rfl

/-- An encode that ends well has not been told of an error, and all it wrote is held. -/
theorem Encoding.held_of_done (hhonest : Honest C) {job : EncodeOptions ρ χ × π} {shared : σ}
    {x : σ × Progress ℓ ω ε} {answers : List (Except ω Unit)} {writer : BufWriter UInt8}
    (h : Encoding C job shared x answers writer) (hact : x.2.act = .done) :
    writer.held = x.2.out := by
  rcases h.held with ⟨before, error, after, bytes, rfl, hwrite⟩ | hheld
  · rw [h.progress] at hact
    exact absurd hact (hhonest.alone hwrite error after)
  · exact hheld

variable (C) in
/-- What is known of a call that found `before`. -/
def Written (shared : σ) (before : Option (List UInt8)) (s : State π ρ χ σ ℓ ω ε) : Prop :=
  match s.phase with
  | .idle | .resolved _ | .refused _ => s.file = before
  | .encoding job x answers writer =>
      Encoding C job shared x answers writer ∧ s.file = some writer.sink
  | .ended job answers .ok =>
      (encodeAlone C job shared answers).2.act = .done ∧
        s.file = some (encodeAlone C job shared answers).2.out
  | .ended .. => True

theorem sink_flushBuf_of_flush {writer : BufWriter UInt8} {flushed : Answer ω}
    {inner : Except ω Unit} (h : (writer.flush flushed inner).2 = .ok ()) (dropped : Answer ω) :
    ((writer.flush flushed inner).1.flushBuf dropped).1.sink = writer.held := by
  cases flushed with
  | failed => cases h
  | ok => cases dropped <;> simp [BufWriter.flush, BufWriter.flushBuf, BufWriter.held]

theorem Written.next (hhonest : Honest C) {shared : σ} {before : Option (List UInt8)}
    {s : State π ρ χ σ ℓ ω ε} (hs : Written C shared before s) {e : Event π ρ χ ω}
    (he : s.Enabled e) : Written C shared before (s.next C P D shared e) := by
  obtain ⟨phase, file⟩ := s
  cases e with
  | call image fileName options =>
      cases phase with
      | idle =>
          have hfile : file = before := hs
          simp only [State.next]
          split
          · exact hfile
          · split <;> exact hfile
      | _ => exact absurd he id
  | create answer =>
      cases phase with
      | resolved job =>
          have hfile : file = before := hs
          cases answer with
          | error error => exact hfile
          | ok => exact ⟨⟨rfl, Nat.zero_le _, .inr (out_encodeInto job.1 job.2 shared).symm⟩, rfl⟩
      | _ => exact absurd he id
  | write flushed written =>
      cases phase with
      | encoding job x answers writer =>
          obtain ⟨hencoding, hfile⟩ := hs
          cases hact : x.2.act with
          | write bytes =>
              simp only [State.next, hact]
              exact ⟨hencoding.write hact flushed written, rfl⟩
          | _ => simp [State.Enabled, hact] at he
      | _ => exact absurd he id
  | finish flushed inner dropped =>
      cases phase with
      | encoding job x answers writer =>
          obtain ⟨hencoding, hfile⟩ := hs
          cases hact : x.2.act with
          | write bytes => simp [State.Enabled, hact] at he
          | failed error => simp [State.next, hact, Written]
          | panicked => simp [State.next, hact, Written]
          | done =>
              cases hflush : (writer.flush flushed inner).2 with
              | error error => simp [State.next, hact, hflush, Written]
              | ok =>
                  simp only [State.next, hact, hflush, Written]
                  rw [sink_flushBuf_of_flush hflush, hencoding.held_of_done hhonest hact,
                    ← hencoding.progress]
                  exact ⟨hact, rfl⟩
      | _ => exact absurd he id

/-- A call that is refused has not touched the file, and after one that returns without an
error the file holds all that the encoder wrote, whatever the file answered meanwhile. -/
theorem file_whole (hhonest : Honest C) {shared : σ} {before : Option (List UInt8)}
    {s : State π ρ χ σ ℓ ω ε} (hr : (machine C P D shared before).Reachable s) :
    (∀ error, s.phase = .refused error → s.file = before) ∧
      ∀ job answers, s.phase = .ended job answers .ok →
        (encodeAlone C job shared answers).2.act = .done ∧
          s.file = some (encodeAlone C job shared answers).2.out := by
  have hs : Written C shared before s := by
    refine hr.invariant (fun s hs => ?_) fun s e s' hs hstep => ?_
    · obtain rfl : s = ⟨.idle, before⟩ := hs
      rfl
    · obtain ⟨he, rfl⟩ := hstep
      exact hs.next hhonest he
  unfold Written at hs
  constructor
  · intro error hphase
    rwa [hphase] at hs
  · intro job answers hphase
    rwa [hphase] at hs

end Runs

/-- An encoder of two writes, which fails with its writer. -/
def twice : Codecs Unit Unit Unit Unit Bool Unit Unit where
  writeTo _ _ := some (.ok [])
  own _ _ := (false, .write [7, 7])
  ownNext here answer :=
    match answer with
    | .error error => (here, .failed (.io error))
    | .ok () => if here then (here, .done) else (true, .write [8])
  avif _ _ _ := (((), false), .done)
  avifNext x answer :=
    match answer with
    | .error error => (x, .failed (.io error))
    | .ok () => (x, .done)

theorem honest_twice : Honest twice :=
  ⟨fun _ _ _ => admits_of_failed (fun _ error => ⟨.io error, rfl⟩) _,
    fun _ _ _ => admits_of_failed (fun _ error => ⟨.io error, rfl⟩) _⟩

/-- A picture is written over another file, and the last flush reaches the file. -/
def pngRun : List (Event Unit Unit Unit Unit) :=
  [.call () (some "photo.PNG".toList) none, .create (.ok ()), .write .ok .ok, .write .ok .ok,
    .finish .ok (.ok ()) .ok]

/-- The state that the run leads to. -/
def afterPng : State Unit Unit Unit Unit Bool Unit Unit :=
  pngRun.foldl (State.next twice plain ⟨(), ()⟩ ()) ⟨.idle, some [1, 2, 3]⟩

theorem file_whole_afterPng : afterPng.file = some [7, 7, 8] := by
  have hr : (machine twice plain ⟨(), ()⟩ () (some [1, 2, 3])).Reachable afterPng := by
    refine Machine.Reachable.legal (Machine.Reachable.start rfl) ?_
    exact ⟨trivial, trivial, trivial, trivial, trivial, trivial⟩
  exact ((file_whole honest_twice hr).2 _ _ rfl).2

end EncodeFile

end Image

end RustSak
