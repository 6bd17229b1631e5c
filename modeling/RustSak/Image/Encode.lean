import RustSak.Image.Container
import RustSak.Library.Machine
import Mathlib.Logic.Function.Basic

/-!
# Encoding

A picture is converted to a color type that the encoder takes and handed to the codec
of the format. The encoder behind AVIF keeps what it is set to for the whole process, so
that encodes of several threads are kept apart by a lock, which a panic does not close.
What the codecs do is left open, but that an AVIF encode starts afresh.
-/

namespace RustSak

namespace Image

namespace Encode

open Library

/-! ## Color types -/

/-- The variants of a picture. -/
inductive ColorType where
  | l8
  | la8
  | rgb8
  | rgba8
  | l16
  | la16
  | rgb16
  | rgba16
  | rgb32F
  | rgba32F
  deriving DecidableEq

def ColorType.hasAlpha : ColorType → Bool
  | la8 | rgba8 | la16 | rgba16 | rgba32F => true
  | l8 | rgb8 | l16 | rgb16 | rgb32F => false

/-- The color type that `make_compatible` converts to, if it converts. -/
def compatibleType (color : ColorType) : ImageFormat → Option ColorType
  | .bmp | .jpeg => none
  | .png | .avif | .heif =>
      match color with
      | .rgb32F => some .rgb16
      | .rgba32F => some .rgba16
      | _ => none
  | .tiff =>
      match color with
      | .la8 => some .rgba8
      | .la16 => some .rgba16
      | _ => none
  | .gif =>
      match color with
      | .rgb8 | .rgba8 => none
      | other => if other.hasAlpha then some .rgba8 else some .rgb8
  | .webP =>
      match color with
      | .l8 | .la8 | .rgb8 | .rgba8 => none
      | .l16 => some .l8
      | .la16 => some .la8
      | .rgb16 | .rgb32F => some .rgb8
      | .rgba16 | .rgba32F => some .rgba8

/-- The color types that the encoder of a format is given as they stand. -/
def accepts (format : ImageFormat) (color : ColorType) : Prop :=
  compatibleType color format = none

/-- One conversion is enough. -/
theorem accepts_of_compatibleType {color target : ColorType} {format : ImageFormat}
    (h : compatibleType color format = some target) : accepts format target := by
  cases format <;> cases color <;> simp [compatibleType, ColorType.hasAlpha] at h <;>
    subst h <;> rfl

/-- No conversion adds or drops the alpha channel. -/
theorem hasAlpha_compatibleType {color target : ColorType} {format : ImageFormat}
    (h : compatibleType color format = some target) : target.hasAlpha = color.hasAlpha := by
  cases format <;> cases color <;> simp [compatibleType, ColorType.hasAlpha] at h <;>
    subst h <;> rfl

/-- The pictures, and what the `image` crate converts them to. -/
structure Pictures (π : Type) where
  color : π → ColorType
  convert : ColorType → π → π

section Compatible

variable {π : Type} (P : Pictures π)

def makeCompatible (image : π) (format : ImageFormat) : Option π :=
  (compatibleType (P.color image) format).map fun target => P.convert target image

/-- The picture that the encoder is given. -/
def compatible (image : π) (format : ImageFormat) : π :=
  (makeCompatible P image format).getD image

theorem accepts_compatible (hconvert : ∀ target image, P.color (P.convert target image) = target)
    (image : π) (format : ImageFormat) : accepts format (P.color (compatible P image format)) := by
  cases h : compatibleType (P.color image) format with
  | none =>
      have hsame : compatible P image format = image := by simp [compatible, makeCompatible, h]
      rw [hsame]
      exact h
  | some target =>
      simpa [compatible, makeCompatible, h, hconvert] using accepts_of_compatibleType h

theorem hasAlpha_compatible
    (hconvert : ∀ target image, P.color (P.convert target image) = target)
    (image : π) (format : ImageFormat) :
    (P.color (compatible P image format)).hasAlpha = (P.color image).hasAlpha := by
  cases h : compatibleType (P.color image) format with
  | none => simp [compatible, makeCompatible, h]
  | some target =>
      simpa [compatible, makeCompatible, h, hconvert] using hasAlpha_compatibleType h

end Compatible

/-! ## Options -/

/-- PNG compression effort. -/
inductive PngCompression where
  | fast
  | default
  | best

/-- PNG scanline filter. -/
inductive PngFilter where
  | noFilter
  | sub
  | up
  | avg
  | paeth
  | adaptive

structure AvifOptions where
  quality : UInt8
  speed : UInt8
  threads : Option UInt32

/-- `ρ` and `χ` are the presets and the chroma subsamplings of HEIF. -/
inductive EncodeOptions (ρ χ : Type) where
  | bmp
  | gif
  | jpeg (quality : UInt8)
  | png (compression : PngCompression) (filter : PngFilter)
  | tiff
  | avif (options : AvifOptions)
  | heif (quality : UInt8) (preset : ρ) (chroma : χ)
  | webP (quality qualityAlpha compression : UInt8) (lossless threads : Bool)

/-- The HEIF settings that are the defaults. -/
structure HeifDefaults (ρ χ : Type) where
  medium : ρ
  yuv420 : χ

variable {ρ χ : Type}

namespace EncodeOptions

def format : EncodeOptions ρ χ → ImageFormat
  | bmp => .bmp
  | gif => .gif
  | jpeg _ => .jpeg
  | png _ _ => .png
  | tiff => .tiff
  | avif _ => .avif
  | heif _ _ _ => .heif
  | webP _ _ _ _ _ => .webP

def defaultFor (D : HeifDefaults ρ χ) : ImageFormat → EncodeOptions ρ χ
  | .bmp => bmp
  | .gif => gif
  | .jpeg => jpeg 75
  | .png => png .default .adaptive
  | .tiff => tiff
  | .avif => avif ⟨60, 6, none⟩
  | .heif => heif 50 D.medium D.yuv420
  | .webP => webP 75 100 4 false false

@[simp] theorem format_defaultFor (D : HeifDefaults ρ χ) (format : ImageFormat) :
    (defaultFor D format).format = format := by
  cases format <;> rfl

end EncodeOptions

/-- What went wrong. `ω` are the errors of a writer, `ε` those of the codecs. -/
inductive ImageError (ω ε : Type) where
  | io (error : ω)
  | codec (error : ε)
  | unknownExtension
  | formatMismatch (expected options : ImageFormat)

variable {π σ ℓ ω ε γ : Type}

def resolveOptions (D : HeifDefaults ρ χ) (format : ImageFormat)
    (options : Option (EncodeOptions ρ χ)) : Except (ImageError ω ε) (EncodeOptions ρ χ) :=
  let options := options.getD (.defaultFor D format)
  let actual := options.format
  if actual = format then .ok options else .error (.formatMismatch format actual)

/-! ## One encode -/

/-- What an encoder does next: it hands bytes to the writer, or ends. -/
inductive Act (ω ε : Type) where
  | write (bytes : List UInt8)
  | done
  | failed (error : ImageError ω ε)
  | panicked

/-- The codecs. The AVIF encoder is one of the process: it works on what the process
keeps of it, `σ`, and on what the encode keeps, `ℓ`. -/
structure Codecs (π ρ χ σ ℓ ω ε : Type) where
  /-- `write_to`, into memory; `none` is a panic. -/
  writeTo : ImageFormat → π → Option (Except ε (List UInt8))
  /-- `write_with_encoder`, up to the first write. -/
  own : EncodeOptions ρ χ → π → ℓ × Act ω ε
  ownNext : ℓ → Except ω Unit → ℓ × Act ω ε
  avif : AvifOptions → π → σ → (σ × ℓ) × Act ω ε
  avifNext : σ × ℓ → Except ω Unit → (σ × ℓ) × Act ω ε

/-- The encoder that an encode is in. -/
inductive Encoder (ℓ : Type) where
  | buffered
  | own (here : ℓ)
  | avif (here : ℓ)

def Encoder.isAvif : Encoder ℓ → Bool
  | buffered => false
  | own _ => false
  | avif _ => true

/-- How far an encode has come. `out` is what its writer has taken. -/
structure Progress (ℓ ω ε : Type) where
  encoder : Encoder ℓ
  act : Act ω ε
  out : List UInt8

section One

variable (C : Codecs π ρ χ σ ℓ ω ε)

/-- `encode_into` up to its first write, on a picture that is compatible. -/
def encodeInto (options : EncodeOptions ρ χ) (image : π) (shared : σ) : σ × Progress ℓ ω ε :=
  match options with
  | .avif settings =>
      let r := C.avif settings image shared
      (r.1.1, ⟨.avif r.1.2, r.2, []⟩)
  | .bmp | .gif | .tiff =>
      match C.writeTo options.format image with
      | some (.ok bytes) => (shared, ⟨.buffered, .write bytes, []⟩)
      | some (.error error) => (shared, ⟨.buffered, .failed (.codec error), []⟩)
      | none => (shared, ⟨.buffered, .panicked, []⟩)
  | options =>
      let r := C.own options image
      (shared, ⟨.own r.1, r.2, []⟩)

/-- What the writer has taken once it has answered. -/
def taken (out bytes : List UInt8) : Except ω Unit → List UInt8
  | .ok () => out ++ bytes
  | .error _ => out

/-- An encode goes on with the writer's answer to what it was handed last. -/
def goOn (x : σ × Progress ℓ ω ε) (answer : Except ω Unit) : σ × Progress ℓ ω ε :=
  match x.2.act with
  | .write bytes =>
      match x.2.encoder with
      | .buffered =>
          match answer with
          | .ok () => (x.1, ⟨.buffered, .done, x.2.out ++ bytes⟩)
          | .error error => (x.1, ⟨.buffered, .failed (.io error), x.2.out⟩)
      | .own here =>
          let r := C.ownNext here answer
          (x.1, ⟨.own r.1, r.2, taken x.2.out bytes answer⟩)
      | .avif here =>
          let r := C.avifNext (x.1, here) answer
          (r.1.1, ⟨.avif r.1.2, r.2, taken x.2.out bytes answer⟩)
  | _ => x

/-- What `encode_writer` is called with. -/
structure Call (π ρ χ : Type) where
  image : π
  format : ImageFormat
  options : Option (EncodeOptions ρ χ)

variable (P : Pictures π) (D : HeifDefaults ρ χ)

/-- The options and the picture that a call encodes. -/
def Call.job (call : Call π ρ χ) : Except (ImageError ω ε) (EncodeOptions ρ χ × π) := do
  let options ← resolveOptions D call.format call.options
  .ok (options, compatible P call.image options.format)

/-- An encode that no other one comes between, from what the process kept, on the answers
of its writer. -/
def encodeAlone (job : EncodeOptions ρ χ × π) (shared : σ) (answers : List (Except ω Unit)) :
    σ × Progress ℓ ω ε :=
  answers.foldl (goOn C) (encodeInto C job.1 job.2 shared)

/-- `encode_writer` without other threads: how it ends, and what its writer has taken. -/
def encodeWriter (call : Call π ρ χ) (shared : σ) (answers : List (Except ω Unit)) :
    Act ω ε × List UInt8 :=
  match call.job P D with
  | .error error => (.failed error, [])
  | .ok job =>
      let x := encodeAlone C job shared answers
      (x.2.act, x.2.out)

end One

/-! ## Several threads -/

/-- Where a call is. `answers` is what its writer has answered so far. -/
inductive Phase (π ρ χ ℓ ω ε : Type) where
  | idle
  | ready (call : Call π ρ χ) (job : EncodeOptions ρ χ × π)
  | encoding (call : Call π ρ χ) (job : EncodeOptions ρ χ × π) (progress : Progress ℓ ω ε)
      (answers : List (Except ω Unit))
  | ended (call : Call π ρ χ) (answers : List (Except ω Unit)) (act : Act ω ε)
      (out : List UInt8)

/-- Whether a call is inside the AVIF encoder. -/
def Phase.inAvif : Phase π ρ χ ℓ ω ε → Bool
  | encoding _ _ progress _ => progress.encoder.isAvif
  | _ => false

/-- `holder` and `poisoned` are the lock `AVIF_ENCODE`. -/
structure State (γ π ρ χ σ ℓ ω ε : Type) where
  calls : γ → Phase π ρ χ ℓ ω ε
  shared : σ
  holder : Option γ
  poisoned : Bool

inductive Event (γ π ρ χ ω : Type) where
  | call (c : γ) (call : Call π ρ χ)
  | start (c : γ)
  | answer (c : γ) (answer : Except ω Unit)
  | leave (c : γ)

namespace State

variable [DecidableEq γ] (C : Codecs π ρ χ σ ℓ ω ε) (P : Pictures π) (D : HeifDefaults ρ χ)

def goto (s : State γ π ρ χ σ ℓ ω ε) (c : γ) (phase : Phase π ρ χ ℓ ω ε) :
    State γ π ρ χ σ ℓ ω ε :=
  { s with calls := Function.update s.calls c phase }

def next (s : State γ π ρ χ σ ℓ ω ε) : Event γ π ρ χ ω → State γ π ρ χ σ ℓ ω ε
  | .call c call =>
      match call.job (ω := ω) (ε := ε) P D with
      | .error error => s.goto c (.ended call [] (.failed error) [])
      | .ok job => s.goto c (.ready call job)
  | .start c =>
      match s.calls c with
      | .ready call job =>
          let x := encodeInto C job.1 job.2 s.shared
          { s.goto c (.encoding call job x.2 []) with
            shared := x.1
            holder := if x.2.encoder.isAvif then some c else s.holder }
      | _ => s
  | .answer c answer =>
      match s.calls c with
      | .encoding call job progress answers =>
          let x := goOn C (s.shared, progress) answer
          { s.goto c (.encoding call job x.2 (answers ++ [answer])) with shared := x.1 }
      | _ => s
  | .leave c =>
      match s.calls c with
      | .encoding call _ progress answers =>
          let panicking := match progress.act with
            | .panicked => true
            | _ => false
          let left := s.goto c (.ended call answers progress.act progress.out)
          -- The guard goes with the encode. Only a panic under it poisons the lock.
          if progress.encoder.isAvif then
            { left with holder := none, poisoned := s.poisoned || panicking }
          else left
      | _ => s

/-- The lock is taken once nobody holds it, poisoned or not. -/
def Enabled (s : State γ π ρ χ σ ℓ ω ε) : Event γ π ρ χ ω → Prop
  | .call c _ =>
      match s.calls c with
      | .idle => True
      | _ => False
  | .start c =>
      match s.calls c with
      | .ready _ job => job.1.format = .avif → s.holder = none
      | _ => False
  | .answer c _ =>
      match s.calls c with
      | .encoding _ _ progress _ =>
          match progress.act with
          | .write _ => True
          | _ => False
      | _ => False
  | .leave c =>
      match s.calls c with
      | .encoding _ _ progress _ =>
          match progress.act with
          | .write _ => False
          | _ => True
      | _ => False

end State

section Runs

variable [DecidableEq γ] (C : Codecs π ρ χ σ ℓ ω ε) (P : Pictures π) (D : HeifDefaults ρ χ)

def machine : Machine (State γ π ρ χ σ ℓ ω ε) (Event γ π ρ χ ω) :=
  .guarded (fun s => (∀ c, s.calls c = .idle) ∧ s.holder = none) State.Enabled (State.next C P D)

/-! ### What an encode depends on -/

theorem isAvif_encodeInto (options : EncodeOptions ρ χ) (image : π) (shared : σ) :
    (encodeInto C options image shared).2.encoder.isAvif = decide (options.format = .avif) := by
  cases options with
  | bmp | gif | tiff => unfold encodeInto; dsimp only; split <;> rfl
  | jpeg | png | avif | heif | webP => rfl

/-- The other encoders leave alone what the process keeps, and do not look at it. -/
theorem encodeInto_own {options : EncodeOptions ρ χ} (h : options.format ≠ .avif) (image : π)
    (shared shared' : σ) :
    encodeInto C options image shared = (shared, (encodeInto C options image shared').2) := by
  cases options with
  | avif => exact absurd rfl h
  | bmp | gif | tiff => unfold encodeInto; dsimp only; split <;> rfl
  | jpeg | png | heif | webP => rfl

theorem isAvif_goOn (x : σ × Progress ℓ ω ε) (answer : Except ω Unit) :
    (goOn C x answer).2.encoder.isAvif = x.2.encoder.isAvif := by
  unfold goOn
  split
  next =>
    split
    next h => rw [h]; cases answer <;> rfl
    next h => rw [h]; rfl
    next h => rw [h]; rfl
  next => rfl

theorem goOn_own {progress : Progress ℓ ω ε} (h : progress.encoder.isAvif = false)
    (shared shared' : σ) (answer : Except ω Unit) :
    goOn C (shared, progress) answer = (shared, (goOn C (shared', progress) answer).2) := by
  obtain ⟨encoder, act, out⟩ := progress
  cases act with
  | done | failed | panicked => rfl
  | write bytes =>
      cases encoder with
      | avif => exact absurd h (Bool.noConfusion)
      | own => rfl
      | buffered => cases answer <;> rfl

/-- Where an encode is that has had these answers, is where it would be on its own. -/
def Follows (job : EncodeOptions ρ χ × π) (shared : σ) (progress : Progress ℓ ω ε)
    (answers : List (Except ω Unit)) : Prop :=
  ∀ shared₀, (encodeAlone C job shared₀ answers).2 = progress ∧
    (progress.encoder.isAvif → (encodeAlone C job shared₀ answers).1 = shared)

variable {C P D}

theorem follows_start
    (hreset : ∀ options image shared shared',
      C.avif options image shared = C.avif options image shared')
    (job : EncodeOptions ρ χ × π) (shared : σ) :
    Follows C job (encodeInto C job.1 job.2 shared).1 (encodeInto C job.1 job.2 shared).2 [] := by
  intro shared₀
  by_cases h : job.1.format = .avif
  · obtain ⟨options, image⟩ := job
    cases options with
    | avif options =>
        have hsame : encodeInto C (.avif options) image shared₀ =
            encodeInto C (.avif options) image shared := by
          simp only [encodeInto, hreset options image shared₀ shared]
        exact ⟨congrArg Prod.snd hsame, fun _ => congrArg Prod.fst hsame⟩
    | _ => exact absurd h (by simp [EncodeOptions.format])
  · have hsame : encodeAlone C job shared₀ [] =
        (shared₀, (encodeInto C job.1 job.2 shared).2) := encodeInto_own C h job.2 shared₀ shared
    refine ⟨by rw [hsame], fun havif => ?_⟩
    rw [isAvif_encodeInto, decide_eq_true_iff] at havif
    exact absurd havif h

theorem Follows.goOn {job : EncodeOptions ρ χ × π} {shared : σ} {progress : Progress ℓ ω ε}
    {answers : List (Except ω Unit)} (h : Follows C job shared progress answers)
    (answer : Except ω Unit) :
    Follows C job (goOn C (shared, progress) answer).1 (goOn C (shared, progress) answer).2
      (answers ++ [answer]) := by
  intro shared₀
  obtain ⟨hprogress, hshared⟩ := h shared₀
  have hlast : encodeAlone C job shared₀ (answers ++ [answer]) =
      Encode.goOn C ((encodeAlone C job shared₀ answers).1, progress) answer := by
    rw [encodeAlone, List.foldl_concat, ← hprogress]
    rfl
  rw [hlast, isAvif_goOn]
  cases havif : progress.encoder.isAvif with
  | true => simp [hshared havif]
  | false =>
      refine ⟨?_, fun h => absurd h Bool.false_ne_true⟩
      rw [goOn_own C havif _ shared]

/-! ### What holds along every run -/

variable (C P D) in
/-- What is known of a call, while the process keeps `shared`. -/
def Kept (shared : σ) : Phase π ρ χ ℓ ω ε → Prop
  | .idle => True
  | .ready call job => call.job (ω := ω) (ε := ε) P D = .ok job
  | .encoding call job progress answers =>
      call.job (ω := ω) (ε := ε) P D = .ok job ∧ Follows C job shared progress answers
  | .ended call answers act out =>
      ∀ shared₀, encodeWriter C P D call shared₀ answers = (act, out)

/-- Only an encode inside the AVIF encoder relies on what the process keeps. -/
theorem Kept.mono {shared shared' : σ} {phase : Phase π ρ χ ℓ ω ε} (h : Kept C P D shared phase)
    (hshared : phase.inAvif → shared' = shared) : Kept C P D shared' phase := by
  cases phase with
  | idle => trivial
  | ready => exact h
  | ended => exact h
  | encoding call job progress answers =>
      refine ⟨h.1, fun shared₀ => ⟨(h.2 shared₀).1, fun havif => ?_⟩⟩
      rw [hshared havif]
      exact (h.2 shared₀).2 havif

variable (C P D) in
/-- The lock is held by the one encode that is inside the AVIF encoder. -/
structure Apart (s : State γ π ρ χ σ ℓ ω ε) : Prop where
  holds : ∀ c, s.holder = some c ↔ (s.calls c).inAvif
  kept : ∀ c, Kept C P D s.shared (s.calls c)

/-- One call moves on, and the lock and what the process keeps with it. -/
theorem Apart.goto {s : State γ π ρ χ σ ℓ ω ε} (hs : Apart C P D s) {c : γ}
    {phase : Phase π ρ χ ℓ ω ε} {shared : σ} {holder : Option γ} {poisoned : Bool}
    (hkept : Kept C P D shared phase)
    (hshared : ∀ d, d ≠ c → (s.calls d).inAvif → shared = s.shared)
    (hself : holder = some c ↔ phase.inAvif)
    (hothers : ∀ d, d ≠ c → (holder = some d ↔ s.holder = some d)) :
    Apart C P D ⟨Function.update s.calls c phase, shared, holder, poisoned⟩ := by
  constructor
  · intro d
    by_cases hd : d = c
    · subst hd
      simpa using hself
    · simpa [hd] using (hothers d hd).trans (hs.holds d)
  · intro d
    by_cases hd : d = c
    · subst hd
      simpa using hkept
    · simpa [hd] using (hs.kept d).mono (hshared d hd)

theorem Apart.next
    (hreset : ∀ options image shared shared',
      C.avif options image shared = C.avif options image shared')
    {s : State γ π ρ χ σ ℓ ω ε} (hs : Apart C P D s) {e : Event γ π ρ χ ω} (he : s.Enabled e) :
    Apart C P D (s.next C P D e) := by
  cases e with
  | call c call =>
      have hidle : s.holder ≠ some c := by
        rw [Ne, hs.holds]
        cases hc : s.calls c with
        | idle => exact Bool.false_ne_true
        | _ => simp [State.Enabled, hc] at he
      cases hjob : call.job (ω := ω) (ε := ε) P D with
      | error error =>
          simp only [State.next, hjob]
          refine hs.goto (fun shared₀ => ?_) (fun _ _ _ => rfl)
            ⟨fun h => absurd h hidle, fun h => absurd h Bool.false_ne_true⟩ fun _ _ => Iff.rfl
          simp [encodeWriter, hjob]
      | ok job =>
          simp only [State.next, hjob]
          exact hs.goto hjob (fun _ _ _ => rfl)
            ⟨fun h => absurd h hidle, fun h => absurd h Bool.false_ne_true⟩ fun _ _ => Iff.rfl
  | start c =>
      cases hc : s.calls c with
      | ready call job =>
          have hkept := hs.kept c
          rw [hc] at hkept
          have hfree : job.1.format = .avif → s.holder = none := by
            simpa [State.Enabled, hc] using he
          simp only [State.next, hc]
          refine hs.goto ⟨hkept, follows_start hreset job s.shared⟩ ?_ ?_ ?_
          · intro d _ havif
            rw [encodeInto_own C (fun h => ?_) job.2 s.shared s.shared]
            have hholds := (hs.holds d).mpr havif
            simp [hfree h] at hholds
          · rw [Phase.inAvif, isAvif_encodeInto]
            by_cases h : job.1.format = .avif
            · simp [h]
            · simp [h, hs.holds, hc, Phase.inAvif]
          · intro d hd
            rw [isAvif_encodeInto]
            by_cases h : job.1.format = .avif
            · simp [h, hfree h, Ne.symm hd]
            · simp [h]
      | _ => simp [State.Enabled, hc] at he
  | answer c answer =>
      cases hc : s.calls c with
      | encoding call job progress answers =>
          have hkept := hs.kept c
          rw [hc] at hkept
          simp only [State.next, hc]
          refine hs.goto ⟨hkept.1, hkept.2.goOn answer⟩ ?_ ?_ fun _ _ => Iff.rfl
          · intro d hd hdavif
            rw [goOn_own C ?_ s.shared s.shared]
            -- Two encodes are not both inside the encoder.
            by_contra havif
            have hcholds : s.holder = some c := by
              rw [hs.holds, hc]
              simpa [Phase.inAvif] using havif
            have hdholds := (hs.holds d).mpr hdavif
            rw [hcholds] at hdholds
            exact hd (Option.some.inj hdholds).symm
          · have hholds := hs.holds c
            rw [hc] at hholds
            simpa [State.goto, Phase.inAvif, isAvif_goOn] using hholds
      | _ => simp [State.Enabled, hc] at he
  | leave c =>
      cases hc : s.calls c with
      | encoding call job progress answers =>
          have hkept := hs.kept c
          rw [hc] at hkept
          have hended : Kept C P D s.shared (.ended call answers progress.act progress.out) := by
            intro shared₀
            simp [encodeWriter, hkept.1, (hkept.2 shared₀).1]
          have hholds := hs.holds c
          rw [hc] at hholds
          simp only [State.next, hc]
          cases havif : progress.encoder.isAvif with
          | false =>
              simp only [Bool.false_eq_true, if_false]
              refine hs.goto hended (fun _ _ _ => rfl) ?_ fun _ _ => Iff.rfl
              simpa [Phase.inAvif, havif] using hholds
          | true =>
              simp only [if_true]
              have hheld : s.holder = some c := hholds.mpr havif
              refine hs.goto hended (fun _ _ _ => rfl) (by simp [Phase.inAvif]) fun d hd => ?_
              simp [hheld, Ne.symm hd]
      | _ => simp [State.Enabled, hc] at he

theorem apart_of_reachable
    (hreset : ∀ options image shared shared',
      C.avif options image shared = C.avif options image shared')
    {s : State γ π ρ χ σ ℓ ω ε} (hr : (machine C P D).Reachable s) : Apart C P D s := by
  refine hr.invariant (fun s hs => ?_) fun s e s' hs hstep => ?_
  · obtain ⟨hidle, hfree⟩ := hs
    exact ⟨fun c => by simp [hidle c, hfree, Phase.inAvif], fun c => by rw [hidle c]; trivial⟩
  · obtain ⟨he, rfl⟩ := hstep
    exact hs.next hreset he

/-- Whatever other threads encode meanwhile, fail at or panic in, an encode ends as it does
alone and has written what it writes alone; and one that cannot start waits for
another one that is inside the AVIF encoder. -/
theorem encoded_as_alone
    (hreset : ∀ options image shared shared',
      C.avif options image shared = C.avif options image shared')
    {s : State γ π ρ χ σ ℓ ω ε} (hr : (machine C P D).Reachable s) :
    (∀ c call answers act out, s.calls c = .ended call answers act out →
      ∀ shared, encodeWriter C P D call shared answers = (act, out)) ∧
    ∀ c call job, s.calls c = .ready call job → ¬ s.Enabled (.start c) →
      ∃ d, d ≠ c ∧ s.holder = some d ∧ (s.calls d).inAvif := by
  have hs := apart_of_reachable hreset hr
  constructor
  · intro c call answers act out hc
    have hkept := hs.kept c
    rwa [hc] at hkept
  · intro c call job hc hwaits
    cases hheld : s.holder with
    | none => exact absurd (by simp [State.Enabled, hc, hheld]) hwaits
    | some d =>
        refine ⟨d, fun hd => ?_, rfl, (hs.holds d).mp hheld⟩
        have hinside := (hs.holds d).mp hheld
        rw [hd, hc] at hinside
        exact Bool.false_ne_true hinside

end Runs

/-- An encoder that keeps the quality for the process, writes a header and the quality it
finds then, and panics at none. -/
def settings : Codecs Unit Unit Unit UInt8 Bool Unit Unit where
  writeTo _ _ := some (.ok [])
  own _ _ := (true, .done)
  ownNext here _ := (here, .done)
  avif options _ _ := ((options.quality, false), .write [0])
  avifNext x _ :=
    if x.2 then (x, .done)
    else if x.1 = 0 then (x, .panicked)
    else ((x.1, true), .write [x.1])

/-- A picture of one color type. -/
def plain : Pictures Unit := ⟨fun _ => .rgb8, fun _ image => image⟩

def withQuality (quality : UInt8) : Call Unit Unit Unit :=
  ⟨(), .avif, some (.avif ⟨quality, 6, none⟩)⟩

/-- An encode panics while another one waits, which then writes its own quality. -/
def panickedRun : List (Event Bool Unit Unit Unit Unit) :=
  [.call true (withQuality 0), .call false (withQuality 7), .start true,
    .answer true (.ok ()), .leave true, .start false, .answer false (.ok ()),
    .answer false (.ok ()), .leave false]

def before : State Bool Unit Unit Unit UInt8 Bool Unit Unit := ⟨fun _ => .idle, 3, none, false⟩

/-- The state that the run leads to. -/
def afterPanic : State Bool Unit Unit Unit UInt8 Bool Unit Unit :=
  panickedRun.foldl (State.next settings plain ⟨(), ()⟩) before

theorem reachable_afterPanic :
    (machine (γ := Bool) settings plain ⟨(), ()⟩).Reachable afterPanic := by
  refine Machine.Reachable.legal (Machine.Reachable.start ⟨fun _ => rfl, rfl⟩) ?_
  refine ⟨trivial, trivial, fun _ => rfl, trivial, trivial, fun _ => rfl, trivial, trivial,
    trivial, trivial⟩

theorem encoded_as_alone_afterPanic : afterPanic.poisoned = true ∧
    ∀ shared, encodeWriter settings plain ⟨(), ()⟩ (withQuality 7) shared [.ok (), .ok ()] =
      (.done, [0, 7]) :=
  ⟨rfl, (encoded_as_alone (fun _ _ _ _ => rfl) reachable_afterPanic).1 false _ _ _ _ rfl⟩

end Encode

end Image

end RustSak
