import RustSak.Ai.Install
import RustSak.Fetch.Download

/-!
# A verified download

What is in staging of one file: the file itself if an earlier run left it complete,
its partial and the partial's sidecar. `fetchVerified` downloads it, or finds it, and
accepts it by its hash or deletes all three; with a retry it does so once more from
nothing. What a transfer does to the three, and which removals and reads fail, comes
from outside.
-/

namespace RustSak

namespace Ai

namespace Transfers

variable {β : Type}

/-- A file error. -/
inductive IoError where
  | storageFull
  | other (text : String)
  deriving DecidableEq

def IoError.failure : IoError → Failure
  | storageFull => .diskFull
  | other text => .io text

inductive DownloadError where
  | http (status : Option ℕ)
  | io (error : IoError)
  | cancelled
  deriving DecidableEq

/-- What a failed download means. -/
def downloadFailure : DownloadError → Failure
  | .http (some status) => .http status
  | .http none => .network
  | .io error => error.failure
  | .cancelled => .network

/-- What a download did: the bytes it said were on disk, one after the other, what it
left in staging, and the digest it came to, if it was asked for one and came to it. -/
structure Transfer (β : Type) where
  updates : List ℕ
  disk : Fetch.Disk β
  result : Except DownloadError (Option String)

/-- What comes from outside, for the first and for the second attempt: the downloads,
the removals that fail, of the three files in their order, and the reads that fail. -/
structure World (β : Type) where
  transfer : ℕ → Fetch.Args → Fetch.Disk β → Transfer β
  removeFails : ℕ → ℕ → Option IoError
  readFails : ℕ → Option IoError

/-- The bytes a download will find: the complete file, or else its partial. -/
def alreadyOnDisk (disk : Fetch.Disk β) : ℕ :=
  ((disk.target.orElse fun _ => disk.part).getD []).length

/-- The hash names the partial, whatever URL it came from, and a SHA-256 is asked for
where that is what is expected. -/
def requestOptions (url : String) (expected : Hash) : Fetch.Args where
  mode := .resume
  identity := ⟨url, some expected.hex, true⟩
  hashes := expected.isSha256

/-- What an attempt comes to, and what it tells its caller on the way. -/
structure Fetched (β : Type) where
  steps : List Install.Step
  disk : Fetch.Disk β
  result : Except Failure String

section Code

variable (w : World β) (d : Digests β)

/-- `of_file`, on the staged file. -/
def hashStaged (n : ℕ) (expected : Hash) (disk : Fetch.Disk β) :
    Except Failure String :=
  match w.readFails n with
  | some error => .error error.failure
  | none =>
      match disk.target with
      | some bytes => .ok (expected.ofFile d bytes).hex
      | none => .error (.io "No such file or directory")

def fetchHashed (n : ℕ) (url : String) (expected : Hash) (disk : Fetch.Disk β) :
    Fetched β :=
  let wasStaged := disk.target.isSome
  let transfer := w.transfer n (requestOptions url expected) disk
  let steps := .onDisk (alreadyOnDisk disk) :: transfer.updates.map .onDisk
  match transfer.result with
  | .error cause => ⟨steps, transfer.disk, .error (downloadFailure cause)⟩
  | .ok (some digest) => ⟨steps, transfer.disk, .ok digest⟩
  | .ok none =>
      let steps := if wasStaged then steps ++ [.verifying] else steps
      ⟨steps, transfer.disk, hashStaged w d n expected transfer.disk⟩

/-- Only what is there can fail to be removed. -/
def removeIfPresent (present : Bool) (fails : Option IoError) : Except Failure Unit :=
  match fails with
  | some error => if present then .error error.failure else .ok ()
  | none => .ok ()

/-- The file, its partial and its sidecar, up to the first that is not removed. -/
def discard (n : ℕ) (disk : Fetch.Disk β) : Fetch.Disk β × Except Failure Unit :=
  match removeIfPresent disk.target.isSome (w.removeFails n 0) with
  | .error failure => (disk, .error failure)
  | .ok () =>
      let disk := { disk with target := none }
      match removeIfPresent disk.part.isSome (w.removeFails n 1) with
      | .error failure => (disk, .error failure)
      | .ok () =>
          let disk := { disk with part := none }
          match removeIfPresent (disk.sidecar != .absent) (w.removeFails n 2) with
          | .error failure => (disk, .error failure)
          | .ok () => ({ disk with sidecar := .absent }, .ok ())

/-- What a verified download comes to, with what was in staging whenever a download
was started and what the downloads before the last came to. -/
structure Verified (β : Type) where
  steps : List Install.Step
  disk : Fetch.Disk β
  started : List (Fetch.Disk β)
  refused : List String
  result : Except Failure Unit

def damaged (file : RemoteFile) (digest : String) : Failure :=
  .damaged file.path file.hash.hex digest

/-- An attempt that comes to the wrong digest is discarded, and `further` follows. -/
def attempt (n : ℕ) (url : String) (file : RemoteFile) (disk : Fetch.Disk β)
    (further : Fetch.Disk β → String → Verified β) : Verified β :=
  let fetched := fetchHashed w d n url file.hash disk
  match fetched.result with
  | .error failure => ⟨fetched.steps, fetched.disk, [disk], [], .error failure⟩
  | .ok digest =>
      if file.hash.isHex digest then ⟨fetched.steps, fetched.disk, [disk], [], .ok ()⟩
      else
        match discard w n fetched.disk with
        | (disk', .error failure) =>
            ⟨fetched.steps, disk', [disk], [], .error failure⟩
        | (disk', .ok ()) =>
            let rest := further disk' digest
            { rest with
              steps := fetched.steps ++ rest.steps
              started := disk :: rest.started
              refused := digest :: rest.refused }

def fetchVerified (url : String) (file : RemoteFile) (retry : Bool)
    (disk : Fetch.Disk β) : Verified β :=
  let fails := fun disk digest => ⟨[], disk, [], [], .error (damaged file digest)⟩
  attempt w d 0 url file disk fun disk digest =>
    if retry then attempt w d 1 url file disk fails else fails disk digest

end Code

section Ends

variable {w : World β} {d : Digests β}

/-- A download that succeeds leaves the whole file in its place, and reports a digest
only if it was asked for one, and then the file's. -/
def Faithful (w : World β) (d : Digests β) : Prop :=
  ∀ n args disk digest, (w.transfer n args disk).result = .ok digest →
    ∃ bytes, (w.transfer n args disk).disk.target = some bytes ∧
      ∀ hex ∈ digest, args.hashes = true ∧ hex = d.sha256 bytes

/-- Nothing is left in staging. -/
def nothing : Fetch.Disk β := ⟨none, none, .absent⟩

def Failure.IsDamaged : Failure → Prop
  | .damaged _ _ _ => True
  | _ => False

theorem IoError.not_damaged (error : IoError) : ¬Failure.IsDamaged error.failure := by
  cases error with
  | storageFull => exact id
  | other text => exact id

theorem downloadFailure_not_damaged (cause : DownloadError) :
    ¬Failure.IsDamaged (downloadFailure cause) := by
  cases cause with
  | http status =>
      cases status with
      | none => exact id
      | some status => exact id
  | io error => exact error.not_damaged
  | cancelled => exact id

theorem hashStaged_not_damaged {n : ℕ} {expected : Hash} {disk : Fetch.Disk β}
    {failure : Failure} (h : hashStaged w d n expected disk = .error failure) :
    ¬Failure.IsDamaged failure := by
  unfold hashStaged at h
  split at h
  · obtain rfl := Except.error.inj h
    exact IoError.not_damaged _
  · split at h
    · cases h
    · obtain rfl := Except.error.inj h
      exact id

theorem fetchHashed_not_damaged {n : ℕ} {url : String} {expected : Hash}
    {disk : Fetch.Disk β} {failure : Failure}
    (h : (fetchHashed w d n url expected disk).result = .error failure) :
    ¬Failure.IsDamaged failure := by
  unfold fetchHashed at h
  dsimp only at h
  split at h
  · obtain rfl := Except.error.inj h
    exact downloadFailure_not_damaged _
  · cases h
  · exact hashStaged_not_damaged h

/-- What an attempt comes to is the digest of what is in the file's place. -/
theorem fetchHashed_eq_ok (hfaithful : Faithful w d) {n : ℕ} {url : String}
    {expected : Hash} {disk : Fetch.Disk β} {digest : String}
    (h : (fetchHashed w d n url expected disk).result = .ok digest) :
    ∃ bytes, (fetchHashed w d n url expected disk).disk.target = some bytes ∧
      digest = (expected.ofFile d bytes).hex := by
  unfold fetchHashed at h ⊢
  dsimp only at h ⊢
  cases hresult : (w.transfer n (requestOptions url expected) disk).result with
  | error cause =>
      rw [hresult] at h
      cases h
  | ok reported =>
      obtain ⟨bytes, htarget, htrue⟩ := hfaithful _ _ _ _ hresult
      rw [hresult] at h
      refine ⟨bytes, ?_, ?_⟩
      · cases reported <;> exact htarget
      · cases reported with
        | some hex =>
            obtain rfl := Except.ok.inj h
            obtain ⟨hsha, rfl⟩ := htrue hex rfl
            cases expected with
            | sha256 hex => rfl
            | gitBlobSha1 hex => cases hsha
        | none =>
            change hashStaged w d n expected _ = .ok digest at h
            unfold hashStaged at h
            split at h
            · cases h
            · rw [htarget] at h
              exact (Except.ok.inj h).symm

theorem removeIfPresent_not_damaged {present : Bool} {fails : Option IoError}
    {failure : Failure} (h : removeIfPresent present fails = .error failure) :
    ¬Failure.IsDamaged failure := by
  unfold removeIfPresent at h
  split at h
  · split at h
    · obtain rfl := Except.error.inj h
      exact IoError.not_damaged _
    · cases h
  · cases h

theorem discard_eq_ok {n : ℕ} {disk disk' : Fetch.Disk β}
    (h : discard w n disk = (disk', .ok ())) : disk' = nothing := by
  unfold discard at h
  split at h
  · cases h
  · dsimp only at h
    split at h
    · cases h
    · split at h
      · cases h
      · exact (congrArg Prod.fst h).symm

theorem discard_not_damaged {n : ℕ} {disk disk' : Fetch.Disk β} {failure : Failure}
    (h : discard w n disk = (disk', .error failure)) : ¬Failure.IsDamaged failure := by
  unfold discard at h
  split at h
  · rename_i hremove
    obtain rfl := Except.error.inj (congrArg Prod.snd h)
    exact removeIfPresent_not_damaged hremove
  · dsimp only at h
    split at h
    · rename_i hremove
      obtain rfl := Except.error.inj (congrArg Prod.snd h)
      exact removeIfPresent_not_damaged hremove
    · split at h
      · rename_i hremove
        obtain rfl := Except.error.inj (congrArg Prod.snd h)
        exact removeIfPresent_not_damaged hremove
      · cases h

/-- A verified file is left, or nothing where it is said to be damaged. -/
structure Ends (d : Digests β) (file : RemoteFile) (v : Verified β) : Prop where
  verified : v.result = .ok () →
    ∃ bytes, v.disk.target = some bytes ∧ file.hash.verifies d bytes = true
  clean : ∀ failure, v.result = .error failure → Failure.IsDamaged failure →
    v.disk = nothing

/-- An attempt ends well if what follows a discarded one does. -/
theorem attempt_ends (hfaithful : Faithful w d) (n : ℕ) (url : String)
    (file : RemoteFile) (disk : Fetch.Disk β)
    {further : Fetch.Disk β → String → Verified β}
    (hfurther : ∀ digest, Ends d file (further nothing digest)) :
    Ends d file (attempt w d n url file disk further) := by
  unfold attempt
  dsimp only
  split
  · rename_i failure hresult
    refine ⟨nofun, fun failure' h hdamaged => ?_⟩
    obtain rfl := Except.error.inj h
    exact absurd hdamaged (fetchHashed_not_damaged hresult)
  · rename_i digest hresult
    obtain ⟨bytes, htarget, rfl⟩ := fetchHashed_eq_ok hfaithful hresult
    split
    · rename_i hmatches
      exact ⟨fun _ => ⟨bytes, htarget, hmatches⟩, nofun⟩
    · split
      · rename_i disk' failure hdiscard
        refine ⟨nofun, fun failure' h hdamaged => ?_⟩
        obtain rfl := Except.error.inj h
        exact absurd hdamaged (discard_not_damaged hdiscard)
      · rename_i disk' hdiscard
        obtain rfl := discard_eq_ok hdiscard
        exact ⟨(hfurther _).verified, (hfurther _).clean⟩

/-- Another download is started only after one that came to a wrong digest, with nothing
of it left. -/
theorem attempt_started (n : ℕ) (url : String) (file : RemoteFile) (disk : Fetch.Disk β)
    (further : Fetch.Disk β → String → Verified β) :
    (attempt w d n url file disk further).started = [disk] ∨ ∃ digest,
      (fetchHashed w d n url file.hash disk).result = .ok digest ∧
      file.hash.isHex digest = false ∧
      (attempt w d n url file disk further).started =
        disk :: (further nothing digest).started := by
  unfold attempt
  dsimp only
  split
  · exact .inl rfl
  · rename_i digest hresult
    split
    · exact .inl rfl
    · rename_i hmatches
      split
      · exact .inl rfl
      · rename_i disk' hdiscard
        obtain rfl := discard_eq_ok hdiscard
        exact .inr ⟨digest, hresult, Bool.eq_false_iff.mpr hmatches, rfl⟩

theorem fails_ends (file : RemoteFile) (digest : String) :
    Ends d file ⟨[], nothing, [], [], .error (damaged file digest)⟩ :=
  ⟨nofun, fun _ _ _ => rfl⟩

theorem fetchVerified_ends (hfaithful : Faithful w d) (url : String) (file : RemoteFile)
    (retry : Bool) (disk : Fetch.Disk β) :
    Ends d file (fetchVerified w d url file retry disk) := by
  refine attempt_ends hfaithful 0 url file disk fun digest => ?_
  cases retry with
  | true => exact attempt_ends hfaithful 1 url file nothing (fails_ends file)
  | false => exact fails_ends file digest

/-- A verified download ends with the verified file in its place or, where it is said to
be damaged, with nothing of it. At most two downloads are started, the second only as a
retry after the first came to a wrong digest, and with nothing left of it. -/
theorem fetchVerified_verified_or_clean (hfaithful : Faithful w d) (url : String)
    (file : RemoteFile) (retry : Bool) (disk : Fetch.Disk β) :
    ((fetchVerified w d url file retry disk).result = .ok () →
      ∃ bytes, (fetchVerified w d url file retry disk).disk.target = some bytes ∧
        file.hash.verifies d bytes = true) ∧
    (∀ path expected actual, (fetchVerified w d url file retry disk).result =
        .error (.damaged path expected actual) →
      (fetchVerified w d url file retry disk).disk = nothing) ∧
    ((fetchVerified w d url file retry disk).started = [disk] ∨
      retry = true ∧
      (fetchVerified w d url file retry disk).started = [disk, nothing] ∧
      ∃ digest, (fetchHashed w d 0 url file.hash disk).result = .ok digest ∧
        file.hash.isHex digest = false) := by
  have hends := fetchVerified_ends hfaithful url file retry disk
  refine ⟨hends.verified, fun path expected actual h => hends.clean _ h trivial, ?_⟩
  rcases attempt_started 0 url file disk _ with hone | ⟨digest, hresult, hwrong, hmore⟩
  · exact .inl hone
  · cases retry with
    | false => exact .inl hmore
    | true =>
        refine .inr ⟨rfl, ?_, digest, hresult, hwrong⟩
        refine Eq.trans hmore (congrArg (disk :: ·) ?_)
        rcases attempt_started 1 url file nothing _ with hone | ⟨_, _, _, htwo⟩
        · exact hone
        · exact htwo

/-- A server of the one byte 7, which leaves a complete file where it is. -/
def sevens : World ℕ where
  transfer _ args disk :=
    if disk.target.isSome then ⟨[], disk, .ok none⟩
    else ⟨[1], ⟨some [7], none, .absent⟩, .ok (if args.hashes then some "07" else none)⟩
  removeFails _ _ := none
  readFails _ := none

def sevenDigests : Digests ℕ where
  sha256 bytes := if bytes = [7] then "07" else "00"
  gitBlobSha1 _ := "00"

theorem sevens_faithful : Faithful sevens sevenDigests := by
  intro n args disk digest h
  obtain ⟨target, part, sidecar⟩ := disk
  cases target with
  | some bytes =>
      obtain rfl : none = digest := Except.ok.inj h
      exact ⟨bytes, rfl, by simp⟩
  | none =>
      obtain rfl := Except.ok.inj h
      refine ⟨[7], rfl, fun hex hhex => ?_⟩
      cases hhashes : args.hashes with
      | true =>
          rw [hhashes] at hhex
          exact ⟨rfl, (Option.mem_some.mp hhex).symm⟩
      | false =>
          rw [hhashes] at hhex
          exact absurd hhex (by simp)

/-- A file of other bytes in staging is deleted, and the retry downloads it. -/
theorem fetchVerified_verified_or_clean_sevens :
    (fetchVerified sevens sevenDigests "u" ⟨"f", 1, .sha256 "07"⟩ true
        ⟨some [8], none, .absent⟩).started = [⟨some [8], none, .absent⟩, nothing] ∧
    ∃ bytes, (fetchVerified sevens sevenDigests "u" ⟨"f", 1, .sha256 "07"⟩ true
        ⟨some [8], none, .absent⟩).disk.target = some bytes ∧
      (Hash.sha256 "07").verifies sevenDigests bytes = true :=
  ⟨by decide +kernel,
    (fetchVerified_verified_or_clean sevens_faithful "u" ⟨"f", 1, .sha256 "07"⟩ true
      ⟨some [8], none, .absent⟩).1 (by decide +kernel)⟩

/-- What an install makes of a verified download is what it makes of its bytes. -/
theorem install_fetchVerified (c : Setting β) (hfaithful : Faithful w c.digests)
    {url : String} {file : RemoteFile} {retry : Bool} {disk : Fetch.Disk β}
    (h : (fetchVerified w c.digests url file retry disk).result = .ok ()) :
    ∃ bytes, (fetchVerified w c.digests url file retry disk).disk.target = some bytes ∧
      Install.fetchVerified c file (.ok bytes) = .ok bytes := by
  obtain ⟨bytes, htarget, hverifies⟩ :=
    (fetchVerified_ends hfaithful url file retry disk).verified h
  refine ⟨bytes, htarget, ?_⟩
  simp only [Install.fetchVerified, bind, Except.bind, hverifies, if_true]

end Ends

end Transfers

end Ai

end RustSak
