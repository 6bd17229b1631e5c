import RustSak.Ai.Hub
import RustSak.Fetch.Digest
import Mathlib.Data.List.Infix

/-!
# Hashes of files

Files are read a chunk at a time, each read being of the file as it is by then, cut anywhere and
interrupted at will. The hash function is a parameter: what is relied on is that bytes may be fed
to it in pieces.
-/

namespace RustSak

namespace Crypto

/-- A hash that is fed in pieces; `finish` is in hex. -/
structure Digest (κ : Type) where
  new : κ
  update : κ → List UInt8 → κ
  finish : κ → String
  update_nil : ∀ s, update s [] = s
  update_append : ∀ s bytes later, update (update s bytes) later = update s (bytes ++ later)

variable {κ : Type} (d : Digest κ)

/-- The hash of bytes at once, `sha256_bytes` or `sha1_bytes`. -/
def Digest.ofBytes (bytes : List UInt8) : String := d.finish (d.update d.new bytes)

/-- A hash that has taken the header of a git blob of so many bytes. -/
def gitBlobHasher (length : ℕ) : κ :=
  d.update d.new (("blob " ++ toString length).toUTF8.data.toList ++ [0])

def gitBlobSha1Bytes (bytes : List UInt8) : String :=
  d.finish (d.update (gitBlobHasher d bytes.length) bytes)

inductive IoError where
  | os (message : String)
  | invalidData (message : String)
  | unexpectedEof (message : String)
  deriving DecidableEq

/-- What a read answers: `read []` is the end of the file. -/
inductive ReadAnswer where
  | read (bytes : List UInt8)
  | interrupted
  | failed (error : IoError)

/-! ## The loops -/

/-- `none` while there are more answers to come. -/
def forEachChunk {τ : Type} (consume : τ → List UInt8 → τ) :
    τ → List ReadAnswer → Option (Except IoError τ)
  | _, [] => none
  | s, .read [] :: _ => some (.ok s)
  | s, .read (byte :: bytes) :: answers => forEachChunk consume (consume s (byte :: bytes)) answers
  | s, .interrupted :: answers => forEachChunk consume s answers
  | _, .failed error :: _ => some (.error error)

/-- `sha256_file` or `sha1_file`. -/
def Digest.ofFile (file : Except IoError (List ReadAnswer)) : Option (Except IoError String) :=
  match file with
  | .error error => some (.error error)
  | .ok answers => (forEachChunk d.update d.new answers).map (Except.map d.finish)

/-- What the file's metadata says of its length comes first. -/
def gitBlobSha1File (path : String) (length : Except IoError ℕ)
    (file : Except IoError (List ReadAnswer)) : Option (Except IoError String) :=
  match length, file with
  | .error error, _ => some (.error error)
  | .ok _, .error error => some (.error error)
  | .ok length, .ok answers =>
      (forEachChunk (fun (s : κ × ℕ) chunk => (d.update s.1 chunk, (s.2 + chunk.length) % 2 ^ 64))
        (gitBlobHasher d length, 0) answers).map fun ended =>
          ended.bind fun s =>
            if s.2 = length then .ok (d.finish s.1)
            else .error (.invalidData (path ++ " changed length while it was hashed (" ++
              toString length ++ " bytes, then " ++ toString s.2 ++ ")"))

/-- A range goes on behind the end of the file. -/
def shorter : IoError :=
  .unexpectedEof "partial file is shorter than the offset the transfer resumed from"

/-- `update_range`, once the file is open and at the start of the range; interrupted reads are
made again below it. -/
def updateRange : κ → List ReadAnswer → ℕ → Option (Except IoError κ)
  | s, _, 0 => some (.ok s)
  | _, [], _ + 1 => none
  | _, .read [] :: _, _ + 1 => some (.error shorter)
  | s, .read (byte :: bytes) :: answers, remaining + 1 =>
      updateRange (d.update s (byte :: bytes)) answers (remaining - bytes.length)
  | s, .interrupted :: answers, remaining + 1 => updateRange s answers (remaining + 1)
  | _, .failed error :: _, _ + 1 => some (.error error)

/-- `hash_prefix`: what the checkpoint has hashed is not read again. -/
def hashPrefix (checkpoint : Option (κ × ℕ)) (offset : ℕ) (answers : List ReadAnswer) :
    Option (Except IoError κ) :=
  let carried := (checkpoint.filter fun c => c.2 ≤ offset).getD (d.new, 0)
  if carried.2 < offset then updateRange d carried.1 answers (offset - carried.2)
  else some (.ok carried.1)

/-- `verify_file`, of a hash of either kind. -/
def verifyFile {κ' : Type} (sha1 : Digest κ') (path : String) (hash : Ai.Hash)
    (length : Except IoError ℕ) (file : Except IoError (List ReadAnswer)) :
    Option (Except IoError Bool) :=
  match hash with
  | .sha256 _ => (d.ofFile file).map (Except.map hash.isHex)
  | .gitBlobSha1 _ => (gitBlobSha1File sha1 path length file).map (Except.map hash.isHex)

/-! ## Reads -/

def chunkSize : ℕ := 64 * 1024

/-- The answers to the reads of a file from `position` on, made one after another from the
`time`th on, of what the file has then; each into a buffer of `room` bytes, and no more than
`remaining` altogether. They end with the file, with an error, or with nothing remaining. -/
inductive Reads (content : ℕ → List UInt8) : ℕ → ℕ → Option ℕ → List ReadAnswer → Prop
  | full {time position : ℕ} : Reads content time position (some 0) []
  | ended {time position : ℕ} {remaining : Option ℕ} (hsome : remaining ≠ some 0)
      (h : (content time).length ≤ position) : Reads content time position remaining [.read []]
  | failed {time position : ℕ} {remaining : Option ℕ} {error : IoError}
      (hsome : remaining ≠ some 0) : Reads content time position remaining [.failed error]
  | interrupted {time position : ℕ} {remaining : Option ℕ} {answers : List ReadAnswer}
      (hsome : remaining ≠ some 0)
      (hrest : Reads content (time + 1) position remaining answers) :
      Reads content time position remaining (.interrupted :: answers)
  | read {time position : ℕ} {remaining : Option ℕ} {bytes : List UInt8}
      {answers : List ReadAnswer} (hbytes : bytes ≠ []) (hroom : bytes.length ≤ chunkSize)
      (hremaining : ∀ n, remaining = some n → bytes.length ≤ n)
      (hcontent : bytes <+: (content time).drop position)
      (hrest : Reads content (time + 1) (position + bytes.length)
        (remaining.map (· - bytes.length)) answers) :
      Reads content time position remaining (.read bytes :: answers)

def chunks : List ReadAnswer → List (List UInt8)
  | [] => []
  | .read [] :: _ => []
  | .read (byte :: bytes) :: answers => (byte :: bytes) :: chunks answers
  | .interrupted :: answers => chunks answers
  | .failed _ :: _ => []

def ending : List ReadAnswer → Option (Except IoError Unit)
  | [] => none
  | .read [] :: _ => some (.ok ())
  | .read _ :: answers => ending answers
  | .interrupted :: answers => ending answers
  | .failed error :: _ => some (.error error)

variable {d}

theorem Digest.foldl_update (chunks : List (List UInt8)) (s : κ) :
    chunks.foldl d.update s = d.update s chunks.flatten := by
  induction chunks generalizing s with
  | nil => exact (d.update_nil s).symm
  | cons chunk chunks ih =>
      rw [List.foldl_cons, ih, d.update_append, List.flatten_cons]

/-- The loop consumes the chunks one after another, and ends as the reads do. -/
theorem forEachChunk_eq {τ : Type} (consume : τ → List UInt8 → τ) (s : τ)
    (answers : List ReadAnswer) :
    forEachChunk consume s answers =
      (ending answers).map (Except.map fun _ => (chunks answers).foldl consume s) := by
  induction answers generalizing s with
  | nil => rfl
  | cons answer answers ih =>
      cases answer with
      | read bytes =>
          cases bytes with
          | nil => rfl
          | cons byte bytes => exact ih _
      | interrupted => exact ih s
      | failed error => rfl

variable {content : ℕ → List UInt8} {answers : List ReadAnswer}

/-- Of a file that stays as it is, what is read is what it has there, to its end if the reads
end with it, and as much as remained if they end with that. -/
theorem Reads.flatten_chunks {time position : ℕ} {remaining : Option ℕ} {whole : List UInt8}
    (h : Reads content time position remaining answers) (hcontent : ∀ time, content time = whole) :
    (ending answers = some (.ok ()) → (Crypto.chunks answers).flatten = whole.drop position ∧
      ∀ n, remaining = some n → whole.length < position + n) ∧
    (ending answers = none → ∃ n, remaining = some n ∧
      (Crypto.chunks answers).flatten = (whole.drop position).take n ∧
      (0 < n → position + n ≤ whole.length)) := by
  induction h with
  | full => exact ⟨nofun, fun _ => ⟨0, rfl, (List.take_zero).symm, nofun⟩⟩
  | @ended time position remaining hsome hend =>
      rw [hcontent] at hend
      refine ⟨fun _ => ⟨(List.drop_eq_nil_of_le hend).symm, fun n hn => ?_⟩, nofun⟩
      cases n with
      | zero => exact absurd hn hsome
      | succ n => omega
  | failed => exact ⟨nofun, nofun⟩
  | interrupted hsome hrest ih => exact ih
  | @read time position remaining bytes answers hbytes hroom hremaining hprefix hrest ih =>
      cases bytes with
      | nil => exact absurd rfl hbytes
      | cons byte bytes =>
          obtain ⟨rest, hrest'⟩ := hprefix
          rw [hcontent] at hrest'
          have hsplit : whole.drop position =
              (byte :: bytes) ++ whole.drop (position + (byte :: bytes).length) := by
            rw [← List.drop_drop, ← hrest', List.drop_left]
          have hlength : position + (byte :: bytes).length ≤ whole.length := by
            have hdrop := congrArg List.length hrest'
            rw [List.length_append, List.length_drop, List.length_cons] at hdrop
            rw [List.length_cons]
            omega
          refine ⟨fun hend => ?_, fun hend => ?_⟩
          · obtain ⟨hflatten, hshort⟩ := ih.1 hend
            refine ⟨?_, fun n hn => ?_⟩
            · rw [hsplit, ← hflatten]
              rfl
            · have hlt := hshort (n - (byte :: bytes).length) (by rw [hn]; rfl)
              have hle := hremaining n hn
              omega
          · obtain ⟨m, hm, hflatten, hwithin⟩ := ih.2 hend
            cases remaining with
            | none => cases hm
            | some n =>
                obtain rfl : n - (byte :: bytes).length = m := Option.some.inj hm
                have hle := hremaining n rfl
                refine ⟨n, rfl, ?_, fun _ => ?_⟩
                · rw [hsplit, List.take_append, List.take_of_length_le hle, ← hflatten]
                  rfl
                · by_cases hmore : 0 < n - (byte :: bytes).length
                  · have hwithin := hwithin hmore
                    omega
                  · omega

variable (d)

theorem foldl_count (chunks : List (List UInt8)) (s : κ) (n : ℕ) :
    chunks.foldl (fun (s : κ × ℕ) chunk => (d.update s.1 chunk, (s.2 + chunk.length) % 2 ^ 64))
      (s, n % 2 ^ 64) = (d.update s chunks.flatten, (n + chunks.flatten.length) % 2 ^ 64) := by
  induction chunks generalizing s n with
  | nil => rw [List.foldl_nil, List.flatten_nil, d.update_nil, List.length_nil, Nat.add_zero]
  | cons chunk chunks ih =>
      rw [List.foldl_cons, Nat.mod_add_mod, ih, d.update_append, List.flatten_cons,
        List.length_append, Nat.add_assoc]

/-- A streamed hash ends as the reads do, with the hash of the bytes that were read. -/
theorem ofFile_eq (answers : List ReadAnswer) :
    d.ofFile (.ok answers) = (ending answers).map
      (Except.map fun _ => d.ofBytes (chunks answers).flatten) := by
  simp only [Digest.ofFile, forEachChunk_eq, Digest.foldl_update, Option.map_map]
  refine congrArg (fun f => (ending answers).map f) (funext fun ended => ?_)
  cases ended <;> rfl

/-- Git's blob hash is given just if as many bytes are read as its header says. -/
theorem gitBlobSha1File_eq_ok {answers : List ReadAnswer} {path : String} {length : ℕ}
    {hex : String} (hsize : (chunks answers).flatten.length < 2 ^ 64) :
    gitBlobSha1File d path (.ok length) (.ok answers) = some (.ok hex) ↔
      ending answers = some (.ok ()) ∧ (chunks answers).flatten.length = length ∧
        hex = gitBlobSha1Bytes d (chunks answers).flatten := by
  have hcount := foldl_count d (chunks answers) (gitBlobHasher d length) 0
  rw [Nat.zero_mod, Nat.zero_add, Nat.mod_eq_of_lt hsize] at hcount
  simp only [gitBlobSha1File, forEachChunk_eq, hcount]
  cases hended : ending answers with
  | none => exact ⟨nofun, fun hok => nomatch hok.1⟩
  | some ended =>
      cases ended with
      | error error => exact ⟨nofun, fun hok => nomatch hok.1⟩
      | ok done =>
          change some (if (chunks answers).flatten.length = length then _ else _) = _ ↔ _
          by_cases hlength : (chunks answers).flatten.length = length
          · rw [if_pos hlength, gitBlobSha1Bytes, hlength]
            constructor
            · intro hok
              exact ⟨rfl, rfl, (Except.ok.inj (Option.some.inj hok)).symm⟩
            · rintro ⟨_, _, rfl⟩
              rfl
          · rw [if_neg hlength]
            exact ⟨nofun, fun hok => absurd hok.2.1 hlength⟩

/-- However a file is read, a streamed hash is that of the bytes that were read, git's blob hash is
given just if they are as many as its header says, and a file is accepted just if they have the
hash that is asked for. Read to its end, a file that stays as it is has the hashes of its
contents. -/
theorem streamed_as_read {κ' : Type} (sha1 : Digest κ') (path : String) (length : ℕ)
    (answers : List ReadAnswer) (hsize : (chunks answers).flatten.length < 2 ^ 64) :
    (∀ hex, d.ofFile (.ok answers) = some (.ok hex) → hex = d.ofBytes (chunks answers).flatten) ∧
    (∀ hex, gitBlobSha1File sha1 path (.ok length) (.ok answers) = some (.ok hex) →
      (chunks answers).flatten.length = length ∧
        hex = gitBlobSha1Bytes sha1 (chunks answers).flatten) ∧
    (∀ hash, verifyFile d sha1 path hash (.ok length) (.ok answers) = some (.ok true) →
      hash.verifies ⟨d.ofBytes, gitBlobSha1Bytes sha1⟩ (chunks answers).flatten = true) ∧
    ∀ whole, Reads (fun _ => whole) 0 0 none answers → ending answers = some (.ok ()) →
      d.ofFile (.ok answers) = some (.ok (d.ofBytes whole)) ∧
      gitBlobSha1File sha1 path (.ok whole.length) (.ok answers) =
        some (.ok (gitBlobSha1Bytes sha1 whole)) := by
  have hhex : ∀ hex, d.ofFile (.ok answers) = some (.ok hex) →
      hex = d.ofBytes (chunks answers).flatten := by
    intro hex hok
    rw [ofFile_eq] at hok
    obtain ⟨ended, _, hended⟩ := Option.map_eq_some_iff.mp hok
    cases ended with
    | error error => cases hended
    | ok done => exact (Except.ok.inj hended).symm
  refine ⟨hhex, fun hex hok => ?_, fun hash hok => ?_, fun whole h hend => ?_⟩
  · exact ((gitBlobSha1File_eq_ok sha1 hsize).mp hok).2
  · cases hash with
    | sha256 expected =>
        obtain ⟨ended, hended, htrue⟩ := Option.map_eq_some_iff.mp hok
        cases ended with
        | error error => cases htrue
        | ok hex =>
            rw [hhex hex hended] at htrue
            exact Except.ok.inj htrue
    | gitBlobSha1 expected =>
        obtain ⟨ended, hended, htrue⟩ := Option.map_eq_some_iff.mp hok
        cases ended with
        | error error => cases htrue
        | ok hex =>
            rw [((gitBlobSha1File_eq_ok sha1 hsize).mp hended).2.2] at htrue
            exact Except.ok.inj htrue
  · have hwhole : (chunks answers).flatten = whole := ((h.flatten_chunks fun _ => rfl).1 hend).1
    refine ⟨?_, (gitBlobSha1File_eq_ok sha1 hsize).mpr ⟨hend, ?_, ?_⟩⟩
    · rw [ofFile_eq, hend, hwhole]
      rfl
    · rw [hwhole]
    · rw [hwhole]

/-- `bytes` are their own hash. -/
def itself : Digest (List UInt8) where
  new := []
  update := (· ++ ·)
  finish bytes := toString bytes
  update_nil := List.append_nil
  update_append := List.append_assoc

def interruptedReads : List ReadAnswer := [.read [1, 2], .interrupted, .read [3], .read []]

theorem streamed_as_read_interruptedReads :
    itself.ofFile (.ok interruptedReads) = some (.ok (itself.ofBytes [1, 2, 3])) ∧
    gitBlobSha1File itself "a" (.ok 3) (.ok interruptedReads) =
      some (.ok (gitBlobSha1Bytes itself [1, 2, 3])) := by
  have hreads : Reads (fun _ => [1, 2, 3]) 0 0 none interruptedReads :=
    .read (by decide) (by decide) nofun (by decide)
      (.interrupted (by decide) (.read (by decide) (by decide) nofun (by decide)
        (.ended (by decide) (by decide))))
  exact (streamed_as_read itself itself "a" 3 interruptedReads (by decide)).2.2.2 [1, 2, 3] hreads
    rfl

/-! ## The prefix of a resumed download -/

theorem Reads.of_zero {time position : ℕ} (h : Reads content time position (some 0) answers) :
    answers = [] := by
  generalize hnone : some 0 = remaining at h
  cases h with
  | full => rfl
  | read hbytes hroom hle => exact absurd (hle 0 hnone.symm) (by simpa using hbytes)
  | ended hsome => exact absurd hnone.symm hsome
  | failed hsome => exact absurd hnone.symm hsome
  | interrupted hsome => exact absurd hnone.symm hsome

/-- How the hash of a range ends: an end of the file before its own is an error. -/
def rangeEnding {τ : Type} (hashed : τ) : Option (Except IoError Unit) → Except IoError τ
  | none => .ok hashed
  | some (.ok ()) => .error shorter
  | some (.error error) => .error error

theorem updateRange_eq {time position n : ℕ} (s : κ)
    (h : Reads content time position (some n) answers) :
    updateRange d s answers n =
      some (rangeEnding (d.update s (chunks answers).flatten) (ending answers)) := by
  generalize hremaining : some n = remaining at h
  induction h generalizing n s with
  | full =>
      obtain rfl : n = 0 := Option.some.inj hremaining
      change some (Except.ok s) = some (Except.ok (d.update s []))
      rw [d.update_nil]
  | ended hsome hend =>
      cases n with
      | zero => exact absurd hremaining.symm hsome
      | succ n => rfl
  | failed hsome =>
      cases n with
      | zero => exact absurd hremaining.symm hsome
      | succ n => rfl
  | interrupted hsome hrest ih =>
      cases n with
      | zero => exact absurd hremaining.symm hsome
      | succ n => exact ih s hremaining
  | @read time position remaining bytes answers hbytes hroom hle hcontent hrest ih =>
      cases bytes with
      | nil => exact absurd rfl hbytes
      | cons byte bytes =>
          cases n with
          | zero => exact absurd (hle 0 hremaining.symm) (Nat.not_succ_le_zero _)
          | succ n =>
              have hlater : some (n - bytes.length) =
                  remaining.map (· - (byte :: bytes).length) := by
                rw [← hremaining, Option.map_some, List.length_cons, Nat.add_sub_add_right]
              refine (ih (d.update s (byte :: bytes)) hlater).trans ?_
              rw [d.update_append]
              rfl

/-- What is hashed of a prefix goes on where the carried hash stops. -/
theorem hashPrefix_of_covers {checkpoint : Option (List UInt8 × ℕ)} {disk : Fetch.Disk UInt8}
    {part : List UInt8} (h : Fetch.Covers checkpoint disk) (hpart : disk.part = some part)
    (offset : ℕ) : Fetch.hashPrefix checkpoint part offset = part.take offset := by
  unfold Fetch.hashPrefix
  cases hcarried : checkpoint.filter fun c => c.2 ≤ offset with
  | none => simp
  | some carried =>
      obtain ⟨hashed, n⟩ := carried
      obtain ⟨hcheckpoint, hle⟩ := Option.filter_eq_some_iff.mp hcarried
      obtain ⟨_, rfl⟩ := h hashed n part hcheckpoint hpart
      rw [Option.getD_some, ← List.take_add, Nat.add_sub_cancel' (of_decide_eq_true hle)]

/-- Where the reads of a prefix begin: what a carried hash covers is not read again. -/
def carriedTo (checkpoint : Option (List UInt8 × ℕ)) (offset : ℕ) : ℕ :=
  ((checkpoint.filter fun c => c.2 ≤ offset).getD ([], 0)).2

theorem carriedTo_le (checkpoint : Option (List UInt8 × ℕ)) (offset : ℕ) :
    carriedTo checkpoint offset ≤ offset := by
  unfold carriedTo
  cases hkept : checkpoint.filter fun c => c.2 ≤ offset with
  | none => exact Nat.zero_le offset
  | some c => exact of_decide_eq_true (Option.filter_eq_some_iff.mp hkept).2

variable {checkpoint : Option (List UInt8 × ℕ)} {part : List UInt8} {offset : ℕ}

/-- The hash of a prefix ends as the reads do. -/
theorem hashPrefix_eq
    (h : Reads (fun _ => part) 0 (carriedTo checkpoint offset)
      (some (offset - carriedTo checkpoint offset)) answers) :
    hashPrefix d (checkpoint.map fun c => (d.update d.new c.1, c.2)) offset answers =
      some (rangeEnding (d.update d.new (Fetch.hashPrefix checkpoint part offset))
        (ending answers)) := by
  have hcarried : ((checkpoint.map fun c => (d.update d.new c.1, c.2)).filter
      fun c => c.2 ≤ offset).getD (d.new, 0) =
      (d.update d.new ((checkpoint.filter fun c => c.2 ≤ offset).getD ([], 0)).1,
        ((checkpoint.filter fun c => c.2 ≤ offset).getD ([], 0)).2) := by
    cases checkpoint with
    | none => exact congrArg (·, 0) (d.update_nil d.new).symm
    | some c =>
        rw [Option.map_some, Option.filter_some, Option.filter_some]
        split
        · rfl
        · exact congrArg (·, 0) (d.update_nil d.new).symm
  unfold carriedTo at h
  unfold hashPrefix Fetch.hashPrefix
  rw [hcarried]
  generalize (checkpoint.filter fun c => c.2 ≤ offset).getD ([], 0) = carried at h
  have hread := h.flatten_chunks fun _ => rfl
  dsimp only
  split
  · rw [updateRange_eq d _ h, d.update_append]
    cases hend : ending answers with
    | none =>
        obtain ⟨n, hn, hflatten, _⟩ := hread.2 hend
        rw [hflatten, ← Option.some.inj hn]
    | some ended => cases ended <;> rfl
  · rename_i hdone
    have hnone : offset - carried.2 = 0 := Nat.sub_eq_zero_of_le (Nat.le_of_not_lt hdone)
    rw [hnone] at h ⊢
    rw [h.of_zero, List.take_zero, List.append_nil]
    rfl

/-- The reads of a prefix end with the partial just if that is shorter. -/
theorem ending_prefix (hcarried : carriedTo checkpoint offset ≤ part.length)
    (h : Reads (fun _ => part) 0 (carriedTo checkpoint offset)
      (some (offset - carriedTo checkpoint offset)) answers) :
    (ending answers = some (.ok ()) → part.length < offset) ∧
    (ending answers = none → offset ≤ part.length) := by
  have hle := carriedTo_le checkpoint offset
  have hread := h.flatten_chunks fun _ => rfl
  constructor
  · intro hend
    have hshort := (hread.1 hend).2 _ rfl
    omega
  · intro hend
    obtain ⟨n, hn, _, hwithin⟩ := hread.2 hend
    obtain rfl := Option.some.inj hn
    by_cases hmore : 0 < offset - carriedTo checkpoint offset
    · have hend := hwithin hmore
      omega
    · omega

/-- With a checkpoint that covers its first bytes, as an earlier attempt leaves it, or with none,
the prefix of a partial is hashed to the hash of just its bytes, however they are read; it fails
just if a read does or the partial ends before the prefix. -/
theorem prefix_streamed (offset : ℕ) {disk : Fetch.Disk UInt8} (hpart : disk.part = some part)
    (hcovers : Fetch.Covers checkpoint disk)
    (h : Reads (fun _ => part) 0 (carriedTo checkpoint offset)
      (some (offset - carriedTo checkpoint offset)) answers) :
    ∃ result,
      hashPrefix d (checkpoint.map fun c => (d.update d.new c.1, c.2)) offset answers =
        some result ∧
      (∀ hashed, result = .ok hashed → hashed = d.update d.new (part.take offset)) ∧
      ((∃ error, result = .error error) ↔
        (∃ error, ending answers = some (.error error)) ∨ part.length < offset) := by
  have hcarried : carriedTo checkpoint offset ≤ part.length := by
    unfold carriedTo
    cases hkept : checkpoint.filter fun c => c.2 ≤ offset with
    | none => exact Nat.zero_le _
    | some carried =>
        exact (hcovers _ _ part (Option.filter_eq_some_iff.mp hkept).1 hpart).1
  have hends := ending_prefix hcarried h
  refine ⟨_, hashPrefix_eq d h, ?_⟩
  rw [hashPrefix_of_covers hcovers hpart]
  cases hend : ending answers with
  | none =>
      refine ⟨fun hashed hok => (Except.ok.inj hok).symm, ?_⟩
      have hle := hends.2 hend
      simp [rangeEnding, Nat.not_lt_of_le hle]
  | some ended =>
      cases ended with
      | error error => exact ⟨nofun, fun _ => .inl ⟨error, rfl⟩, fun _ => ⟨error, rfl⟩⟩
      | ok done =>
          have hlt := hends.1 hend
          exact ⟨nofun, fun _ => .inr hlt, fun _ => ⟨shorter, rfl⟩⟩

/-- The first byte is not read again. -/
theorem prefix_streamed_interruptedReads : ∃ result,
    hashPrefix itself (some ([7], 1)) 3 [.read [1], .interrupted, .read [2]] = some result ∧
      ∀ hashed, result = .ok hashed → hashed = [7, 1, 2] := by
  have hreads : Reads (fun _ => [7, 1, 2, 3]) 0 1 (some 2) [.read [1], .interrupted, .read [2]] :=
    .read (by decide) (by decide) (by simp) (by decide)
      (.interrupted (by decide) (.read (by decide) (by decide) (by simp) (by decide) .full))
  have hcovers : Fetch.Covers (some ([7], 1))
      (⟨none, some [7, 1, 2, 3], .absent⟩ : Fetch.Disk UInt8) := by
    rintro hashed n part ⟨⟩ ⟨⟩
    decide
  obtain ⟨result, hresult, hok, _⟩ := prefix_streamed itself 3 rfl hcovers hreads
  exact ⟨result, hresult, hok⟩

end Crypto

end RustSak
