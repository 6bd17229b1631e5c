import RustSak.Fetch.Retry

/-!
# Requests for a text or for JSON

What a request is prepared to, what one attempt makes of the answer it gets, and the
whole request over the retry loop. A body is read under a limit if there is one. How a
body becomes a text or a value is the caller's.
-/

namespace RustSak

namespace Fetch

/-- The kinds of `reqwest::Error`; a body that does not decode is told by whether that was
its JSON. -/
inductive HttpError where
  | builder
  | request
  | redirect
  | status (code : ℕ)
  | body
  | decode (json : Bool)
  | upgrade
  deriving DecidableEq

inductive FetchError where
  | http (error : HttpError)
  | bodyTooLarge (limit : ℕ)
  deriving DecidableEq

def HttpError.isTransient : HttpError → Bool
  | .status code => (500 ≤ code && code < 600) || code == 408 || code == 429
  | .decode json => !json
  | .builder => false
  | .redirect => false
  | .request => true
  | .body => true
  | .upgrade => true

def FetchError.isRetryable : FetchError → Bool
  | .http error => error.isTransient
  | .bodyTooLarge _ => false

inductive Method where
  | get
  | head
  | put
  | delete
  | options
  | trace
  | post
  | patch
  | connect
  | extension (name : String)
  deriving DecidableEq

def Method.isIdempotent : Method → Bool
  | .get | .head | .put | .delete | .options | .trace => true
  | .post | .patch | .connect | .extension _ => false

/-! ## Preparing a request -/

/-- What `Fetch` holds of a request, and whether its client can be built. -/
structure Fetcher where
  retries : ℕ
  maxBodyBytes : Option ℕ
  client : Except HttpError Unit

structure RequestOptions where
  method : Option Method
  retries : Option ℕ
  retryNonIdempotent : Bool
  maxBodyBytes : Option ℕ

structure PreparedRequest (υ : Type) where
  url : υ
  method : Method
  retries : ℕ
  maxBodyBytes : Option ℕ

/-- `url` is the URL the text parses to. -/
def Fetcher.prepare {υ : Type} (fetcher : Fetcher) (url : Except HttpError υ)
    (options : RequestOptions) : Except HttpError (PreparedRequest υ) := do
  fetcher.client
  let method := options.method.getD .get
  let retries := options.retries.getD fetcher.retries
  let retries := if method.isIdempotent || options.retryNonIdempotent then retries else 0
  let url ← url
  return ⟨url, method, retries, options.maxBodyBytes.or fetcher.maxBodyBytes⟩

/-! ## Reading a body -/

/-- A response whose body has not been read, a chunk or an error at a time. The names of its
headers are in lower case. -/
structure Reply where
  status : ℕ
  headers : List (String × HeaderValue)
  contentLength : Option ℕ
  chunks : List (Except HttpError (List UInt8))

/-- A response with its body. -/
structure Answer (α : Type) where
  body : α
  status : ℕ
  headers : List (String × HeaderValue)

/-- The body as `reqwest` reads it, whatever its size. -/
def readBody : List (Except HttpError (List UInt8)) → Except HttpError (List UInt8)
  | [] => .ok []
  | .error error :: _ => .error error
  | .ok chunk :: chunks => (readBody chunks).map (chunk ++ ·)

/-- The loop of `read_capped`, with `body` read so far. -/
def readChunks (limit : ℕ) :
    List UInt8 → List (Except HttpError (List UInt8)) → Except FetchError (List UInt8)
  | body, [] => .ok body
  | _, .error error :: _ => .error (.http error)
  | body, .ok chunk :: chunks =>
      if body.length + chunk.length > limit then .error (.bodyTooLarge limit)
      else readChunks limit (body ++ chunk) chunks

def Reply.readCapped (reply : Reply) (limit : ℕ) : Except FetchError (List UInt8) :=
  if reply.contentLength.any (· > limit) then .error (.bodyTooLarge limit)
  else readChunks limit [] reply.chunks

/-- The bytes that come before the body ends or breaks off. -/
def received : List (Except HttpError (List UInt8)) → List UInt8
  | [] => []
  | .error _ :: _ => []
  | .ok chunk :: chunks => chunk ++ received chunks

/-! ## Attempts -/

section Attempts

variable {α : Type}

-- the body as a text, or as the value its JSON is
variable (extract : List UInt8 → Except HttpError α)

/-- `error_for_status`, and then the body. -/
def Reply.answer (reply : Reply) (maxBodyBytes : Option ℕ) : Except FetchError (Answer α) := do
  if 400 ≤ reply.status ∧ reply.status < 600 then
    throw (.http (.status reply.status))
  let bytes ← match maxBodyBytes with
    | none => (readBody reply.chunks).mapError .http
    | some limit => reply.readCapped limit
  let body ← (extract bytes).mapError .http
  return ⟨body, reply.status, reply.headers⟩

/-- What the network does with one attempt, and the time it does it. -/
structure Exchange where
  reply : Except HttpError Reply
  now : ℕ

variable (parseHttpDate : List Char → Option ℕ)

def Reply.requestedWait (reply : Reply) (now : ℕ) : Option ℕ :=
  Fetch.requestedWait parseHttpDate reply.status (reply.headers.lookup "retry-after") now

/-- One attempt. The wait is recorded once there is a response, and before anything else is made
of it. -/
def Exchange.attempt (exchange : Exchange) (maxBodyBytes : Option ℕ) :
    Attempted FetchError (Answer α) :=
  match exchange.reply with
  | .error error => ⟨.error (.http error), none⟩
  | .ok reply =>
      ⟨reply.answer extract maxBodyBytes, some (reply.requestedWait parseHttpDate exchange.now)⟩

/-- The attempts of a request; `network` is what happens to each of them, by its number. -/
def attempts (retries : ℕ) (maxBodyBytes : Option ℕ) (network : ℕ → Exchange) :
    Backoff FetchError (Answer α) :=
  withFibonacciBackoff retries FetchError.isRetryable
    fun k => (network k).attempt extract parseHttpDate maxBodyBytes

/-- The result of a request, and the waits between its attempts; `none` if nothing was sent. -/
def Fetcher.sendRetrying {υ : Type} (fetcher : Fetcher) (url : Except HttpError υ)
    (options : RequestOptions) (network : ℕ → Exchange) :
    Except FetchError (Answer α) × Option (List ℕ) :=
  match fetcher.prepare url options with
  | .error error => (.error (.http error), none)
  | .ok prepared =>
      let backoff := attempts extract parseHttpDate prepared.retries prepared.maxBodyBytes network
      (backoff.result, some backoff.waits)

end Attempts

/-! ## What is read under a limit -/

section Capped

variable {limit : ℕ} {body : List UInt8} {chunks : List (Except HttpError (List UInt8))}

theorem readChunks_of_le (h : body.length + (received chunks).length ≤ limit) :
    readChunks limit body chunks = ((readBody chunks).map (body ++ ·)).mapError .http := by
  induction chunks generalizing body with
  | nil =>
      rw [readChunks, readBody, Except.map, List.append_nil]
      rfl
  | cons first chunks ih =>
      cases first with
      | error error => rfl
      | ok chunk =>
          rw [received, List.length_append, ← Nat.add_assoc] at h
          have hfits : ¬body.length + chunk.length > limit := by omega
          rw [readChunks, if_neg hfits, readBody, ih]
          · cases readBody chunks with
            | error error => rfl
            | ok bytes => simp [Except.map, Except.mapError]
          · rwa [List.length_append]

theorem readChunks_of_lt (h : limit < body.length + (received chunks).length)
    (hbody : body.length ≤ limit) :
    readChunks limit body chunks = .error (.bodyTooLarge limit) := by
  induction chunks generalizing body with
  | nil => exact absurd h (Nat.not_lt_of_le hbody)
  | cons first chunks ih =>
      cases first with
      | error error => exact absurd h (Nat.not_lt_of_le hbody)
      | ok chunk =>
          rw [received, List.length_append, ← Nat.add_assoc] at h
          rw [readChunks]
          split
          · rfl
          · rename_i hfits
            refine ih ?_ ?_
            · rwa [List.length_append]
            · rw [List.length_append]
              exact Nat.le_of_not_lt hfits

/-- Neither what is declared nor what comes in is over the limit. -/
def Reply.fits (reply : Reply) (limit : ℕ) : Bool :=
  reply.contentLength.all (· ≤ limit) && (received reply.chunks).length ≤ limit

/-- However a body is cut into chunks, it is read as it would be without a limit, or it is too
large. -/
theorem Reply.readCapped_eq (reply : Reply) (limit : ℕ) :
    reply.readCapped limit = if reply.fits limit then (readBody reply.chunks).mapError .http
      else .error (.bodyTooLarge limit) := by
  have hany : reply.contentLength.any (· > limit) = !reply.contentLength.all (· ≤ limit) := by
    cases reply.contentLength with
    | none => rfl
    | some n => rw [Option.any_some, Option.all_some, ← decide_not, decide_eq_decide, Nat.not_le]
  rw [Reply.readCapped, Reply.fits, hany]
  cases reply.contentLength.all (· ≤ limit) with
  | false => simp
  | true =>
      simp only [Bool.not_true, Bool.false_eq_true, if_false, Bool.true_and, decide_eq_true_eq]
      split
      · rename_i hle
        rw [readChunks_of_le (by rwa [List.length_nil, Nat.zero_add])]
        cases readBody reply.chunks with
        | error error => rfl
        | ok bytes => rfl
      · rename_i hle
        exact readChunks_of_lt (by simpa using hle) (Nat.zero_le limit)

end Capped

/-! ## Whole requests -/

section Requests

variable {α υ : Type} {extract : List UInt8 → Except HttpError α}
  {parseHttpDate : List Char → Option ℕ}

/-- The reply is read, and is too large. -/
def Exchange.over (exchange : Exchange) (limit : ℕ) : Bool :=
  match exchange.reply with
  | .error _ => false
  | .ok reply => !(400 ≤ reply.status && reply.status < 600) && !reply.fits limit

theorem Exchange.attempt_of_over {exchange : Exchange} {limit : ℕ}
    (h : exchange.over limit = true) :
    (exchange.attempt extract parseHttpDate (some limit)).result =
      .error (.bodyTooLarge limit) := by
  cases hreply : exchange.reply with
  | error error =>
      rw [Exchange.over, hreply] at h
      cases h
  | ok reply =>
      simp only [Exchange.over, hreply, Bool.and_eq_true, Bool.not_eq_true', Bool.and_eq_false_iff,
        decide_eq_false_iff_not] at h
      obtain ⟨hstatus, hfits⟩ := h
      have hstatus' : ¬(400 ≤ reply.status ∧ reply.status < 600) := fun hboth =>
        hstatus.elim (fun h => h hboth.1) fun h => h hboth.2
      simp only [Exchange.attempt, hreply, Reply.answer, if_neg hstatus', Reply.readCapped_eq,
        hfits, Bool.false_eq_true, if_false]
      rfl

theorem Exchange.attempt_of_not_over {exchange : Exchange} {limit : ℕ}
    (h : exchange.over limit = false) :
    exchange.attempt extract parseHttpDate (some limit) =
      exchange.attempt extract parseHttpDate none := by
  cases hreply : exchange.reply with
  | error error => rw [Exchange.attempt, Exchange.attempt, hreply]
  | ok reply =>
      rw [Exchange.attempt, Exchange.attempt, hreply]
      simp only [Attempted.mk.injEq, and_true]
      by_cases hstatus : 400 ≤ reply.status ∧ reply.status < 600
      · rw [Reply.answer, Reply.answer, if_pos hstatus, if_pos hstatus]
        rfl
      · have hfits : reply.fits limit = true := by
          by_contra hnot
          simp only [Exchange.over, hreply, Bool.not_eq_true _ ▸ hnot] at h
          simp at h
          omega
        rw [Reply.answer, Reply.answer, if_neg hstatus, if_neg hstatus]
        simp only [Reply.readCapped_eq, hfits, if_true]

variable {retries limit : ℕ} {network : ℕ → Exchange}

theorem attempts_of_fits
    (h : ∀ k ≤ (attempts extract parseHttpDate retries none network).waits.length,
      (network k).over limit = false) :
    attempts extract parseHttpDate retries (some limit) network =
      attempts extract parseHttpDate retries none network := by
  refine backoffFrom_congr fun k hk => ?_
  rw [Nat.zero_add]
  exact (Exchange.attempt_of_not_over (h k hk)).symm

theorem attempts_of_over {i : ℕ}
    (hi : i ≤ (attempts extract parseHttpDate retries none network).waits.length)
    (hfits : ∀ k < i, (network k).over limit = false) (hover : (network i).over limit = true) :
    attempts extract parseHttpDate retries (some limit) network =
      ⟨.error (.bodyTooLarge limit),
        (attempts extract parseHttpDate retries none network).waits.take i⟩ := by
  refine backoffFrom_of_final (fun k hk => ?_) hi ?_ rfl
  · rw [Nat.zero_add]
    exact (Exchange.attempt_of_not_over (hfits k hk)).symm
  · rw [Nat.zero_add]
    exact Exchange.attempt_of_over hover

/-- The retries a request is given: none for a method that may not be sent twice. -/
def Fetcher.allowed (fetcher : Fetcher) (options : RequestOptions) : ℕ :=
  if (options.method.getD .get).isIdempotent || options.retryNonIdempotent then
    options.retries.getD fetcher.retries
  else 0

theorem Fetcher.prepare_eq (fetcher : Fetcher) (url : Except HttpError υ)
    (options : RequestOptions) :
    (∃ error, (fetcher.client = .error error ∨ url = .error error) ∧
      fetcher.prepare url options = .error error) ∨
    ∃ u, fetcher.client = .ok () ∧ url = .ok u ∧ fetcher.prepare url options =
      .ok ⟨u, options.method.getD .get, fetcher.allowed options,
        options.maxBodyBytes.or fetcher.maxBodyBytes⟩ := by
  rw [Fetcher.prepare]
  cases fetcher.client with
  | error error => exact .inl ⟨error, .inl rfl, rfl⟩
  | ok _ =>
      cases url with
      | error error => exact .inl ⟨error, .inr rfl, rfl⟩
      | ok u => exact .inr ⟨u, rfl, rfl, rfl⟩

/-- A request that cannot be prepared is not sent. Any other is sent again only after a failure
that may go away, and not after its retries are used up, which for a method that may not be sent
twice are none; the wait after an attempt is what its own answer asked for, or the schedule's,
and a minute at most; and the last attempt decides. -/
theorem request_retried (fetcher : Fetcher) (url : Except HttpError υ) (options : RequestOptions)
    (network : ℕ → Exchange) :
    (∃ error, (fetcher.client = .error error ∨ url = .error error) ∧
      fetcher.sendRetrying extract parseHttpDate url options network =
        (.error (.http error), none)) ∨
    ∃ backoff : Backoff FetchError (Answer α),
      fetcher.sendRetrying extract parseHttpDate url options network =
        (backoff.result, some backoff.waits) ∧
      Retried FetchError.isRetryable (fun k => (network k).attempt extract parseHttpDate
        (options.maxBodyBytes.or fetcher.maxBodyBytes)) (fetcher.allowed options) 0 backoff ∧
      backoff.waits.sum ≤ fetcher.allowed options * fromSecs 60 := by
  rw [Fetcher.sendRetrying]
  rcases fetcher.prepare_eq url options with ⟨error, hcause, herror⟩ | ⟨u, _, _, hok⟩
  · rw [herror]
    exact .inl ⟨error, hcause, rfl⟩
  · rw [hok]
    exact .inr ⟨_, rfl, retried_withFibonacciBackoff _, sum_waits_le _⟩

/-- Without a limit. -/
def Fetcher.uncapped (fetcher : Fetcher) : Fetcher := { fetcher with maxBodyBytes := none }

/-- Under a limit, a request whose bodies keep to it goes as it would without one, whatever the
chunks its bodies come in; and the first body that does not ends it. -/
theorem capped_request (fetcher : Fetcher) (url : Except HttpError υ) (options : RequestOptions)
    (network : ℕ → Exchange) (limit : ℕ) (waits : List ℕ)
    (hwaits : (fetcher.uncapped.sendRetrying extract parseHttpDate url
      { options with maxBodyBytes := none } network).2 = some waits) :
    ((∀ k ≤ waits.length, (network k).over limit = false) →
      fetcher.sendRetrying extract parseHttpDate url
          { options with maxBodyBytes := some limit } network =
        fetcher.uncapped.sendRetrying extract parseHttpDate url
          { options with maxBodyBytes := none } network) ∧
    ∀ i ≤ waits.length, (∀ k < i, (network k).over limit = false) →
      (network i).over limit = true →
        fetcher.sendRetrying extract parseHttpDate url
            { options with maxBodyBytes := some limit } network =
          (.error (.bodyTooLarge limit), some (waits.take i)) := by
  rw [Fetcher.sendRetrying] at hwaits ⊢
  rw [Fetcher.sendRetrying]
  rcases fetcher.uncapped.prepare_eq url { options with maxBodyBytes := none } with
    ⟨error, _, herror⟩ | ⟨u, hclient, rfl, hok⟩
  · rw [herror] at hwaits
    cases hwaits
  · rcases fetcher.prepare_eq (.ok u) { options with maxBodyBytes := some limit } with
      ⟨error, hclient' | hurl, _⟩ | ⟨u', _, _, hok'⟩
    · exact absurd (hclient'.symm.trans hclient) (by simp)
    · exact absurd hurl (by simp)
    · rw [hok] at hwaits ⊢
      rw [hok']
      obtain rfl := Option.some.inj hwaits
      constructor
      · intro hfits
        have hsame : attempts extract parseHttpDate
            (fetcher.allowed { options with maxBodyBytes := some limit }) (some limit) network =
          attempts extract parseHttpDate
            (fetcher.allowed { options with maxBodyBytes := some limit }) none network :=
          attempts_of_fits hfits
        simp only [Option.some_or, hsame]
        rfl
      · intro i hi hfits hover
        have hstop : attempts extract parseHttpDate
            (fetcher.allowed { options with maxBodyBytes := some limit }) (some limit) network =
          ⟨.error (.bodyTooLarge limit), (attempts extract parseHttpDate
            (fetcher.allowed { options with maxBodyBytes := some limit }) none network).waits.take
              i⟩ := attempts_of_over hi hfits hover
        simp only [Option.some_or, hstop]
        rfl

/-- An overloaded server, and then a body of three bytes. -/
def tooMuch : ℕ → Exchange
  | 0 => ⟨.ok ⟨503, [("retry-after", ['7'])], none, []⟩, 0⟩
  | _ => ⟨.ok ⟨200, [], none, [.ok [1, 2], .ok [3]]⟩, 0⟩

theorem capped_request_tooMuch :
    let fetcher : Fetcher := ⟨3, none, .ok ()⟩
    let read : List UInt8 → Except HttpError (List UInt8) := .ok
    fetcher.sendRetrying read (fun _ => none) (.ok ()) ⟨none, none, false, some 2⟩ tooMuch =
      (.error (.bodyTooLarge 2), some [7000000000]) := by
  intro fetcher read
  have h := @capped_request _ _ read (fun _ => none) fetcher (.ok ()) ⟨none, none, false, none⟩
    tooMuch 2 [7000000000] rfl
  exact h.2 1 (Nat.le_refl 1) (fun k hk => by obtain rfl := Nat.lt_one_iff.mp hk; rfl) rfl

end Requests

end Fetch

end RustSak
