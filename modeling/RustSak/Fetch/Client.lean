import RustSak.Library.Machine
import Mathlib.Data.List.Forall2
import Mathlib.Logic.Function.Basic

/-!
# The client and its secrets

A `Fetch` is built by calls that take it whole, and builds its HTTP client when a request
first needs one. Requests may run on several threads at once; a call cannot run beside them.
Headers whose value is a credential are marked as they go in, so that printing a `Fetch` does
not show them. What `reqwest` prints of its own client is left to `reqwest`, which hides what is
marked.
-/

namespace RustSak

namespace Fetch

namespace Client

open Library

/-- The value of a header; a sensitive one is not printed. -/
structure Value where
  bytes : List UInt8
  sensitive : Bool
  deriving DecidableEq

/-- Names are in lower case. One name may have several values. -/
abbrev HeaderMap := List (List Char × Value)

/-- Puts `value` in the place of what `key` had. -/
def HeaderMap.insert (key : List Char) (value : Value) : HeaderMap → HeaderMap
  | [] => [(key, value)]
  | entry :: map =>
      if entry.1 = key then (key, value) :: map.filter fun other => other.1 ≠ key
      else entry :: HeaderMap.insert key value map

def credentialNames : List String := ["authorization", "proxy-authorization", "cookie"]

def credentialWords : List String := ["token", "secret", "password", "api-key", "apikey"]

/-- Whether a header's value is a credential. -/
def isCredential (name : List Char) : Bool :=
  (credentialNames.any fun credential => credential.toList == name) ||
    credentialWords.any fun word => decide (word.toList <:+: name)

/-- Whether the value was marked before does not matter. -/
def insertHeader (map : HeaderMap) (key : List Char) (value : Value) : HeaderMap :=
  map.insert key { value with sensitive := isCredential key }

def markCredentials (map : HeaderMap) : HeaderMap :=
  map.map fun (name, value) =>
    (name, if isCredential name then { value with sensitive := true } else value)

/-- A call that changes a header map, of a `Fetch` or of one request. -/
inductive HeaderCall where
  | header (key : List Char) (value : Value)
  | headers (given : HeaderMap)

def HeaderCall.apply (map : HeaderMap) : HeaderCall → HeaderMap
  | .header key value => insertHeader map key value
  | .headers given => markCredentials given

structure ProxySettings where
  url : String
  basicAuth : Option (String × String)
  noProxy : Option String

inductive ProxyMode where
  | detect
  | disabled
  | explicit (settings : ProxySettings)

/-- What a client is built from. -/
structure Settings where
  headers : HeaderMap
  disableHttp2 : Bool
  readTimeout : Option ℕ
  connectTimeout : Option ℕ
  proxy : ProxyMode

inductive DownloadMode where
  | resume
  | overwrite
  | skip
  deriving DecidableEq

/-- A client, told apart from the others by a number. -/
structure Instance where
  id : ℕ
  settings : Settings

/-- The configuration, and the client once one is built. Times are in nanoseconds. -/
structure Config where
  settings : Settings
  retries : ℕ
  downloadMode : DownloadMode
  maxBodyBytes : Option ℕ
  client : Option Instance

def Config.new : Config where
  settings := ⟨[], false, some 30000000000, none, .detect⟩
  retries := 0
  downloadMode := .resume
  maxBodyBytes := none
  client := none

/-- A clone builds a client of its own. -/
def Config.clone (config : Config) : Config := { config with client := none }

/-- A call on the builder. -/
inductive Call where
  | headers (call : HeaderCall)
  | retries (retries : ℕ)
  | disableHttp2 (disable : Bool)
  | readTimeout (timeout : Option ℕ)
  | connectTimeout (timeout : Option ℕ)
  | proxy (proxy : ProxySettings)
  | noProxy
  | downloadMode (mode : DownloadMode)
  | maxBodyBytes (limit : Option ℕ)

/-- Changes what clients are built from, and drops the one that is built. -/
def Config.rebuilt (config : Config) (settings : Settings) : Config :=
  { config with settings := settings, client := none }

def Config.apply (config : Config) : Call → Config
  | .headers call =>
      config.rebuilt { config.settings with headers := call.apply config.settings.headers }
  | .retries retries => { config with retries := retries }
  | .disableHttp2 disable => config.rebuilt { config.settings with disableHttp2 := disable }
  | .readTimeout timeout => config.rebuilt { config.settings with readTimeout := timeout }
  | .connectTimeout timeout => config.rebuilt { config.settings with connectTimeout := timeout }
  | .proxy proxy => config.rebuilt { config.settings with proxy := .explicit proxy }
  | .noProxy => config.rebuilt { config.settings with proxy := .disabled }
  | .downloadMode mode => { config with downloadMode := mode }
  | .maxBodyBytes limit => { config with maxBodyBytes := limit }

/-! ## Requests -/

/-- A `Fetch` in use: how many clients have been built, the one that each thread has built and
not yet offered, and the clients that requests were given of late. -/
structure State (τ : Type) where
  config : Config
  built : ℕ
  pending : τ → Option Instance
  served : List Instance

inductive Event (τ : Type) where
  | call (call : Call)
  | clone
  | start (thread : τ) (builds : Bool)
  | finish (thread : τ)

variable {τ : Type}

namespace State

/-- The `Fetch` after its owner did something with it. -/
def owned (s : State τ) (config : Config) : State τ :=
  { s with config := config, served := if config.client.isSome then s.served else [] }

def serve (s : State τ) (client : Instance) : State τ :=
  { s with served := client :: s.served }

variable [DecidableEq τ]

/-- `thread` has built a client, if its build does not fail. -/
def build (s : State τ) (thread : τ) (builds : Bool) : State τ :=
  if builds then
    { s with
      built := s.built + 1
      pending := Function.update s.pending thread (some ⟨s.built, s.config.settings⟩) }
  else
    s

/-- `get_or_init` with the client that `thread` has built. -/
def offer (s : State τ) (thread : τ) (own : Instance) : State τ :=
  let client := s.config.client.getD own
  { s with
    config := { s.config with client := some client }
    pending := Function.update s.pending thread none
    served := client :: s.served }

def next (s : State τ) : Event τ → State τ
  | .call call => s.owned (s.config.apply call)
  | .clone => s.owned s.config.clone
  | .start thread builds =>
      match s.config.client with
      | some client => s.serve client
      | none => s.build thread builds
  | .finish thread =>
      match s.pending thread with
      | some own => s.offer thread own
      | none => s

end State

/-- A call or a clone takes the `Fetch`, so no request is under way. -/
def State.Enabled (s : State τ) : Event τ → Prop
  | .call _ => ∀ thread, s.pending thread = none
  | .clone => ∀ thread, s.pending thread = none
  | .start thread _ => s.pending thread = none
  | .finish thread => s.pending thread ≠ none

def machine (τ : Type) [DecidableEq τ] : Machine (State τ) (Event τ) :=
  .guarded (fun s => s = ⟨.new, 0, fun _ => none, []⟩) State.Enabled State.next

/-! ## Credentials are marked -/

/-- Every credential in the map is marked. -/
def Marked (map : HeaderMap) : Prop :=
  ∀ entry ∈ map, isCredential entry.1 = true → entry.2.sensitive = true

theorem mem_insert {map : HeaderMap} {key : List Char} {value : Value} {entry : List Char × Value}
    (h : entry ∈ map.insert key value) : entry = (key, value) ∨ entry ∈ map := by
  induction map with
  | nil => exact .inl (List.mem_singleton.mp h)
  | cons first map ih =>
      unfold HeaderMap.insert at h
      split at h
      · obtain rfl | hrest := List.mem_cons.mp h
        · exact .inl rfl
        · exact .inr (List.mem_cons_of_mem _ (List.mem_filter.mp hrest).1)
      · obtain rfl | hrest := List.mem_cons.mp h
        · exact .inr List.mem_cons_self
        · exact (ih hrest).imp_right (List.mem_cons_of_mem _)

theorem Marked.apply {map : HeaderMap} (h : Marked map) (call : HeaderCall) :
    Marked (call.apply map) := by
  intro entry hentry hcredential
  cases call with
  | header key value =>
      obtain rfl | hmem := mem_insert hentry
      · exact hcredential
      · exact h entry hmem hcredential
  | headers given =>
      obtain ⟨before, _, rfl⟩ := List.mem_map.mp hentry
      change isCredential before.1 = true at hcredential
      change (if isCredential before.1 = true then { before.2 with sensitive := true }
        else before.2).sensitive = true
      rw [if_pos hcredential]

/-! ## One client at a time -/

/-- The client in the cell, and any that a thread is about to offer, are built from the
configuration as it is, and requests were given the one in the cell. -/
structure Inv (s : State τ) : Prop where
  client : ∀ client, s.config.client = some client → client.settings = s.config.settings
  pending : ∀ thread client, s.pending thread = some client →
    client.settings = s.config.settings
  served : ∀ client ∈ s.served, s.config.client = some client
  marked : Marked s.config.settings.headers

/-- A call drops the client, or leaves it and all that clients are built from. -/
theorem apply_cases (config : Config) (call : Call) :
    (config.apply call).client = none ∨
      (config.apply call).client = config.client ∧
        (config.apply call).settings = config.settings := by
  cases call <;> first | exact .inl rfl | exact .inr ⟨rfl, rfl⟩

theorem marked_apply {config : Config} (h : Marked config.settings.headers) (call : Call) :
    Marked (config.apply call).settings.headers := by
  cases call with
  | headers call => exact h.apply call
  | _ => exact h

/-- The owner may take the `Fetch` on if the client is dropped or fits. -/
theorem Inv.owned {s : State τ} (h : Inv s) {config : Config}
    (hidle : ∀ thread, s.pending thread = none) (hmarked : Marked config.settings.headers)
    (hclient : config.client = none ∨
      config.client = s.config.client ∧ config.settings = s.config.settings) :
    Inv (s.owned config) where
  client client hsome := by
    change config.client = some client at hsome
    obtain hnone | ⟨hsame, hsettings⟩ := hclient
    · rw [hnone] at hsome
      cases hsome
    · rw [hsame] at hsome
      exact (h.client client hsome).trans hsettings.symm
  pending thread client hsome := by
    change s.pending thread = some client at hsome
    rw [hidle thread] at hsome
    cases hsome
  served client hmem := by
    change client ∈ (if config.client.isSome = true then s.served else []) at hmem
    change config.client = some client
    obtain hnone | ⟨hsame, _⟩ := hclient
    · rw [hnone] at hmem
      exact absurd hmem List.not_mem_nil
    · rw [hsame] at hmem ⊢
      split at hmem
      · exact h.served client hmem
      · exact absurd hmem List.not_mem_nil
  marked := hmarked

theorem Inv.serve {s : State τ} (h : Inv s) {client : Instance}
    (hclient : s.config.client = some client) : Inv (s.serve client) := by
  refine ⟨h.client, h.pending, fun other hother => ?_, h.marked⟩
  obtain rfl | hother := List.mem_cons.mp hother
  · exact hclient
  · exact h.served other hother

variable [DecidableEq τ]

theorem Inv.build {s : State τ} (h : Inv s) (thread : τ) (builds : Bool) :
    Inv (s.build thread builds) := by
  cases builds with
  | false => exact h
  | true =>
      refine ⟨h.client, fun other client hsome => ?_, h.served, h.marked⟩
      change Function.update s.pending thread _ other = some client at hsome
      by_cases hother : other = thread
      · rw [hother, Function.update_self] at hsome
        cases hsome
        rfl
      · rw [Function.update_of_ne hother] at hsome
        exact h.pending other client hsome

theorem Inv.offer {s : State τ} (h : Inv s) {thread : τ} {own : Instance}
    (hown : s.pending thread = some own) : Inv (s.offer thread own) where
  client client hsome := by
    cases hsome
    cases hclient : s.config.client with
    | none => exact h.pending thread own hown
    | some client => exact h.client client hclient
  pending other client hsome := by
    change Function.update s.pending thread none other = some client at hsome
    by_cases hother : other = thread
    · rw [hother, Function.update_self] at hsome
      cases hsome
    · rw [Function.update_of_ne hother] at hsome
      exact h.pending other client hsome
  served client hmem := by
    obtain rfl | hmem := List.mem_cons.mp hmem
    · rfl
    · have hclient := h.served client hmem
      change some (s.config.client.getD own) = some client
      rw [hclient]
      rfl
  marked := h.marked

theorem Inv.next {s : State τ} (h : Inv s) {e : Event τ} (he : s.Enabled e) :
    Inv (s.next e) := by
  cases e with
  | call call => exact h.owned he (marked_apply h.marked call) (apply_cases s.config call)
  | clone => exact h.owned he h.marked (.inl rfl)
  | start thread builds =>
      unfold State.next
      cases hclient : s.config.client with
      | some client => exact h.serve hclient
      | none => exact h.build thread builds
  | finish thread =>
      change Inv (match s.pending thread with
        | some own => s.offer thread own
        | none => s)
      cases hown : s.pending thread with
      | some own => exact h.offer hown
      | none => exact h

theorem inv_of_reachable {s : State τ} (h : (machine τ).Reachable s) : Inv s := by
  refine h.invariant ?_ ?_
  · rintro s rfl
    exact ⟨nofun, nofun, nofun, nofun⟩
  · rintro s s' e hinv ⟨he, rfl⟩
    exact hinv.next he

/-- Between two changes of what clients are built from, every request is given the same
client, built from the configuration as it is, its credentials marked. -/
theorem served_current (s : State τ) (h : (machine τ).Reachable s) :
    ∀ client ∈ s.served, client.settings = s.config.settings ∧
      (∀ other ∈ s.served, other = client) ∧ Marked client.settings.headers := by
  intro client hclient
  have hinv := inv_of_reachable h
  have hcell := hinv.served client hclient
  have hsettings := hinv.client client hcell
  refine ⟨hsettings, fun other hother => ?_, hsettings ▸ hinv.marked⟩
  exact Option.some.inj ((hinv.served other hother).symm.trans hcell)

/-- Two threads race for the first client, and one more header is set. -/
def raced : List (Event ℕ) :=
  [.call (.headers (.header "authorization".toList ⟨[1], false⟩)), .start 0 true, .start 1 true,
    .finish 1, .finish 0]

theorem served_current_raced :
    let s := raced.foldl State.next ⟨.new, 0, fun _ => none, []⟩
    s.served.length = 2 ∧ ∀ client ∈ s.served, client.settings = s.config.settings ∧
      (∀ other ∈ s.served, other = client) ∧ Marked client.settings.headers := by
  have hlegal : Machine.Legal State.Enabled State.next ⟨.new, 0, fun _ => none, []⟩ raced :=
    ⟨fun _ => rfl, rfl, rfl, Option.some_ne_none _, Option.some_ne_none _, trivial⟩
  exact ⟨rfl, served_current _ (Machine.Reachable.legal (Machine.Reachable.start rfl) hlegal)⟩

/-! ## What is printed -/

/-- A header map as it is printed: a sensitive value is not shown. -/
def HeaderMap.debug (map : HeaderMap) : List (List Char × Option (List UInt8)) :=
  map.map fun (name, value) => (name, if value.sensitive then none else some value.bytes)

/-- A proxy as it is printed, without its password. -/
structure ShownProxy where
  url : String
  username : Option String
  noProxy : Option String
  deriving DecidableEq

def ProxySettings.debug (proxy : ProxySettings) : ShownProxy :=
  ⟨proxy.url, proxy.basicAuth.map Prod.fst, proxy.noProxy⟩

inductive ShownMode where
  | detect
  | disabled
  | explicit (proxy : ShownProxy)
  deriving DecidableEq

def ProxyMode.debug : ProxyMode → ShownMode
  | .detect => .detect
  | .disabled => .disabled
  | .explicit settings => .explicit settings.debug

/-- Two header maps differ only in values that are sensitive in both. -/
def MapsAlike (map map' : HeaderMap) : Prop :=
  List.Forall₂ (fun entry entry' => entry.1 = entry'.1 ∧
    entry.2.sensitive = entry'.2.sensitive ∧
    (entry.2.sensitive = true ∨ entry.2.bytes = entry'.2.bytes)) map map'

/-- Two settings differ only in credentials. -/
structure SettingsAlike (settings settings' : Settings) : Prop where
  headers : MapsAlike settings.headers settings'.headers
  disableHttp2 : settings.disableHttp2 = settings'.disableHttp2
  readTimeout : settings.readTimeout = settings'.readTimeout
  connectTimeout : settings.connectTimeout = settings'.connectTimeout
  proxy : settings.proxy.debug = settings'.proxy.debug

/-- Settings with the values that are sensitive hidden: those of headers that are marked, and the
proxy's password, which goes into such a header. -/
structure ShownSettings where
  headers : List (List Char × Option (List UInt8))
  disableHttp2 : Bool
  readTimeout : Option ℕ
  connectTimeout : Option ℕ
  proxy : ShownMode
  deriving DecidableEq

def Settings.shown (settings : Settings) : ShownSettings where
  headers := settings.headers.debug
  disableHttp2 := settings.disableHttp2
  readTimeout := settings.readTimeout
  connectTimeout := settings.connectTimeout
  proxy := settings.proxy.debug

/-- What `reqwest` prints of a client. Values that are sensitive are hidden. -/
structure Reqwest (δ : Type) where
  debug : Settings → δ
  hidden : ∀ settings settings', settings.shown = settings'.shown →
    debug settings = debug settings'

/-- A `Fetch` as it is printed. -/
structure Shown (δ : Type) where
  headers : List (List Char × Option (List UInt8))
  retries : ℕ
  disableHttp2 : Bool
  readTimeout : Option ℕ
  connectTimeout : Option ℕ
  proxy : ShownMode
  downloadMode : DownloadMode
  maxBodyBytes : Option ℕ
  client : Option δ

def Config.debug {δ : Type} (reqwest : Reqwest δ) (config : Config) : Shown δ where
  headers := config.settings.headers.debug
  retries := config.retries
  disableHttp2 := config.settings.disableHttp2
  readTimeout := config.settings.readTimeout
  connectTimeout := config.settings.connectTimeout
  proxy := config.settings.proxy.debug
  downloadMode := config.downloadMode
  maxBodyBytes := config.maxBodyBytes
  client := config.client.map fun client => reqwest.debug client.settings

/-- Two calls change headers alike but for credentials. In a map that is handed over whole the
caller may have marked more of the values. -/
def HeaderCall.Alike : HeaderCall → HeaderCall → Prop
  | .header key value, .header key' value' =>
      key = key' ∧ (isCredential key = true ∨ value.bytes = value'.bytes)
  | .headers given, .headers given' =>
      List.Forall₂ (fun entry entry' => entry.1 = entry'.1 ∧
        entry.2.sensitive = entry'.2.sensitive ∧
        (isCredential entry.1 = true ∨ entry.2.sensitive = true ∨
          entry.2.bytes = entry'.2.bytes)) given given'
  | _, _ => False

def Call.Alike : Call → Call → Prop
  | .headers call, .headers call' => call.Alike call'
  | .proxy settings, .proxy settings' => settings.debug = settings'.debug
  | first, second => first = second

def Event.Alike : Event τ → Event τ → Prop
  | .call given, .call given' => given.Alike given'
  | e, e' => e = e'

section Alike

variable {map map' : HeaderMap}

theorem MapsAlike.debug (h : MapsAlike map map') :
    HeaderMap.debug map = HeaderMap.debug map' := by
  induction h with
  | nil => rfl
  | @cons entry entry' map map' hentry _ ih =>
      obtain ⟨hname, hsensitive, hvalue⟩ := hentry
      have hshown : (if entry.2.sensitive then none else some entry.2.bytes) =
          if entry'.2.sensitive then none else some entry'.2.bytes := by
        obtain hsecret | hbytes := hvalue
        · rw [← hsensitive, hsecret]
          rfl
        · rw [hsensitive, hbytes]
      change (entry.1, _) :: HeaderMap.debug map = (entry'.1, _) :: HeaderMap.debug map'
      rw [hname, hshown, ih]

theorem MapsAlike.filter (h : MapsAlike map map') (key : List Char) :
    MapsAlike (map.filter fun entry => entry.1 ≠ key)
      (map'.filter fun entry => entry.1 ≠ key) := by
  induction h with
  | nil => exact .nil
  | @cons entry entry' map map' hentry _ ih =>
      by_cases hkey : entry.1 = key
      · have hkey' : entry'.1 = key := hentry.1 ▸ hkey
        rw [List.filter_cons_of_neg (by simpa using hkey),
          List.filter_cons_of_neg (by simpa using hkey')]
        exact ih
      · have hkey' : entry'.1 ≠ key := hentry.1 ▸ hkey
        rw [List.filter_cons_of_pos (by simpa using hkey),
          List.filter_cons_of_pos (by simpa using hkey')]
        exact .cons hentry ih

theorem MapsAlike.insert (h : MapsAlike map map') {key : List Char} {value value' : Value}
    (hsensitive : value.sensitive = value'.sensitive)
    (hvalue : value.sensitive = true ∨ value.bytes = value'.bytes) :
    MapsAlike (map.insert key value) (map'.insert key value') := by
  induction h with
  | nil => exact .cons ⟨rfl, hsensitive, hvalue⟩ .nil
  | @cons entry entry' map map' hentry hrest ih =>
      unfold HeaderMap.insert
      by_cases hkey : entry.1 = key
      · have hkey' : entry'.1 = key := hentry.1 ▸ hkey
        rw [if_pos hkey, if_pos hkey']
        exact .cons ⟨rfl, hsensitive, hvalue⟩ (MapsAlike.filter hrest key)
      · have hkey' : entry'.1 ≠ key := hentry.1 ▸ hkey
        rw [if_neg hkey, if_neg hkey']
        exact .cons hentry ih

theorem MapsAlike.apply (h : MapsAlike map map') {call call' : HeaderCall}
    (hcall : call.Alike call') : MapsAlike (call.apply map) (call'.apply map') := by
  cases call with
  | header key value =>
      cases call' with
      | headers given' => exact hcall.elim
      | header key' value' =>
          obtain ⟨rfl, hvalue⟩ := hcall
          exact h.insert rfl hvalue
  | headers given =>
      cases call' with
      | header key' value' => exact hcall.elim
      | headers given' =>
          refine List.forall₂_map_left_iff.mpr (List.forall₂_map_right_iff.mpr ?_)
          refine List.Forall₂.imp ?_ hcall
          rintro ⟨name, value⟩ ⟨name', value'⟩ ⟨hname, hsensitive, hvalue⟩
          change name = name' at hname
          subst hname
          by_cases hcredential : isCredential name = true
          · simp [hcredential]
          · have hsame : value.sensitive = true ∨ value.bytes = value'.bytes := by
              simpa [hcredential] using hvalue
            simpa [hcredential] using ⟨hsensitive, hsame⟩

end Alike

/-- Two configurations differ only in credentials, and so do their clients. -/
structure ConfigsAlike (config config' : Config) : Prop where
  settings : SettingsAlike config.settings config'.settings
  retries : config.retries = config'.retries
  downloadMode : config.downloadMode = config'.downloadMode
  maxBodyBytes : config.maxBodyBytes = config'.maxBodyBytes
  client : Option.Rel (fun client client' => SettingsAlike client.settings client'.settings)
    config.client config'.client

theorem map_eq_of_rel {α β : Type} {r : α → α → Prop} {a b : Option α} {f : α → β}
    (h : Option.Rel r a b) (hf : ∀ x y, r x y → f x = f y) : a.map f = b.map f := by
  cases h with
  | none => rfl
  | some hxy => exact congrArg some (hf _ _ hxy)

theorem SettingsAlike.shown {settings settings' : Settings} (h : SettingsAlike settings settings') :
    settings.shown = settings'.shown := by
  unfold Settings.shown
  rw [h.headers.debug, h.disableHttp2, h.readTimeout, h.connectTimeout, h.proxy]

theorem ConfigsAlike.debug {δ : Type} {config config' : Config} (h : ConfigsAlike config config')
    (reqwest : Reqwest δ) : config.debug reqwest = config'.debug reqwest := by
  have hclient : (config.client.map fun client => reqwest.debug client.settings) =
      config'.client.map fun client => reqwest.debug client.settings :=
    map_eq_of_rel h.client fun _ _ halike => reqwest.hidden _ _ halike.shown
  unfold Config.debug
  rw [h.settings.headers.debug, h.retries, h.settings.disableHttp2, h.settings.readTimeout,
    h.settings.connectTimeout, h.settings.proxy, h.downloadMode, h.maxBodyBytes, hclient]

theorem ConfigsAlike.rebuilt {config config' : Config} (h : ConfigsAlike config config')
    {settings settings' : Settings} (hsettings : SettingsAlike settings settings') :
    ConfigsAlike (config.rebuilt settings) (config'.rebuilt settings') :=
  ⟨hsettings, h.retries, h.downloadMode, h.maxBodyBytes, .none⟩

theorem ConfigsAlike.apply {config config' : Config} (h : ConfigsAlike config config')
    {call call' : Call} (hcall : call.Alike call') :
    ConfigsAlike (config.apply call) (config'.apply call') := by
  cases call with
  | headers given =>
      cases call' with
      | headers given' =>
          exact h.rebuilt { h.settings with headers := h.settings.headers.apply hcall }
      | _ => cases hcall
  | proxy settings =>
      cases call' with
      | proxy settings' =>
          exact h.rebuilt { h.settings with proxy := congrArg ShownMode.explicit hcall }
      | _ => cases hcall
  | retries retries =>
      cases hcall
      exact { h with retries := rfl }
  | disableHttp2 disable =>
      cases hcall
      exact h.rebuilt { h.settings with disableHttp2 := rfl }
  | readTimeout timeout =>
      cases hcall
      exact h.rebuilt { h.settings with readTimeout := rfl }
  | connectTimeout timeout =>
      cases hcall
      exact h.rebuilt { h.settings with connectTimeout := rfl }
  | noProxy =>
      cases hcall
      exact h.rebuilt { h.settings with proxy := rfl }
  | downloadMode mode =>
      cases hcall
      exact { h with downloadMode := rfl }
  | maxBodyBytes limit =>
      cases hcall
      exact { h with maxBodyBytes := rfl }

/-- Two `Fetch`es in use that differ only in credentials. -/
structure StatesAlike (s s' : State τ) : Prop where
  config : ConfigsAlike s.config s'.config
  pending : ∀ thread, Option.Rel
    (fun client client' => SettingsAlike client.settings client'.settings)
    (s.pending thread) (s'.pending thread)

theorem rel_update {r : Instance → Instance → Prop} {pending pending' : τ → Option Instance}
    (h : ∀ thread, Option.Rel r (pending thread) (pending' thread)) (thread : τ)
    {client client' : Option Instance} (hclient : Option.Rel r client client') (other : τ) :
    Option.Rel r (Function.update pending thread client other)
      (Function.update pending' thread client' other) := by
  by_cases hother : other = thread
  · rw [hother, Function.update_self, Function.update_self]
    exact hclient
  · rw [Function.update_of_ne hother, Function.update_of_ne hother]
    exact h other

theorem StatesAlike.build {s s' : State τ} (h : StatesAlike s s') (thread : τ) (builds : Bool) :
    StatesAlike (s.build thread builds) (s'.build thread builds) := by
  cases builds with
  | false => exact h
  | true => exact ⟨h.config, rel_update h.pending thread (.some h.config.settings)⟩

theorem StatesAlike.offer {s s' : State τ} (h : StatesAlike s s') (thread : τ)
    {own own' : Instance} (hown : SettingsAlike own.settings own'.settings) :
    StatesAlike (s.offer thread own) (s'.offer thread own') := by
  have hclient : SettingsAlike (s.config.client.getD own).settings
      (s'.config.client.getD own').settings := by
    obtain hrel := h.config.client
    generalize s.config.client = client, s'.config.client = client' at hrel
    cases hrel with
    | none => exact hown
    | some halike => exact halike
  exact ⟨{ h.config with client := .some hclient }, rel_update h.pending thread .none⟩

theorem StatesAlike.next {s s' : State τ} (h : StatesAlike s s') {e e' : Event τ}
    (he : e.Alike e') : StatesAlike (s.next e) (s'.next e') := by
  cases e with
  | call given =>
      cases e' with
      | call given' => exact ⟨h.config.apply he, h.pending⟩
      | _ => cases he
  | clone =>
      cases he
      exact ⟨{ h.config with client := .none }, h.pending⟩
  | start thread builds =>
      cases he
      have hrel := h.config.client
      unfold State.next
      cases hclient : s.config.client with
      | none =>
          rw [hclient] at hrel
          cases hclient' : s'.config.client with
          | none => exact h.build thread builds
          | some client' =>
              rw [hclient'] at hrel
              cases hrel
      | some client =>
          rw [hclient] at hrel
          cases hclient' : s'.config.client with
          | none =>
              rw [hclient'] at hrel
              cases hrel
          | some client' => exact ⟨h.config, h.pending⟩
  | finish thread =>
      cases he
      change StatesAlike
        (match s.pending thread with
          | some own => s.offer thread own
          | none => s)
        (match s'.pending thread with
          | some own => s'.offer thread own
          | none => s')
      have hrel := h.pending thread
      generalize s.pending thread = own, s'.pending thread = own' at hrel
      cases hrel with
      | none => exact h
      | some hown => exact h.offer thread hown

theorem SettingsAlike.refl (settings : Settings) : SettingsAlike settings settings :=
  ⟨List.forall₂_same.mpr fun _ _ => ⟨rfl, rfl, .inr rfl⟩, rfl, rfl, rfl, rfl⟩

theorem rel_self (client : Option Instance) : Option.Rel
    (fun client client' => SettingsAlike client.settings client'.settings) client client := by
  cases client with
  | none => exact .none
  | some client => exact .some (.refl client.settings)

omit [DecidableEq τ] in
theorem StatesAlike.refl (s : State τ) : StatesAlike s s :=
  ⟨⟨.refl s.config.settings, rfl, rfl, rfl, rel_self s.config.client⟩,
    fun thread => rel_self (s.pending thread)⟩

theorem StatesAlike.run {s s' : State τ} (h : StatesAlike s s') {es es' : List (Event τ)}
    (hes : List.Forall₂ Event.Alike es es') :
    StatesAlike (es.foldl State.next s) (es'.foldl State.next s') := by
  induction hes generalizing s s' with
  | nil => exact h
  | cons he _ ih => exact ih (h.next he)

end Client

end Fetch

end RustSak
