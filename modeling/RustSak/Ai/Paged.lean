import RustSak.Ai.Hub
import RustSak.Fetch.Links
import RustSak.Library.Attempt
import Mathlib.Data.List.Chain
import Mathlib.Data.List.Nodup
import Mathlib.Data.List.Perm.Subperm

/-!
# Paged listings

A folder is listed page by page, each page naming the next one in a `Link` header. The
server, and how a page's body reads as JSON, are parameters. What a listing is, in terms
of the pages, is `ReadWhole`: the reading loop keeps the pages it has read, and comes to
an end as they are among those that a page of the server names.
-/

namespace RustSak

namespace Ai

namespace Paged

open Library

abbrev Url := List Char

structure Page where
  body : String
  linkHeaders : List Fetch.HeaderValue

/-- The target of the page's link to the next one. -/
def Page.next (page : Page) : Option Url := Fetch.link page.linkHeaders "next".toList

inductive FetchError where
  | http (status : Option ℕ) (inBody : Bool) (text : String)
  | other (text : String)
  deriving DecidableEq

inductive HfError where
  | network
  | http (status : ℕ)
  | malformed (reason : String)
  | wrongRepository (hub folder : String)
  deriving DecidableEq

/-- What a failed request means. -/
def failure : FetchError → HfError
  | .http (some status) _ _ => .http status
  | .http none true text => .malformed text
  | .http none false _ => .network
  | .other text => .malformed text

/-- An entry of a page; `lfs` is the `oid` of what it has for LFS. -/
structure Entry where
  kind : String
  path : String
  oid : Option String
  size : ℕ
  lfs : Option String
  deriving DecidableEq

/-- What a page's entry with no hash does to the listing. -/
inductive Unhashed where
  | refuse
  | skip
  deriving DecidableEq

structure Server where
  page : Url → Except FetchError Page
  commit : Url → Except FetchError String
  json : String → Except String (List Entry)

def lowercase (text : String) : String := String.ofList (text.toList.map Char.toLower)

/-- The LFS SHA-256 before the git hash. -/
def Entry.hash (entry : Entry) : Option Hash :=
  match entry.lfs, entry.oid with
  | some oid, _ => some (.sha256 (lowercase oid))
  | none, some oid => some (.gitBlobSha1 (lowercase oid))
  | none, none => none

def Entry.read (unhashed : Unhashed) (entry : Entry) :
    Option (Except HfError RemoteFile) :=
  match entry.hash, unhashed with
  | some hash, _ => some (.ok ⟨entry.path, entry.size, hash⟩)
  | none, .skip => none
  | none, .refuse => some (.error (.malformed (entry.path ++ " has no hash")))

def parsePage (server : Server) (unhashed : Unhashed) (body : String) :
    Except HfError (List RemoteFile) :=
  match server.json body with
  | .error cause => .error (.malformed ("not a folder listing: " ++ cause))
  | .ok entries =>
      ((entries.filter fun entry => entry.kind == "file").filterMap
        (Entry.read unhashed)).mapM id

/-- One repository on a Hub. -/
structure Hub where
  base : List Char
  repo : List Char
  deriving DecidableEq

def Hub.withBase (base repo : List Char) : Hub := ⟨base.rdropWhile (· == '/'), repo⟩

/-- A folder on Hugging Face. -/
structure Folder where
  base : List Char
  repo : List Char
  revision : List Char
  path : List Char
  deriving DecidableEq

namespace Folder

def text (folder : Folder) : List Char :=
  folder.base ++ '/' :: folder.repo ++ "/tree/".toList ++ folder.revision ++
    '/' :: folder.path

end Folder

/-- A folder's files at one commit, and the Hub they were read through. -/
structure Listing where
  hub : Hub
  folder : Folder
  commit : String
  files : List RemoteFile

namespace Hub

variable (server : Server) (hub : Hub)

def forFolder (folder : Folder) : Hub := withBase folder.base folder.repo

def resolve (revision : List Char) : Except HfError String :=
  (server.commit (hub.base ++ "/api/models/".toList ++ hub.repo ++
    "/revision/".toList ++ revision)).mapError failure

/-- The URL that a folder's first page is at. -/
def firstPage (commit folder : List Char) : Url :=
  hub.base ++ "/api/models/".toList ++ hub.repo ++ "/tree/".toList ++ commit ++
    '/' :: Text.trimMatches (· == '/') folder

def notFollowed (next : Url) : HfError :=
  .malformed ("the listing's next page, " ++ String.ofList next ++
    ", is another host's or one already read")

/-- The pages from `url` on, in at most `fuel` rounds. -/
def listFrom (unhashed : Unhashed) :
    ℕ → Url → List RemoteFile → List Url → Option (Except HfError (List RemoteFile))
  | 0, _, _, _ => none
  | fuel + 1, url, files, visited =>
      match server.page url with
      | .error cause => some (.error (failure cause))
      | .ok page =>
          match parsePage server unhashed page.body with
          | .error error => some (.error error)
          | .ok more =>
              let files := files ++ more
              let visited := url :: visited
              match page.next with
              | none => some (.ok files)
              | some next =>
                  if !(hub.base ++ ['/']).isPrefixOf next || visited.contains next then
                    some (.error (notFollowed next))
                  else listFrom unhashed fuel next files visited

def listPages (fuel : ℕ) (commit folder : List Char) (unhashed : Unhashed) :
    Option (Except HfError (List RemoteFile)) :=
  listFrom server hub unhashed fuel (hub.firstPage commit folder) [] []

def list (fuel : ℕ) (commit folder : List Char) :
    Option (Except HfError (List RemoteFile)) :=
  hub.listPages server fuel commit folder .refuse

end Hub

namespace Listing

variable (server : Server)

def readWith (fuel : ℕ) (hub : Hub) (folder : Folder) :
    Option (Except HfError Listing) :=
  if hub.base ≠ folder.base.rdropWhile (· == '/') ∨ hub.repo ≠ folder.repo then
    some (.error (.wrongRepository (String.ofList (hub.base ++ '/' :: hub.repo))
      (String.ofList folder.text)))
  else
    match hub.resolve server folder.revision with
    | .error error => some (.error error)
    | .ok commit =>
        (hub.listPages server fuel commit.toList folder.path .skip).map fun listed =>
          listed.map fun files => ⟨hub, folder, commit, files⟩

def read (fuel : ℕ) (folder : Folder) : Option (Except HfError Listing) :=
  readWith server fuel (.forFolder folder) folder

end Listing

section Whole

/-- What an entry adds to a listing: a file, under what it has for LFS, and under its git
hash if it has nothing for LFS. -/
def Entry.listed (entry : Entry) : Option RemoteFile :=
  if entry.kind = "file" then
    match entry.lfs, entry.oid with
    | some sha256, _ => some ⟨entry.path, entry.size, .sha256 (lowercase sha256)⟩
    | none, some sha1 => some ⟨entry.path, entry.size, .gitBlobSha1 (lowercase sha1)⟩
    | none, none => none
  else none

/-- Entries of which every file has one of the two, where a file without is refused. -/
def Accepted (unhashed : Unhashed) (entries : List Entry) : Prop :=
  unhashed = .refuse → ∀ entry ∈ entries, entry.kind = "file" →
    entry.lfs.isSome = true ∨ entry.oid.isSome = true

namespace Server

variable (server : Server) (url : Url)

def next : Option Url := (server.page url).toOption.bind Page.next

/-- The entries of a page that answers and parses. -/
def entries : Option (List Entry) :=
  (server.page url).toOption.bind fun page => (server.json page.body).toOption

def listed : List RemoteFile := ((server.entries url).getD []).filterMap Entry.listed

end Server

/-- The pages at `urls`, from the first one on: each is linked from the one before it,
on this Hub, none is there twice, the last one has no next, all of them answer and
parse, and `files` are the files of all, in their order. -/
structure ReadWhole (server : Server) (base : List Char) (unhashed : Unhashed)
    (first : Url) (urls : List Url) (files : List RemoteFile) : Prop where
  first : urls.head? = some first
  once : urls.Nodup
  follows : urls.IsChain fun url next =>
    server.next url = some next ∧ base ++ ['/'] <+: next
  last : ∀ url ∈ urls.getLast?, server.next url = none
  reads : ∀ url ∈ urls, ∃ entries, server.entries url = some entries ∧
    Accepted unhashed entries
  files : files = urls.flatMap server.listed

variable {server : Server} {hub : Hub} {unhashed : Unhashed}

theorem Entry.listed_of_file {entry : Entry} (hkind : entry.kind = "file") :
    entry.listed = entry.hash.map fun hash => ⟨entry.path, entry.size, hash⟩ := by
  rw [Entry.listed, if_pos hkind, Entry.hash]
  cases entry.lfs with
  | some sha256 => rfl
  | none => cases entry.oid <;> rfl

theorem Entry.isSome_hash (entry : Entry) : entry.hash.isSome = true ↔
    entry.lfs.isSome = true ∨ entry.oid.isSome = true := by
  rw [Entry.hash]
  cases entry.lfs with
  | some sha256 => exact iff_of_true rfl (.inl rfl)
  | none => cases entry.oid <;> simp

theorem Accepted.cons {entry : Entry} {entries : List Entry} :
    Accepted unhashed (entry :: entries) ↔
      (unhashed = .refuse → entry.kind = "file" → entry.hash.isSome = true) ∧
        Accepted unhashed entries := by
  simp only [Accepted, List.forall_mem_cons, Entry.isSome_hash]
  exact forall_and

theorem mapM_cons_eq_ok {x : Except HfError RemoteFile}
    {xs : List (Except HfError RemoteFile)} {files : List RemoteFile} :
    (x :: xs).mapM id = Except.ok files ↔
      ∃ file, x = .ok file ∧ ∃ rest, xs.mapM id = .ok rest ∧ file :: rest = files := by
  rw [List.mapM_cons, Attempt.bind_eq_ok]
  refine exists_congr fun file => and_congr_right fun _ => ?_
  rw [Attempt.bind_eq_ok]
  refine exists_congr fun rest => and_congr_right fun _ => ?_
  exact ⟨Except.ok.inj, congrArg Except.ok⟩

/-- The files of a page's entries, if none is refused. -/
theorem collect_eq_ok {entries : List Entry} {files : List RemoteFile} :
    ((entries.filter fun entry => entry.kind == "file").filterMap
        (Entry.read unhashed)).mapM id = Except.ok files ↔
      Accepted unhashed entries ∧ files = entries.filterMap Entry.listed := by
  induction entries generalizing files with
  | nil =>
      have hnone : Accepted unhashed [] := fun _ => List.forall_mem_nil _
      refine Iff.trans ?_ (and_iff_right hnone).symm
      exact ⟨fun h => (Except.ok.inj h).symm, fun h => congrArg Except.ok h.symm⟩
  | cons entry entries ih =>
      rw [Accepted.cons]
      by_cases hkind : entry.kind = "file"
      · rw [List.filter_cons_of_pos (by simpa using hkind)]
        cases hhash : entry.hash with
        | some hash =>
            have hread : entry.read unhashed =
                some (.ok ⟨entry.path, entry.size, hash⟩) := by
              unfold Entry.read
              rw [hhash]
            have hlisted : entry.listed = some ⟨entry.path, entry.size, hash⟩ := by
              rw [Entry.listed_of_file hkind, hhash, Option.map_some]
            rw [List.filterMap_cons_some hread, List.filterMap_cons_some hlisted,
              mapM_cons_eq_ok]
            simp [ih, eq_comm, and_assoc]
        | none =>
            have hlisted : entry.listed = none := by
              rw [Entry.listed_of_file hkind, hhash, Option.map_none]
            rw [List.filterMap_cons_none hlisted]
            cases unhashed with
            | skip =>
                have hread : entry.read .skip = none := by
                  unfold Entry.read
                  rw [hhash]
                rw [List.filterMap_cons_none hread, ih]
                simp
            | refuse =>
                have hread : entry.read .refuse =
                    some (.error (.malformed (entry.path ++ " has no hash"))) := by
                  unfold Entry.read
                  rw [hhash]
                rw [List.filterMap_cons_some hread, mapM_cons_eq_ok]
                simp [hkind]
      · rw [List.filter_cons_of_neg (by simpa using hkind), ih]
        simp [Entry.listed, hkind]

theorem parsePage_eq_ok {body : String} {files : List RemoteFile} :
    parsePage server unhashed body = .ok files ↔
      ∃ entries, server.json body = .ok entries ∧ Accepted unhashed entries ∧
        files = entries.filterMap Entry.listed := by
  unfold parsePage
  cases server.json body with
  | error cause => simp
  | ok entries => simp [collect_eq_ok]

namespace ReadWhole

variable {base : List Char} {url : Url} {urls : List Url} {files : List RemoteFile}

theorem single (hnext : server.next url = none)
    (hreads : ∃ entries, server.entries url = some entries ∧
      Accepted unhashed entries) :
    ReadWhole server base unhashed url [url] (server.listed url) where
  first := rfl
  once := List.nodup_singleton url
  follows := .singleton url
  last last hlast := Option.some.inj hlast ▸ hnext
  reads := List.forall_mem_singleton.mpr hreads
  files := by simp

theorem cons {next : Url} (h : ReadWhole server base unhashed next urls files)
    (hnext : server.next url = some next) (hbase : base ++ ['/'] <+: next)
    (hnew : url ∉ urls)
    (hreads : ∃ entries, server.entries url = some entries ∧
      Accepted unhashed entries) :
    ReadWhole server base unhashed url (url :: urls) (server.listed url ++ files) where
  first := rfl
  once := List.nodup_cons.mpr ⟨hnew, h.once⟩
  follows := List.isChain_cons.mpr ⟨fun v hv => by
    rw [h.first] at hv
    exact Option.some.inj hv ▸ ⟨hnext, hbase⟩, h.follows⟩
  last last hlast := by
    obtain ⟨v, rest, rfl⟩ := List.exists_cons_of_ne_nil
      (l := urls) (by rintro rfl; cases h.first)
    exact h.last last hlast
  reads := List.forall_mem_cons.mpr ⟨hreads, h.reads⟩
  files := by rw [List.flatMap_cons, h.files]

/-- The first page, and what comes after it. -/
theorem eq_cons (h : ReadWhole server base unhashed url urls files) :
    (∃ entries, server.entries url = some entries ∧ Accepted unhashed entries) ∧
    ∃ rest, urls = url :: rest ∧
      (rest = [] ∧ server.next url = none ∧ files = server.listed url ∨
        ∃ next more, server.next url = some next ∧ base ++ ['/'] <+: next ∧
          url ∉ rest ∧ ReadWhole server base unhashed next rest more ∧
          files = server.listed url ++ more) := by
  obtain ⟨rest, rfl⟩ : ∃ rest, urls = url :: rest := by
    cases urls with
    | nil => cases h.first
    | cons first rest =>
        obtain rfl := Option.some.inj h.first
        exact ⟨rest, rfl⟩
  obtain ⟨hreads, hrest⟩ := List.forall_mem_cons.mp h.reads
  refine ⟨hreads, rest, rfl, ?_⟩
  cases rest with
  | nil =>
      refine .inl ⟨rfl, h.last url rfl, ?_⟩
      rw [h.files]
      simp
  | cons next rest =>
      obtain ⟨hfollows, hchain⟩ := List.isChain_cons.mp h.follows
      obtain ⟨hnext, hbase⟩ := hfollows next rfl
      obtain ⟨hnew, honce⟩ := List.nodup_cons.mp h.once
      refine .inr ⟨next, (next :: rest).flatMap server.listed, hnext, hbase, hnew,
        ?_, ?_⟩
      · exact ⟨rfl, honce, hchain, fun last hlast => h.last last hlast, hrest, rfl⟩
      · rw [h.files, List.flatMap_cons]

end ReadWhole

theorem Server.next_of_page {url : Url} {page : Page}
    (hpage : server.page url = .ok page) : server.next url = page.next := by
  rw [Server.next, hpage]
  exact rfl

/-- A page that answers parses just when its entries are read and accepted. -/
theorem Server.parsePage_of_page {url : Url} {page : Page} {files : List RemoteFile}
    (hpage : server.page url = .ok page) :
    parsePage server unhashed page.body = .ok files ↔
      (∃ entries, server.entries url = some entries ∧ Accepted unhashed entries) ∧
        files = server.listed url := by
  have hentries : server.entries url = (server.json page.body).toOption := by
    rw [Server.entries, hpage]
    exact rfl
  rw [parsePage_eq_ok, Server.listed, hentries]
  cases server.json page.body with
  | error cause => simp [Except.toOption]
  | ok entries => simp [Except.toOption]

/-- The pages from `url` on can be read whole, and none of them has been read. -/
def LeftToRead (server : Server) (base : List Char) (unhashed : Unhashed)
    (visited : List Url) (url : Url) (files : List RemoteFile) : Prop :=
  ∃ urls, ReadWhole server base unhashed url urls files ∧ ∀ read ∈ urls, read ∉ visited

section Left

variable {base : List Char} {visited : List Url} {url next : Url}
  {files : List RemoteFile}

theorem LeftToRead.reads (h : LeftToRead server base unhashed visited url files) :
    ∃ entries, server.entries url = some entries ∧ Accepted unhashed entries := by
  obtain ⟨urls, hwhole, -⟩ := h
  exact hwhole.eq_cons.1

theorem leftToRead_of_last (hnew : url ∉ visited) (hnext : server.next url = none)
    (hreads : ∃ entries, server.entries url = some entries ∧
      Accepted unhashed entries) :
    LeftToRead server base unhashed visited url files ↔ files = server.listed url := by
  constructor
  · rintro ⟨urls, hwhole, -⟩
    obtain ⟨-, rest, -, ⟨-, -, hfiles⟩ | ⟨next, more, hsome, -⟩⟩ := hwhole.eq_cons
    · exact hfiles
    · rw [hnext] at hsome
      cases hsome
  · rintro rfl
    exact ⟨[url], .single hnext hreads, List.forall_mem_singleton.mpr hnew⟩

theorem leftToRead_of_next (hnew : url ∉ visited) (hnext : server.next url = some next)
    (hreads : ∃ entries, server.entries url = some entries ∧
      Accepted unhashed entries) :
    LeftToRead server base unhashed visited url files ↔
      base ++ ['/'] <+: next ∧ next ∉ url :: visited ∧ ∃ more,
        LeftToRead server base unhashed (url :: visited) next more ∧
          files = server.listed url ++ more := by
  constructor
  · rintro ⟨urls, hwhole, hunread⟩
    obtain ⟨-, rest, rfl, ⟨-, hnone, -⟩ |
      ⟨next', more, hsome, hbase, hfresh, hrest, rfl⟩⟩ := hwhole.eq_cons
    · rw [hnext] at hnone
      cases hnone
    · obtain rfl := Option.some.inj (hnext.symm.trans hsome)
      have hafter : ∀ read ∈ rest, read ∉ url :: visited := by
        intro read hread hmem
        rcases List.mem_cons.mp hmem with rfl | hmem
        · exact hfresh hread
        · exact hunread read (List.mem_cons_of_mem _ hread) hmem
      exact ⟨hbase, hafter next (List.mem_of_mem_head? hrest.first), more,
        ⟨rest, hrest, hafter⟩, rfl⟩
  · rintro ⟨hbase, -, more, ⟨rest, hrest, hafter⟩, rfl⟩
    refine ⟨url :: rest, hrest.cons hnext hbase ?_ hreads, ?_⟩
    · exact fun hmem => hafter url hmem List.mem_cons_self
    · refine List.forall_mem_cons.mpr ⟨hnew, fun read hread hmem => ?_⟩
      exact hafter read hread (List.mem_cons_of_mem _ hmem)

end Left

/-- What the loop comes to, in whatever rounds, is what is left to read. -/
theorem Hub.listFrom_eq_ok {fuel : ℕ} {url : Url} {files out : List RemoteFile}
    {visited : List Url} {result : Except HfError (List RemoteFile)}
    (hresult : hub.listFrom server unhashed fuel url files visited = some result)
    (hnew : url ∉ visited) :
    result = .ok out ↔ ∃ more, LeftToRead server hub.base unhashed visited url more ∧
      out = files ++ more := by
  induction fuel generalizing url files visited with
  | zero => cases hresult
  | succ fuel ih =>
      unfold Hub.listFrom at hresult
      cases hpage : server.page url with
      | error cause =>
          rw [hpage] at hresult
          obtain rfl := Option.some.inj hresult
          refine iff_of_false (by simp) ?_
          rintro ⟨more, hleft, -⟩
          obtain ⟨entries, hentries, -⟩ := hleft.reads
          rw [Server.entries, hpage] at hentries
          cases hentries
      | ok page =>
          rw [hpage] at hresult
          dsimp only at hresult
          have hnext := Server.next_of_page hpage
          cases hparsed : parsePage server unhashed page.body with
          | error error =>
              rw [hparsed] at hresult
              obtain rfl := Option.some.inj hresult
              refine iff_of_false (by simp) ?_
              rintro ⟨more, hleft, -⟩
              have hok := (Server.parsePage_of_page hpage).mpr ⟨hleft.reads, rfl⟩
              rw [hparsed] at hok
              cases hok
          | ok first =>
              obtain ⟨hreads, rfl⟩ := (Server.parsePage_of_page hpage).mp hparsed
              rw [hparsed] at hresult
              dsimp only at hresult
              cases htarget : page.next with
              | none =>
                  rw [htarget] at hresult hnext
                  obtain rfl := Option.some.inj hresult
                  simp only [leftToRead_of_last hnew hnext hreads, exists_eq_left,
                    Except.ok.injEq, eq_comm]
              | some next =>
                  rw [htarget] at hresult hnext
                  dsimp only at hresult
                  simp only [leftToRead_of_next hnew hnext hreads]
                  split at hresult
                  · rename_i hrefused
                    obtain rfl := Option.some.inj hresult
                    refine iff_of_false (by simp) ?_
                    rintro ⟨more, ⟨hbase, hfresh, -⟩, -⟩
                    simp only [Bool.or_eq_true, Bool.not_eq_true',
                      List.contains_iff_mem, ← Bool.not_eq_true,
                      List.isPrefixOf_iff_prefix] at hrefused
                    exact hrefused.elim (absurd hbase) hfresh
                  · rename_i hfollowed
                    simp only [Bool.or_eq_true, Bool.not_eq_true',
                      List.contains_iff_mem, ← Bool.not_eq_true,
                      List.isPrefixOf_iff_prefix, not_or, not_not] at hfollowed
                    rw [ih hresult hfollowed.2]
                    constructor
                    · rintro ⟨more, hleft, rfl⟩
                      exact ⟨_, ⟨hfollowed.1, hfollowed.2, more, hleft, rfl⟩,
                        List.append_assoc _ _ _⟩
                    · rintro ⟨_, ⟨-, -, more, hleft, rfl⟩, rfl⟩
                      exact ⟨more, hleft, (List.append_assoc _ _ _).symm⟩

/-- The loop ends within as many rounds as there are pages still to be named, and one,
as what it reads next is named by one that it has read and is not among those. -/
theorem Hub.listFrom_isSome {pages : List Page} {first : Url}
    (hpages : ∀ url page, server.page url = .ok page → page ∈ pages) {fuel : ℕ}
    {url : Url} {files : List RemoteFile} {visited : List Url}
    (hnodup : (url :: visited).Nodup)
    (hnamed : url :: visited ⊆ first :: pages.filterMap Page.next)
    (hfuel : pages.length < fuel + visited.length) :
    (hub.listFrom server unhashed fuel url files visited).isSome = true := by
  induction fuel generalizing url files visited with
  | zero =>
      have hle := (hnodup.subperm hnamed).length_le
      have hfew := List.length_filterMap_le Page.next pages
      rw [List.length_cons, List.length_cons] at hle
      omega
  | succ fuel ih =>
      unfold Hub.listFrom
      cases hpage : server.page url with
      | error cause => exact rfl
      | ok page =>
          dsimp only
          cases parsePage server unhashed page.body with
          | error error => exact rfl
          | ok more =>
              dsimp only
              cases hnext : page.next with
              | none => exact rfl
              | some next =>
                  dsimp only
                  split
                  · exact rfl
                  · rename_i hfollowed
                    simp only [Bool.or_eq_true, not_or, List.contains_iff_mem]
                      at hfollowed
                    refine ih (List.nodup_cons.mpr ⟨hfollowed.2, hnodup⟩) ?_ ?_
                    · refine List.cons_subset.mpr ⟨List.mem_cons_of_mem _ ?_, hnamed⟩
                      exact List.mem_filterMap.mpr ⟨page, hpages url page hpage, hnext⟩
                    · rw [List.length_cons]
                      omega

/-- More rounds than the loop needs change nothing. -/
theorem Hub.listFrom_mono {fuel fuel' : ℕ} (hle : fuel ≤ fuel') {url : Url}
    {files : List RemoteFile} {visited : List Url}
    {result : Except HfError (List RemoteFile)}
    (h : hub.listFrom server unhashed fuel url files visited = some result) :
    hub.listFrom server unhashed fuel' url files visited = some result := by
  induction fuel generalizing fuel' url files visited with
  | zero => cases h
  | succ fuel ih =>
      obtain ⟨fuel', rfl⟩ :=
        Nat.exists_eq_add_of_le' (Nat.lt_of_lt_of_le fuel.succ_pos hle)
      unfold Hub.listFrom at h ⊢
      cases hpage : server.page url with
      | error cause =>
          rw [hpage] at h
          exact h
      | ok page =>
          rw [hpage] at h
          dsimp only at h ⊢
          cases hparsed : parsePage server unhashed page.body with
          | error error =>
              rw [hparsed] at h
              exact h
          | ok more =>
              rw [hparsed] at h
              dsimp only at h ⊢
              cases hnext : page.next with
              | none =>
                  rw [hnext] at h
                  exact h
              | some next =>
                  rw [hnext] at h
                  dsimp only at h ⊢
                  split at h
                  · rename_i hrefused
                    rw [if_pos hrefused]
                    exact h
                  · rename_i hfollowed
                    rw [if_neg hfollowed]
                    exact ih (Nat.le_of_succ_le_succ hle) h

theorem Hub.listPages_ends {pages : List Page}
    (hpages : ∀ url page, server.page url = .ok page → page ∈ pages)
    (hub : Hub) (commit folder : List Char) (unhashed : Unhashed) :
    ∃ result, (∀ fuel, pages.length < fuel →
        hub.listPages server fuel commit folder unhashed = some result) ∧
      ∀ files, result = .ok files ↔ ∃ urls, ReadWhole server hub.base unhashed
        (hub.firstPage commit folder) urls files := by
  have hsome : (hub.listPages server (pages.length + 1) commit folder unhashed).isSome =
      true :=
    Hub.listFrom_isSome hpages (List.nodup_singleton _)
      (List.cons_subset.mpr ⟨List.mem_cons_self, List.nil_subset _⟩)
      (Nat.lt_succ_self _)
  obtain ⟨result, hresult⟩ := Option.isSome_iff_exists.mp hsome
  refine ⟨result, fun fuel hfuel => Hub.listFrom_mono hfuel hresult, fun files => ?_⟩
  rw [Hub.listFrom_eq_ok hresult List.not_mem_nil]
  simp [LeftToRead]

/-- A listing that can be read, of a folder at the commit of its revision. -/
theorem Listing.read_ends {pages : List Page}
    (hpages : ∀ url page, server.page url = .ok page → page ∈ pages) (folder : Folder) :
    ∃ result, (∀ fuel, pages.length < fuel →
        Listing.read server fuel folder = some result) ∧
      ∀ listing, result = .ok listing ↔
        listing.hub = .forFolder folder ∧ listing.folder = folder ∧
        (Hub.forFolder folder).resolve server folder.revision = .ok listing.commit ∧
        ∃ urls, ReadWhole server (Hub.forFolder folder).base .skip
          ((Hub.forFolder folder).firstPage listing.commit.toList folder.path) urls
          listing.files := by
  have hright : ¬((Hub.forFolder folder).base ≠ folder.base.rdropWhile (· == '/') ∨
      (Hub.forFolder folder).repo ≠ folder.repo) := by
    simp [Hub.forFolder, Hub.withBase]
  unfold Listing.read Listing.readWith
  simp only [if_neg hright]
  cases hcommit : (Hub.forFolder folder).resolve server folder.revision with
  | error error =>
      refine ⟨.error error, fun _ _ => rfl, fun listing => iff_of_false (by simp) ?_⟩
      rintro ⟨-, -, hresolved, -⟩
      cases hresolved
  | ok commit =>
      obtain ⟨listed, hlisted, hwhole⟩ := Hub.listPages_ends hpages (.forFolder folder)
        commit.toList folder.path .skip
      refine ⟨listed.map fun files => ⟨.forFolder folder, folder, commit, files⟩,
        fun fuel hfuel => ?_, fun listing => ?_⟩
      · dsimp only
        rw [hlisted fuel hfuel, Option.map_some]
      · obtain ⟨hub, folder', commit', files⟩ := listing
        cases listed with
        | error error =>
            refine iff_of_false (by simp [Except.map]) ?_
            rintro ⟨-, -, hresolved, hurls⟩
            obtain rfl := Except.ok.inj hresolved
            cases (hwhole files).mpr hurls
        | ok found =>
            constructor
            · intro hok
              obtain ⟨rfl, rfl, rfl, rfl⟩ := Listing.mk.inj (Except.ok.inj hok)
              exact ⟨rfl, rfl, rfl, (hwhole _).mp rfl⟩
            · rintro ⟨hhub, hfolder, hresolved, hurls⟩
              dsimp only at hhub hfolder hresolved hurls
              obtain rfl := Except.ok.inj hresolved
              obtain rfl := Except.ok.inj ((hwhole files).mpr hurls)
              subst hhub
              subst hfolder
              exact rfl

/-- On a server with finitely many pages a listing ends, and it is read whole or
refused: it comes to files exactly if the pages from the first one on can be read whole,
and then to their files. -/
theorem listing_whole_or_refused {pages : List Page}
    (hpages : ∀ url page, server.page url = .ok page → page ∈ pages) :
    (∀ (hub : Hub) (commit folder : List Char),
      ∃ result, (∀ fuel, pages.length < fuel →
          hub.list server fuel commit folder = some result) ∧
        ∀ files, result = .ok files ↔ ∃ urls, ReadWhole server hub.base .refuse
          (hub.firstPage commit folder) urls files) ∧
    ∀ folder : Folder,
      ∃ result, (∀ fuel, pages.length < fuel →
          Listing.read server fuel folder = some result) ∧
        ∀ listing, result = .ok listing ↔
          listing.hub = .forFolder folder ∧ listing.folder = folder ∧
          (Hub.forFolder folder).resolve server folder.revision = .ok listing.commit ∧
          ∃ urls, ReadWhole server (Hub.forFolder folder).base .skip
            ((Hub.forFolder folder).firstPage listing.commit.toList folder.path) urls
            listing.files :=
  ⟨fun hub commit folder => Hub.listPages_ends hpages hub commit folder .refuse,
    Listing.read_ends hpages⟩

end Whole

section Examples

/-- A file with both hashes, one with a git hash alone and a folder on a first page that
names a second one, which has a file with no hash. -/
def twoPages : Server where
  page url :=
    if url = "h/n".toList then .ok ⟨"last", []⟩
    else .ok ⟨"first", ["<h/n>; rel=next".toList]⟩
  commit _ := .ok "c"
  json body :=
    if body = "first" then
      .ok [⟨"file", "a", some "0A", 1, some "0B"⟩, ⟨"directory", "d", some "0D", 0, none⟩,
        ⟨"file", "b", some "0C", 2, none⟩]
    else .ok [⟨"file", "e", none, 3, none⟩]

def twoPagesFolder : Folder := ⟨['h'], ['r'], "main".toList, "f".toList⟩

/-- The LFS hash comes before the git hash, the file with none is left out, and refused
where it may not be. -/
theorem listing_whole_or_refused_twoPages :
    (∃ listing, (∀ fuel, 2 < fuel → Listing.read twoPages fuel twoPagesFolder =
        some (.ok listing)) ∧
      listing.files = [⟨"a", 1, .sha256 "0b"⟩, ⟨"b", 2, .gitBlobSha1 "0c"⟩]) ∧
    ∃ result, (∀ fuel, 2 < fuel → Hub.list twoPages ⟨['h'], ['r']⟩ fuel "c".toList
        "f".toList = some result) ∧ ¬∃ files, result = .ok files := by
  have hpages : ∀ url page, twoPages.page url = .ok page →
      page ∈ [(⟨"last", []⟩ : Page), ⟨"first", ["<h/n>; rel=next".toList]⟩] := by
    intro url page hpage
    simp only [twoPages] at hpage
    split at hpage
    · obtain rfl := Except.ok.inj hpage
      exact List.mem_cons_self
    · obtain rfl := Except.ok.inj hpage
      exact List.mem_cons_of_mem _ List.mem_cons_self
  have hfirst : twoPages.next (Hub.firstPage ⟨['h'], ['r']⟩ "c".toList "f".toList) =
      some "h/n".toList := by
    change Page.next ⟨"first", ["<h/n>; rel=next".toList]⟩ = _
    decide +kernel
  have hlast : twoPages.next "h/n".toList = none := by
    change Page.next ⟨"last", []⟩ = _
    decide +kernel
  constructor
  · obtain ⟨result, hresult, hwhole⟩ :=
      (listing_whole_or_refused hpages).2 twoPagesFolder
    refine ⟨⟨.forFolder twoPagesFolder, twoPagesFolder, "c",
      [⟨"a", 1, .sha256 "0b"⟩, ⟨"b", 2, .gitBlobSha1 "0c"⟩]⟩, fun fuel hfuel => ?_, rfl⟩
    rw [hresult fuel hfuel]
    congr 1
    refine (hwhole _).mpr ⟨rfl, rfl, rfl,
      [Hub.firstPage ⟨['h'], ['r']⟩ "c".toList "f".toList, "h/n".toList], ?_⟩
    have hend : ReadWhole twoPages ['h'] .skip "h/n".toList ["h/n".toList] [] :=
      .single hlast ⟨[⟨"file", "e", none, 3, none⟩], rfl, nofun⟩
    exact hend.cons hfirst (by decide) (by decide) ⟨_, rfl, nofun⟩
  · obtain ⟨result, hresult, hwhole⟩ := (listing_whole_or_refused hpages).1 ⟨['h'], ['r']⟩
      "c".toList "f".toList
    refine ⟨result, hresult, ?_⟩
    rintro ⟨files, hok⟩
    obtain ⟨urls, hread⟩ := (hwhole files).mp hok
    obtain ⟨-, rest, rfl, ⟨-, hnone, -⟩ | ⟨next, more, hnext, -, -, hrest, -⟩⟩ := hread.eq_cons
    · rw [hfirst] at hnone
      cases hnone
    · rw [hfirst] at hnext
      obtain rfl := Option.some.inj hnext
      obtain ⟨⟨entries, hentries, haccepted⟩, -⟩ := hrest.eq_cons
      obtain rfl : [⟨"file", "e", none, 3, none⟩] = entries := Option.some.inj hentries
      exact absurd (haccepted rfl _ List.mem_cons_self rfl) (by decide)

end Examples

end Paged

end Ai

end RustSak
