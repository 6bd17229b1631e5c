import RustSak.Memo.MemoryStore
import RustSak.Memo.DiskStore

/-!
# Memory in front of disk

Reads try memory first and fall back to disk, copying a disk hit back into
memory for `promoteTtl`; writes go to both tiers, and either tier taking one
makes it a success. Both tiers are told of a removal, and after a `retain`
memory keeps exactly what disk kept.
-/

namespace RustSak

namespace Memo

open Library

structure CompositeStore where
  memory : MemoryStore
  disk : DiskStore
  promoteTtl : Duration

namespace CompositeStore

/-- Puts a memory tier sized by `opts` in front of `disk`. -/
def withDisk (disk : DiskStore) (opts : CacheOpts) (promoteTtl : Duration) :
    CompositeStore where
  memory := .new opts
  disk := disk
  promoteTtl := promoteTtl

/-- Copies a disk hit into memory, never for longer than the entry has left.
A promotion that is declined costs a future hit, nothing more. -/
def promote (P : Platform) (s : CompositeStore) (key : Key) (entry : Entry)
    (now : Instant) : MemoryStore :=
  if s.promoteTtl = 0 then
    s.memory
  else
    let ttl := entry.remaining.elim s.promoteTtl (min s.promoteTtl)
    (s.memory.set P key entry.value ttl now).1

def get (P : Platform) (s : CompositeStore) (key : Key) (now later : Now)
    (redb : Redb) : CompositeStore × StoreResult (Option Entry) :=
  match s.memory.get key now.instant with
  | some entry => (s, .ok (some entry))
  | none =>
      match s.disk.get key now.wall redb with
      | .error err => (s, .error err)
      | .ok none => (s, .ok none)
      | .ok (some entry) =>
          ({ s with memory := s.promote P key entry later.instant },
            .ok (some entry))

/-- Both tiers are always visited; the disk error is reported over the memory
one. -/
def set (P : Platform) (s : CompositeStore) (key : Key) (value : Bytes)
    (ttl : Duration) (now : Now) (redb : Redb) :
    CompositeStore × StoreResult Unit :=
  let disk := s.disk.set P key value ttl now redb
  let memory := s.memory.set P key value ttl now.instant
  ({ s with memory := memory.1, disk := disk.1 },
    match disk.2, memory.2 with
    | .ok (), _ => .ok ()
    | _, .ok () => .ok ()
    | .error err, .error _ => .error err)

/-- Memory is always visited, so a failing disk cannot leave the key served
from the front tier. -/
def remove (s : CompositeStore) (key : Key) (now : Now) (redb : Redb) :
    CompositeStore × StoreResult Bool :=
  let disk := s.disk.remove key now redb
  let memory := s.memory.remove key now.instant
  ({ s with memory := memory.1, disk := disk.1 },
    match disk.2 with
    | .ok removed => .ok (removed || memory.2)
    | .error err => .error err)

/-- The keys the disk tier has kept: those it asked `keep` about, and `keep`
accepted. -/
def keptKeys (s : CompositeStore) (keep : Key → Bool) (now : SystemTime)
    (redb : Redb) (key : Key) : Bool :=
  match s.disk.db.openTable redb with
  | .table t => (t.lookup key).any (DiskStore.kept keep now key)
  | .doesNotExist => false
  | .error => false

/-- The disk tier alone asks `keep`; memory then keeps exactly what disk
kept. -/
def retain (s : CompositeStore) (keep : Key → Bool) (now : Now) (redb : Redb) :
    CompositeStore × StoreResult ℕ :=
  match s.disk.retain keep now redb with
  | (disk, .ok removed) =>
      let kept := s.keptKeys keep now.wall redb
      ({ s with memory := (s.memory.retain kept now.instant).1, disk := disk },
        .ok removed)
  | (disk, .error err) => ({ s with disk := disk }, .error err)

def cleanup (s : CompositeStore) (now : SystemTime) (redb : Redb)
    (busy compacts : Bool) : CompositeStore × StoreResult Unit :=
  let disk := s.disk.cleanup now redb busy compacts
  ({ s with disk := disk.1 }, disk.2)

def flush (s : CompositeStore) (now : Instant) (redb : Redb) :
    CompositeStore × StoreResult Unit :=
  let disk := s.disk.flush now redb
  ({ s with disk := disk.1 }, disk.2)

/-- One call of the store. -/
def exec (P : Platform) (s : CompositeStore) : Call → CompositeStore × Reply
  | .get key now later redb =>
      let r := s.get P key now later redb
      (r.1, .got r.2)
  | .set key value ttl now redb =>
      let r := s.set P key value ttl now redb
      (r.1, .done r.2)
  | .remove key now redb =>
      let r := s.remove key now redb
      (r.1, .removed r.2)
  | .retain keep now redb =>
      let r := s.retain keep now redb
      (r.1, .retained r.2)
  | .cleanup now redb busy compacts =>
      let r := s.cleanup now.wall redb busy compacts
      (r.1, .done r.2)
  | .flush now redb =>
      let r := s.flush now.instant redb
      (r.1, .done r.2)

def evict (s : CompositeStore) (doomed : Key → Bool) : CompositeStore :=
  { s with memory := s.memory.evict doomed }

end CompositeStore

end Memo

end RustSak
