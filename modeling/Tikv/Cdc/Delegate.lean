import Tikv.Lib.AssocList

/-!
The lock tracker of a CDC delegate (src/components/cdc/src/delegate.rs) and the memory quota it
charges (src/components/tikv_util/src/memory.rs). While the initial lock scan runs the delegate
keeps the lock events it is fed as Track and Untrack deltas; the scan's locks are then given to
\x60finish_prepare_lock_tracker\x60, which replays the deltas onto them, and from then on the events
update the tracked locks directly. A key's \x60approximate_heap_size\x60 is the capacity of the
vector holding it, so a key is kept with that capacity. The region, the downstreams and the
gauge of the source are left out, and one thread uses the quota.
-/

namespace Tikv.Util

def MAX_MEMORY_ALLOC_SIZE : Nat := 2 ^ 48

structure MemoryQuotaExceeded where
  deriving DecidableEq, Repr

structure MemoryQuota where
  in_use : Int
  capacity : Nat
  deriving DecidableEq, Repr

namespace MemoryQuota

/-- The room left is a saturating isize difference cast to usize, so a negative one wraps round
and passes the first check; the re-check after \x60fetch_add\x60 compares with the count before
the add, which on one thread is the count the first check read. -/
def alloc (q : MemoryQuota) (bytes : Nat) : Except MemoryQuotaExceeded MemoryQuota :=
  let room : Int := q.capacity - q.in_use
  let room_usize : Nat := (if room < 0 then room + 2 ^ 64 else room).toNat
  if room_usize < bytes ∨ MAX_MEMORY_ALLOC_SIZE < bytes then .error ⟨⟩
  else if room < bytes then .error ⟨⟩
  else .ok { q with in_use := q.in_use + bytes }

def free (q : MemoryQuota) (bytes : Nat) : MemoryQuota :=
  if MAX_MEMORY_ALLOC_SIZE < bytes then q
  else
    let new_in_use_bytes := q.in_use - bytes
    if new_in_use_bytes < 0 then { q with in_use := new_in_use_bytes + min (-new_in_use_bytes) bytes }
    else { q with in_use := new_in_use_bytes }

variable {q : MemoryQuota} {bytes : Nat}

theorem alloc_eq : q.alloc bytes =
    if (q.capacity : Int) - q.in_use < bytes ∨ MAX_MEMORY_ALLOC_SIZE < bytes then .error ⟨⟩
    else .ok { q with in_use := q.in_use + bytes } := by
  unfold alloc
  dsimp only
  -- the wrapped room is at least the room whenever the room is not negative
  split_ifs <;> first | rfl | (exfalso; omega)

theorem alloc_ok_iff {q' : MemoryQuota} : q.alloc bytes = .ok q' ↔
    bytes ≤ (q.capacity : Int) - q.in_use ∧ bytes ≤ MAX_MEMORY_ALLOC_SIZE ∧
      q' = { q with in_use := q.in_use + bytes } := by
  rw [alloc_eq]
  split
  · rename_i h
    simp only [reduceCtorEq, false_iff]
    omega
  · rename_i h
    simp only [Except.ok.injEq]
    constructor
    · rintro rfl
      exact ⟨by omega, by omega, rfl⟩
    · rintro ⟨-, -, rfl⟩
      rfl

theorem free_in_use (hb : bytes ≤ MAX_MEMORY_ALLOC_SIZE) (hu : (bytes : Int) ≤ q.in_use) :
    (q.free bytes).in_use = q.in_use - bytes := by
  unfold free
  rw [if_neg (by omega)]
  dsimp only
  rw [if_neg (by omega)]

theorem free_capacity : (q.free bytes).capacity = q.capacity := by
  unfold free
  split
  · rfl
  · dsimp only
    split <;> rfl

end MemoryQuota

end Tikv.Util

namespace Tikv.Cdc

open Tikv.Util (MemoryQuota MemoryQuotaExceeded)
open Tikv.Lib.AssocList (keys)

structure MiniLock where
  ts : UInt64
  txn_source : UInt64
  deriving DecidableEq, Repr

/-- An encoded key as the delegate holds it: its bytes, and the capacity of the vector holding
them, which is what \x60approximate_heap_size\x60 of a \x60Vec<u8>\x60 reports. -/
structure HeldKey where
  encoded : List UInt8
  capacity : Nat
  deriving DecidableEq, Repr

def HeldKey.approximate_heap_size (k : HeldKey) : Nat := k.capacity

inductive PendingLock
  | Track (key : HeldKey) (start_ts : MiniLock)
  | Untrack (key : HeldKey) (start_ts : UInt64)
  deriving DecidableEq, Repr

def PendingLock.approximate_heap_size : PendingLock → Nat
  | .Track key _ | .Untrack key _ => key.approximate_heap_size

/-- \x60BTreeMap<Key, MiniLock>\x60: for the bytes of each key, the capacity of the key the map
holds and the lock; the keys are distinct. The order of the entries plays no part here. -/
structure LockMap where
  entries : List (List UInt8 × Nat × MiniLock)
  nodup : (keys entries).Nodup

namespace LockMap

def empty : LockMap := ⟨[], List.nodup_nil⟩

def get (m : LockMap) (key : List UInt8) : Option (Nat × MiniLock) := m.entries.lookup key

def insert (m : LockMap) (key : HeldKey) (lock : MiniLock) : LockMap :=
  ⟨Lib.AssocList.insert key.encoded (key.capacity, lock) m.entries, Lib.AssocList.nodup_insert m.nodup⟩

def set (m : LockMap) (key : HeldKey) (lock : MiniLock) : LockMap :=
  ⟨Lib.AssocList.modify key.encoded (fun e => (e.1, lock)) m.entries, by
    simpa using m.nodup⟩

def remove (m : LockMap) (key : HeldKey) : LockMap :=
  ⟨Lib.AssocList.erase key.encoded m.entries, Lib.AssocList.nodup_filter m.nodup⟩

def heap_size (m : LockMap) : Nat := (m.entries.map fun e => e.2.1).sum

end LockMap

inductive LockTracker
  | Pending
  | Preparing (locks : List PendingLock)
  | Prepared (locks : LockMap)

structure LockModifiedCount where
  start_ts : UInt64
  count : Int
  deriving DecidableEq, Repr

structure Delegate where
  memory_quota : MemoryQuota
  lock_tracker : LockTracker

namespace Delegate

/-- What a call returns: its result, or the memory quota's refusal, with the delegate it leaves;
\x60none\x60 is a panic (\x60unreachable!\x60 or the assertion of the replay). -/
abbrev Outcome (α : Type) := Option (Except MemoryQuotaExceeded α × Delegate)

def new (memory_quota : MemoryQuota) : Delegate := ⟨memory_quota, .Pending⟩

def push_lock (d : Delegate) (key : HeldKey) (start_ts : MiniLock) :
    Outcome (List LockModifiedCount) :=
  let bytes := key.approximate_heap_size
  let new_start_ts := start_ts.ts
  match d.lock_tracker with
  | .Pending => none
  | .Preparing locks =>
    match d.memory_quota.alloc bytes with
    | .error e => some (.error e, d)
    | .ok q => some (.ok [], ⟨q, .Preparing (locks ++ [.Track key start_ts])⟩)
  | .Prepared locks =>
    match locks.get key.encoded with
    | some (_, old) =>
      let old_start_ts := old.ts
      if old_start_ts ≠ new_start_ts then
        some (.ok [⟨old_start_ts, -1⟩, ⟨new_start_ts, 1⟩],
          { d with lock_tracker := .Prepared (locks.set key start_ts) })
      else some (.ok [], d)
    | none =>
      -- the key goes into the map before the quota is asked for its bytes
      let d := { d with lock_tracker := .Prepared (locks.insert key start_ts) }
      match d.memory_quota.alloc bytes with
      | .error e => some (.error e, d)
      | .ok q => some (.ok [⟨new_start_ts, 1⟩], { d with memory_quota := q })

def pop_lock (d : Delegate) (key : HeldKey) (start_ts : UInt64) :
    Outcome (List LockModifiedCount) :=
  match d.lock_tracker with
  | .Pending => none
  | .Preparing locks =>
    let bytes := key.approximate_heap_size
    match d.memory_quota.alloc bytes with
    | .error e => some (.error e, d)
    | .ok q => some (.ok [], ⟨q, .Preparing (locks ++ [.Untrack key start_ts])⟩)
  | .Prepared locks =>
    match locks.get key.encoded with
    | some (capacity, lock) =>
      if lock.ts = start_ts then
        -- the bytes freed are those of the key the map held, from remove_entry
        some (.ok [⟨start_ts, -1⟩],
          ⟨d.memory_quota.free capacity, .Prepared (locks.remove key)⟩)
      else some (.ok [], d)
    | none => some (.ok [], d)

def init_lock_tracker (d : Delegate) : Bool × Delegate :=
  match d.lock_tracker with
  | .Pending => (true, { d with lock_tracker := .Preparing [] })
  | _ => (false, d)

/-- One delta of the replay onto the scanned locks; \x60none\x60 is the failed \x60assert_eq!\x60 of a
Track on a key the scan found under another lock. -/
def replay (locks : LockMap) : PendingLock → Option LockMap
  | .Track key start_ts =>
    match locks.get key.encoded with
    | none => some (locks.insert key start_ts)
    | some (_, lock) => if lock = start_ts then some locks else none
  | .Untrack key start_ts =>
    match locks.get key.encoded with
    | some (_, lock) => if lock.ts = start_ts then some (locks.remove key) else some locks
    | none => some locks

def finish_prepare_lock_tracker (d : Delegate) (locks : LockMap) : Outcome Unit :=
  match d.lock_tracker with
  | .Preparing delta_locks =>
    -- the tracker stays Pending unless the allocation at the end succeeds
    match delta_locks.foldlM replay locks with
    | none => none
    | some locks =>
      let free_bytes := (delta_locks.map PendingLock.approximate_heap_size).sum
      let d : Delegate := ⟨d.memory_quota.free free_bytes, .Pending⟩
      let alloc_bytes := locks.heap_size
      match d.memory_quota.alloc alloc_bytes with
      | .error e => some (.error e, d)
      | .ok q => some (.ok (), ⟨q, .Prepared locks⟩)
  | _ => none

def drop (d : Delegate) : MemoryQuota :=
  match d.lock_tracker with
  | .Pending => d.memory_quota
  | .Preparing locks => d.memory_quota.free (locks.map PendingLock.approximate_heap_size).sum
  | .Prepared locks => d.memory_quota.free locks.heap_size

section Spec

variable {d d' : Delegate} {key : HeldKey} {lock : MiniLock} {start_ts : UInt64}
  {ps : List PendingLock} {m : LockMap}

theorem push_lock_preparing {r : Except MemoryQuotaExceeded (List LockModifiedCount)}
    (hd : d.lock_tracker = .Preparing ps) (h : d.push_lock key lock = some (r, d')) :
    (∃ q, d.memory_quota.alloc key.capacity = .ok q ∧ r = .ok [] ∧
        d' = ⟨q, .Preparing (ps ++ [.Track key lock])⟩) ∨
      (d.memory_quota.alloc key.capacity = .error ⟨⟩ ∧ r = .error ⟨⟩ ∧ d' = d) := by
  simp only [push_lock, hd, HeldKey.approximate_heap_size] at h
  split at h
  · cases h
    exact Or.inr ⟨‹_›, rfl, rfl⟩
  · cases h
    exact Or.inl ⟨_, ‹_›, rfl, rfl⟩

theorem pop_lock_preparing {r : Except MemoryQuotaExceeded (List LockModifiedCount)}
    (hd : d.lock_tracker = .Preparing ps) (h : d.pop_lock key start_ts = some (r, d')) :
    (∃ q, d.memory_quota.alloc key.capacity = .ok q ∧ r = .ok [] ∧
        d' = ⟨q, .Preparing (ps ++ [.Untrack key start_ts])⟩) ∨
      (d.memory_quota.alloc key.capacity = .error ⟨⟩ ∧ r = .error ⟨⟩ ∧ d' = d) := by
  simp only [pop_lock, hd, HeldKey.approximate_heap_size] at h
  split at h
  · cases h
    exact Or.inr ⟨‹_›, rfl, rfl⟩
  · cases h
    exact Or.inl ⟨_, ‹_›, rfl, rfl⟩

theorem push_lock_prepared {r : Except MemoryQuotaExceeded (List LockModifiedCount)}
    (hd : d.lock_tracker = .Prepared m) (h : d.push_lock key lock = some (r, d')) :
    (∃ c old, m.get key.encoded = some (c, old) ∧ old.ts ≠ lock.ts ∧
        r = .ok [⟨old.ts, -1⟩, ⟨lock.ts, 1⟩] ∧ d' = ⟨d.memory_quota, .Prepared (m.set key lock)⟩) ∨
      (∃ c old, m.get key.encoded = some (c, old) ∧ old.ts = lock.ts ∧ r = .ok [] ∧ d' = d) ∨
      (m.get key.encoded = none ∧
        ((∃ q, d.memory_quota.alloc key.capacity = .ok q ∧ r = .ok [⟨lock.ts, 1⟩] ∧
            d' = ⟨q, .Prepared (m.insert key lock)⟩) ∨
          (d.memory_quota.alloc key.capacity = .error ⟨⟩ ∧ r = .error ⟨⟩ ∧
            d' = ⟨d.memory_quota, .Prepared (m.insert key lock)⟩))) := by
  simp only [push_lock, hd, HeldKey.approximate_heap_size] at h
  rcases hget : m.get key.encoded with _ | ⟨c, old⟩
  · rw [hget] at h
    dsimp only at h
    split at h
    · cases h
      exact Or.inr (Or.inr ⟨rfl, Or.inr ⟨‹_›, rfl, rfl⟩⟩)
    · cases h
      exact Or.inr (Or.inr ⟨rfl, Or.inl ⟨_, ‹_›, rfl, rfl⟩⟩)
  · rw [hget] at h
    dsimp only at h
    split at h
    · cases h
      exact Or.inl ⟨c, old, rfl, ‹_›, rfl, rfl⟩
    · cases h
      exact Or.inr (Or.inl ⟨c, old, rfl, by simpa using ‹¬old.ts ≠ lock.ts›, rfl, rfl⟩)

theorem pop_lock_prepared {r : Except MemoryQuotaExceeded (List LockModifiedCount)}
    (hd : d.lock_tracker = .Prepared m) (h : d.pop_lock key start_ts = some (r, d')) :
    (∃ c l, m.get key.encoded = some (c, l) ∧ l.ts = start_ts ∧ r = .ok [⟨start_ts, -1⟩] ∧
        d' = ⟨d.memory_quota.free c, .Prepared (m.remove key)⟩) ∨
      ((∀ c l, m.get key.encoded = some (c, l) → l.ts ≠ start_ts) ∧ r = .ok [] ∧ d' = d) := by
  simp only [pop_lock, hd] at h
  rcases hget : m.get key.encoded with _ | ⟨c, l⟩
  · rw [hget] at h
    cases h
    exact Or.inr ⟨(fun _ _ h => by cases h), rfl, rfl⟩
  · rw [hget] at h
    dsimp only at h
    split at h
    · cases h
      exact Or.inl ⟨c, l, rfl, ‹_›, rfl, rfl⟩
    · cases h
      exact Or.inr ⟨(fun c' l' h' => by cases h'; exact ‹_›), rfl, rfl⟩

theorem finish_prepare_lock_tracker_of_replay {L0 m : LockMap}
    (hd : d.lock_tracker = .Preparing ps) (hm : ps.foldlM replay L0 = some m) :
    d.finish_prepare_lock_tracker L0 =
      let q := d.memory_quota.free (ps.map PendingLock.approximate_heap_size).sum
      match q.alloc m.heap_size with
      | .error e => some (.error e, ⟨q, .Pending⟩)
      | .ok q' => some (.ok (), ⟨q', .Prepared m⟩) := by
  simp only [finish_prepare_lock_tracker, hd, hm]

theorem finish_prepare_lock_tracker_replays {L0 : LockMap} {r : Except MemoryQuotaExceeded Unit}
    (h : d.finish_prepare_lock_tracker L0 = some (r, d')) :
    ∃ ps m, d.lock_tracker = .Preparing ps ∧ ps.foldlM replay L0 = some m := by
  simp only [finish_prepare_lock_tracker] at h
  split at h
  · rename_i ps hd
    split at h
    · cases h
    · exact ⟨ps, _, hd, ‹_›⟩
  · cases h

end Spec

end Delegate

end Tikv.Cdc
