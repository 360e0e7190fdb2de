import Tikv.Txn.Actions
import Tikv.TxnTypes.Lock

/-!
The data of a region as the MVCC commands of src/src/storage read and write it: for each user
key its lock column family entry, its write records and its default values, the keys in
ascending order. A command collects modifies in an `MvccTxn` (mvcc/txn.rs) and the engine
applies them in order when it is done; its readers (`MvccReader`, `SnapshotReader`) read the
snapshot the command started from.

`Modify::size` is a parameter of the transaction: the batches of a command stop at
`MAX_TXN_WRITE_SIZE`, and the results hold for every size function, the engine's among them.
Keys are compared as user keys; the source compares `key{commit_ts}` against the end key,
which agrees on encoded keys, as no encoded key is a prefix of another.
-/

namespace Tikv.Txn

open Tikv.Mvcc
open Tikv.TxnTypes (LockOrSharedLocks SharedLocks)
open Tikv.Lib.AssocList (upsert Sorted)

/-- The errors of the storage commands that flashback runs; `Panic` is a failed assert or
`unwrap` of the source. -/
inductive Error
  | DefaultNotFound (key : List UInt8) (start_ts : Nat)
  | TxnLockNotFound (start_ts commit_ts : UInt64) (key : List UInt8)
  | FlashbackNotPrepared (region_id : UInt64)
  | InvalidTxnTso (start_ts commit_ts : UInt64)
  | Panic
  deriving DecidableEq, Repr

structure KeyData where
  lock : Option LockOrSharedLocks
  writes : List (Nat × Write)
  defaults : Defaults
  deriving DecidableEq, Repr

def KeyData.empty : KeyData := ⟨none, [], []⟩

/-- The engine's `Modify::Put` and `Modify::Delete`, one constructor for each column family,
carrying the record that the bytes encode. -/
inductive Modify
  | PutLock (key : List UInt8) (lock : LockOrSharedLocks)
  | DeleteLock (key : List UInt8)
  | PutValue (key : List UInt8) (start_ts : Nat) (value : List UInt8)
  | DeleteValue (key : List UInt8) (start_ts : Nat)
  | PutWrite (key : List UInt8) (commit_ts : Nat) (write : Write)
  | DeleteWrite (key : List UInt8) (commit_ts : Nat)
  deriving DecidableEq, Repr

def Modify.key : Modify → List UInt8
  | .PutLock key _ | .DeleteLock key | .PutValue key _ _ | .DeleteValue key _
  | .PutWrite key _ _ | .DeleteWrite key _ => key

def KeyData.apply : Modify → KeyData → KeyData
  | .PutLock _ lock, d => { d with lock := some lock }
  | .DeleteLock _, d => { d with lock := none }
  | .PutValue _ start_ts value, d =>
    { d with defaults := Tikv.Lib.AssocList.insert start_ts value d.defaults }
  | .DeleteValue _ start_ts, d =>
    { d with defaults := Tikv.Lib.AssocList.erase start_ts d.defaults }
  | .PutWrite _ commit_ts write, d => { d with writes := put_write d.writes commit_ts write }
  | .DeleteWrite _ commit_ts, d => { d with writes := d.writes.filter fun p => p.1 ≠ commit_ts }

/-- A region's data by user key, in ascending key order. -/
structure Store where
  entries : List (List UInt8 × KeyData)
  sorted : Sorted entries

def Store.data (s : Store) (key : List UInt8) : KeyData :=
  (s.entries.lookup key).getD KeyData.empty

def Store.apply (s : Store) (m : Modify) : Store :=
  ⟨upsert m.key KeyData.empty (KeyData.apply m) s.entries,
    Tikv.Lib.AssocList.sorted_upsert s.sorted _ _ _⟩

def Store.apply_modifies (s : Store) (modifies : List Modify) : Store :=
  modifies.foldl Store.apply s

def MAX_TXN_WRITE_SIZE : Nat := 32 * 1024

structure MvccTxn where
  write_size : Nat
  modifies : List Modify
  deriving DecidableEq, Repr

namespace MvccTxn

def new : MvccTxn := ⟨0, []⟩

variable (size : Modify → Nat)

def push (txn : MvccTxn) (m : Modify) : MvccTxn :=
  ⟨txn.write_size + size m, txn.modifies ++ [m]⟩

def put_lock (txn : MvccTxn) (key : List UInt8) (lock : TxnTypes.Lock) : MvccTxn :=
  push size txn (.PutLock key (.Left lock))

/-- Written over an existing entry (`is_new` false), which the source does not count in the
write size. -/
def put_shared_locks (txn : MvccTxn) (key : List UInt8) (shared_locks : SharedLocks) : MvccTxn :=
  { txn with modifies := txn.modifies ++ [.PutLock key (.Right shared_locks)] }

def unlock_key (txn : MvccTxn) (key : List UInt8) : MvccTxn :=
  push size txn (.DeleteLock key)

def put_value (txn : MvccTxn) (key : List UInt8) (ts : Nat) (value : List UInt8) : MvccTxn :=
  push size txn (.PutValue key ts value)

def delete_value (txn : MvccTxn) (key : List UInt8) (ts : Nat) : MvccTxn :=
  push size txn (.DeleteValue key ts)

def put_write (txn : MvccTxn) (key : List UInt8) (ts : Nat) (write : Write) : MvccTxn :=
  push size txn (.PutWrite key ts write)

def delete_write (txn : MvccTxn) (key : List UInt8) (ts : Nat) : MvccTxn :=
  push size txn (.DeleteWrite key ts)

end MvccTxn

/-! ### Reading the snapshot -/

namespace Store

def load_lock (s : Store) (key : List UInt8) : Option LockOrSharedLocks := (s.data key).lock

def get_value (s : Store) (key : List UInt8) (start_ts : Nat) : Option (List UInt8) :=
  (s.data key).defaults.lookup start_ts

/-- The value of a Put record; the callers only pass Puts, as the source asserts. -/
def load_data (s : Store) (key : List UInt8) (write : Write) : Except Error (List UInt8) :=
  match Tikv.Mvcc.load_data (s.data key).defaults write with
  | some value => .ok value
  | none => .error (.DefaultNotFound key write.start_ts)

def seek_write (s : Store) (key : List UInt8) (ts : Nat) : Option (Nat × Write) :=
  Tikv.Mvcc.seek_write (s.data key).writes ts

def get_write (s : Store) (key : List UInt8) (ts : Nat) (gc_fence_limit : Option Nat) :
    Except Error (Option Write) :=
  match MvccReader.get_write_with_commit_ts (s.data key).writes ts gc_fence_limit with
  | some r => .ok (r.map (·.1))
  | none => .error .Panic

def get_txn_commit_record (s : Store) (key : List UInt8) (start_ts : Nat) : TxnCommitRecord :=
  MvccReader.get_txn_commit_record (s.data key).writes start_ts

def seek (s : Store) : Option (List UInt8) → List (List UInt8 × KeyData)
  | some start => s.entries.dropWhile fun p => p.1 < start
  | none => s.entries

def scan_locks_add (filter : TxnTypes.Lock → Bool) (limit : Nat) (key : List UInt8)
    (locks : List (List UInt8 × LockOrSharedLocks)) (lock_count : Nat) (has_remain : Bool) :
    LockOrSharedLocks → List (List UInt8 × LockOrSharedLocks) × Nat × Bool
  | .Left lock =>
    if filter lock then (locks ++ [(key, .Left lock)], lock_count + 1, has_remain)
    else (locks, lock_count, has_remain)
  | .Right shared_locks =>
    let shared_locks := shared_locks.filter_shared_locks filter
    if shared_locks.is_empty then (locks, lock_count, has_remain)
    else
      let (shared_locks, has_remain) :=
        if 0 < limit ∧ limit - lock_count < shared_locks.len then
          (shared_locks.truncate_to (limit - lock_count), true)
        else (shared_locks, has_remain)
      (locks ++ [(key, .Right shared_locks)], lock_count + shared_locks.len, has_remain)

def scan_locks_loop (end_key : Option (List UInt8)) (filter : List UInt8 → TxnTypes.Lock → Bool)
    (limit : Nat) :
    List (List UInt8 × KeyData) → List (List UInt8 × LockOrSharedLocks) → Nat → Bool →
      List (List UInt8 × LockOrSharedLocks) × Bool
  | [], locks, _, has_remain => (locks, has_remain)
  | (key, d) :: rest, locks, lock_count, has_remain =>
    match d.lock with
    -- a key without a lock has no entry in the lock column family
    | none => scan_locks_loop end_key filter limit rest locks lock_count has_remain
    | some lock_or_shared_locks =>
      if end_key.any (key ≥ ·) then (locks, false)
      else
        match scan_locks_add (filter key) limit key locks lock_count has_remain
            lock_or_shared_locks with
        | (locks, lock_count, has_remain) =>
          if 0 < limit ∧ limit ≤ lock_count then (locks, true)
          else scan_locks_loop end_key filter limit rest locks lock_count has_remain

def scan_locks_from_storage (s : Store) (start end_key : Option (List UInt8))
    (filter : List UInt8 → TxnTypes.Lock → Bool) (limit : Nat) :
    List (List UInt8 × LockOrSharedLocks) × Bool :=
  scan_locks_loop end_key filter limit (s.seek start) [] 0 false

/-- The loop of `scan_latest_user_keys` over the write column family. Lock and Rollback records
are skipped, so a key's latest commit_ts is that of its newest Put or Delete; the filter
may fail, as flashback's asserts inside it. -/
def scan_latest_user_keys_loop (end_key : Option (List UInt8))
    (filter : List UInt8 → Nat → Except Error Bool) (limit : Nat) :
    List (List UInt8 × KeyData) → List (List UInt8) → Except Error (List (List UInt8) × Bool)
  | [], keys => .ok (keys, false)
  | (key, d) :: rest, keys =>
    -- a key without records has no entry in the write column family
    if d.writes.isEmpty then scan_latest_user_keys_loop end_key filter limit rest keys
    else if end_key.any (key ≥ ·) then .ok (keys, false)
    else
      match d.writes.find? fun p => p.2.write_type.changes_value with
      | none => scan_latest_user_keys_loop end_key filter limit rest keys
      | some (commit_ts, _) => do
        if ← filter key commit_ts then
          let keys := keys ++ [key]
          if 0 < limit ∧ keys.length = limit then .ok (keys, true)
          else scan_latest_user_keys_loop end_key filter limit rest keys
        else scan_latest_user_keys_loop end_key filter limit rest keys

def scan_latest_user_keys (s : Store) (start end_key : Option (List UInt8))
    (filter : List UInt8 → Nat → Except Error Bool) (limit : Nat) :
    Except Error (List (List UInt8) × Bool) :=
  scan_latest_user_keys_loop end_key filter limit (s.seek start) []

end Store

end Tikv.Txn
