import Tikv.Txn.Store
import Tikv.Codec.Key

/-!
Rolling back a lock (src/src/storage/txn/actions/check_txn_status.rs): the record a rollback
leaves in the write column family, and `rollback_lock` and `rollback_shared_lock`, which look
the transaction up by its start_ts in the snapshot, write that record, drop an older
rollback that nothing protects, and remove the lock. A commit record of the transaction means
that the lock should not be there: the source panics.
-/

namespace Tikv.Mvcc

def PROTECTED_ROLLBACK_SHORT_VALUE : List UInt8 := [0x70]

def Write.new_rollback (start_ts : Nat) (protect : Bool) : Write :=
  ⟨.Rollback, start_ts, if protect then some PROTECTED_ROLLBACK_SHORT_VALUE else none, false,
    none, .Unknown⟩

def Write.set_overlapped_rollback (w : Write) (has_overlapped_rollback : Bool)
    (gc_fence : Option Nat) : Write :=
  { w with has_overlapped_rollback := has_overlapped_rollback, gc_fence := gc_fence }

def Write.is_protected (w : Write) : Bool :=
  w.write_type == .Rollback && w.short_value == some PROTECTED_ROLLBACK_SHORT_VALUE

end Tikv.Mvcc

namespace Tikv.Txn

open Tikv.Mvcc
open Tikv.TxnTypes (SharedLocks)
open Tikv.Codec (Key)

variable (size : Modify → Nat)

def make_rollback (start_ts : Nat) (protect : Bool) (overlapped_write : Option (Write × Nat)) :
    Except Error (Option Write) :=
  match overlapped_write with
  | some (write, gc_fence) =>
    if start_ts ≤ write.start_ts then .error .Panic
    else if protect then .ok (some (write.set_overlapped_rollback true (some gc_fence)))
    else .ok none
  | none => .ok (some (Write.new_rollback start_ts protect))

def collapse_prev_rollback (txn : MvccTxn) (s : Store) (start_ts : Nat) (key : List UInt8) :
    MvccTxn :=
  match s.seek_write key start_ts with
  | some (commit_ts, write) =>
    if write.write_type = .Rollback ∧ !write.is_protected then txn.delete_write size key commit_ts
    else txn
  | none => txn

def rollback_lock (txn : MvccTxn) (s : Store) (start_ts : Nat) (key : List UInt8)
    (lock : TxnTypes.Lock) (collapse_rollback : Bool) : Except Error MvccTxn :=
  match s.get_txn_commit_record key start_ts with
  | .SingleRecord _ write =>
    if write.write_type ≠ .Rollback then .error .Panic else .ok (txn.unlock_key size key)
  | .OverlappedRollback _ => .ok (txn.unlock_key size key)
  | .None overlapped_write => do
    -- a Put without a short value has its value in the default column family
    let txn := if lock.short_value = none ∧ lock.lock_type = .Put then
        txn.delete_value size key lock.ts.toNat
      else txn
    let protect := (Key.from_raw key).is_encoded_from lock.primary || 0 < lock.generation
    let txn := match ← make_rollback start_ts protect overlapped_write with
      | some write => txn.put_write size key start_ts write
      | none => txn
    let txn := if collapse_rollback then collapse_prev_rollback size txn s start_ts key else txn
    pure (txn.unlock_key size key)

def put_shared_locks_or_unlock (txn : MvccTxn) (key : List UInt8) (shared_locks : SharedLocks) :
    MvccTxn :=
  if shared_locks.is_empty then txn.unlock_key size key else txn.put_shared_locks key shared_locks

/-- Roll back the sub-lock of `lock_ts` out of `shared_locks`; a shared sub-lock is never
protected, as the source asserts. -/
def rollback_shared_lock (txn : MvccTxn) (s : Store) (start_ts : Nat) (key : List UInt8)
    (shared_locks : SharedLocks) (lock_ts : UInt64) (collapse_rollback : Bool) :
    Except Error MvccTxn :=
  match shared_locks.remove_lock lock_ts with
  | (none, _) => .ok txn
  | (some lock, shared_locks) =>
    match s.get_txn_commit_record key start_ts with
    | .SingleRecord _ write =>
      if write.write_type ≠ .Rollback then .error .Panic
      else .ok (put_shared_locks_or_unlock size txn key shared_locks)
    | .OverlappedRollback _ => .ok (put_shared_locks_or_unlock size txn key shared_locks)
    | .None overlapped_write =>
      if (Key.from_raw key).is_encoded_from lock.primary ∨ lock.generation ≠ 0 then .error .Panic
      else do
        let txn := match ← make_rollback start_ts false overlapped_write with
          | some write => txn.put_write size key start_ts write
          | none => txn
        let txn := if collapse_rollback then collapse_prev_rollback size txn s start_ts key
          else txn
        pure (put_shared_locks_or_unlock size txn key shared_locks)

end Tikv.Txn
