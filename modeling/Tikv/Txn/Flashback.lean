import Tikv.Txn.Rollback

/-!
Flashback of a key range to a version (src/src/storage/txn/actions/flashback_to_version.rs and
the commands flashback_to_version_read_phase.rs and flashback_to_version.rs). Preparing rolls
back every lock in the range in batches and then locks the first key whose value changed after
the version; finishing writes, in batches, for every other changed key a record at `commit_ts`
with its value at the version, and then commits the first key. A read phase scans the snapshot
for the next batch, and the write phase that follows rolls back or writes what it was given,
up to `MAX_TXN_WRITE_SIZE`; the scheduler applies its modifies before the next read phase.
-/

namespace Tikv.TxnTypes

/-- WriteType::from_lock_type (components/txn_types/src/write.rs). -/
def WriteType.from_lock_type : LockType → Option Mvcc.WriteType
  | .Put => some .Put
  | .Delete => some .Delete
  | .Lock => some .Lock
  | .Pessimistic | .Shared => none

end Tikv.TxnTypes

namespace Tikv.Txn

open Tikv.Mvcc
open Tikv.TxnTypes (LockOrSharedLocks SharedLocks)
open Tikv.Codec (Key)

def FLASHBACK_BATCH_SIZE : Nat := 256 + 1

def lock_last_change : TxnTypes.LastChange → LastChange
  | .Unknown => .Unknown
  | .Exist last_change_ts estimated_versions_to_last_change =>
    .Exist last_change_ts.toNat estimated_versions_to_last_change.toNat
  | .NotExist => .NotExist

def flashback_to_version_read_lock (s : Store) (next_lock_key : List UInt8)
    (end_key : Option (List UInt8)) (flashback_start_ts : UInt64) :
    List (List UInt8 × LockOrSharedLocks) :=
  (s.scan_locks_from_storage (some next_lock_key) end_key
    (fun _ lock => lock.ts ≠ flashback_start_ts) FLASHBACK_BATCH_SIZE).1

def flashback_to_version_read_write (s : Store) (next_write_key start_key : List UInt8)
    (end_key : Option (List UInt8)) (flashback_version flashback_commit_ts : Nat) :
    Except Error (List (List UInt8)) := do
  let (keys, _) ← s.scan_latest_user_keys (some next_write_key) end_key
    (fun key latest_commit_ts =>
      -- no other write can happen after the flashback begins
      if latest_commit_ts ≤ flashback_commit_ts then
        .ok (key ≠ start_key ∧ flashback_version < latest_commit_ts ∧
          latest_commit_ts < flashback_commit_ts)
      else .error .Panic)
    FLASHBACK_BATCH_SIZE
  pure keys

section Writes

variable (size : Modify → Nat)

def rollback_shared_locks (txn : MvccTxn) (s : Store) (key : List UInt8) :
    SharedLocks → List UInt64 → Except Error MvccTxn
  | _, [] => .ok txn
  | shared_locks, lock_ts :: timestamps => do
    let txn ← rollback_shared_lock size txn s lock_ts.toNat key shared_locks lock_ts true
    rollback_shared_locks txn s key (shared_locks.remove_lock lock_ts).2 timestamps

def rollback_locks (txn : MvccTxn) (s : Store) :
    List (List UInt8 × LockOrSharedLocks) → Except Error (MvccTxn × Option (List UInt8))
  | [] => .ok (txn, none)
  | (key, lock_or_shared) :: key_locks =>
    if MAX_TXN_WRITE_SIZE ≤ txn.write_size then .ok (txn, some key)
    else do
      let txn ← match lock_or_shared with
        | .Left lock => rollback_lock size txn s lock.ts.toNat key lock true
        | .Right shared_locks =>
          rollback_shared_locks size txn s key shared_locks shared_locks.iter_ts
      rollback_locks txn s key_locks

def flashback_to_version_write (txn : MvccTxn) (s : Store)
    (flashback_version flashback_start_ts flashback_commit_ts : Nat) :
    List (List UInt8) → Except Error (MvccTxn × Option (List UInt8))
  | [] => .ok (txn, none)
  | key :: keys =>
    if MAX_TXN_WRITE_SIZE ≤ txn.write_size then .ok (txn, some key)
    else do
      let old_write ← s.get_write key flashback_version none
      let (txn, new_write) ← match old_write with
        | some old_write => do
          -- a Put without a short value has its value put again at the flashback's start_ts
          let txn ← if old_write.write_type = .Put ∧ old_write.short_value = none then do
              let value ← s.load_data key old_write
              pure (txn.put_value size key flashback_start_ts value)
            else pure txn
          pure (txn, Write.new old_write.write_type flashback_start_ts old_write.short_value)
        | none => pure (txn, Write.new .Delete flashback_start_ts none)
      flashback_to_version_write (txn.put_write size key flashback_commit_ts new_write) s
        flashback_version flashback_start_ts flashback_commit_ts keys

def prewrite_flashback_key (txn : MvccTxn) (s : Store) (key_to_lock : List UInt8)
    (flashback_version : Nat) (flashback_start_ts : UInt64) : Except Error MvccTxn :=
  if (s.load_lock key_to_lock).isSome then .ok txn
  else do
    let old_write ← s.get_write key_to_lock flashback_version none
    let txn ← match old_write with
      | some old_write =>
        -- the value at the flashback's start_ts is there already when the prepare is retried
        if old_write.write_type = .Put ∧ old_write.short_value = none ∧
            (s.get_value key_to_lock flashback_start_ts.toNat).isNone then do
          let value ← s.load_data key_to_lock old_write
          pure (txn.put_value size key_to_lock flashback_start_ts.toNat value)
        else pure txn
      | none => pure txn
    let lock_type : TxnTypes.LockType := match old_write with
      | some write => if write.write_type = .Delete then .Delete else .Put
      | none => .Delete
    pure (txn.put_lock size key_to_lock
      (TxnTypes.Lock.new lock_type (Key.from_raw key_to_lock).as_encoded flashback_start_ts 0
        (old_write.bind (·.short_value)) 0 1 0 false))

def commit_flashback_key (txn : MvccTxn) (s : Store) (key_to_commit : List UInt8)
    (flashback_start_ts flashback_commit_ts : UInt64) : Except Error MvccTxn :=
  match s.load_lock key_to_commit with
  | some (.Left lock) =>
    match TxnTypes.WriteType.from_lock_type lock.lock_type with
    | some write_type =>
      .ok ((txn.put_write size key_to_commit flashback_commit_ts.toNat
        { Write.new write_type flashback_start_ts.toNat lock.short_value with
          last_change := lock_last_change lock.last_change }).unlock_key size key_to_commit)
    | none => .error .Panic
  | some (.Right _) =>
    .ok ((txn.put_write size key_to_commit flashback_commit_ts.toNat
      (Write.new .Lock flashback_start_ts.toNat none)).unlock_key size key_to_commit)
  | none => .error (.TxnLockNotFound flashback_start_ts flashback_commit_ts key_to_commit)

end Writes

def check_flashback_commit (s : Store) (key_to_commit : List UInt8)
    (flashback_start_ts flashback_commit_ts region_id : UInt64) : Except Error Bool :=
  match s.load_lock key_to_commit with
  | some (.Left lock) =>
    if lock.ts = flashback_start_ts then .ok false else .error (.FlashbackNotPrepared region_id)
  | some (.Right _) => .error (.FlashbackNotPrepared region_id)
  | none =>
    match s.seek_write key_to_commit flashback_commit_ts.toNat with
    | some (commit_ts, write) =>
      if commit_ts = flashback_commit_ts.toNat ∧ write.start_ts = flashback_start_ts.toNat then
        .ok true
      else .error (.FlashbackNotPrepared region_id)
    | none => .error (.FlashbackNotPrepared region_id)

def get_first_user_key (s : Store) (start_key : List UInt8) (end_key : Option (List UInt8))
    (flashback_version : Nat) : Except Error (Option (List UInt8)) := do
  let (keys, _) ← s.scan_latest_user_keys (some start_key) end_key
    (fun _ latest_commit_ts => .ok (flashback_version < latest_commit_ts)) 1
  pure keys.getLast?

inductive FlashbackToVersionState
  | RollbackLock (next_lock_key : List UInt8) (key_locks : List (List UInt8 × LockOrSharedLocks))
  | Prewrite (key_to_lock : List UInt8)
  | FlashbackWrite (next_write_key : List UInt8) (keys : List (List UInt8))
  | Commit (key_to_commit : List UInt8)
  deriving DecidableEq, Repr

/-- The fields of the commands FlashbackToVersionReadPhase and FlashbackToVersion, which are the
same; `region_id` is that of the command's context. -/
structure FlashbackToVersion where
  start_ts : UInt64
  commit_ts : UInt64
  version : UInt64
  start_key : List UInt8
  end_key : Option (List UInt8)
  region_id : UInt64
  state : FlashbackToVersionState
  deriving DecidableEq, Repr

inductive ProcessResult
  | Res
  | NextCommand (cmd : FlashbackToVersion)
  deriving DecidableEq, Repr

def new_flashback_rollback_lock_cmd (start_ts version : UInt64) (start_key : List UInt8)
    (end_key : Option (List UInt8)) (region_id : UInt64) : FlashbackToVersion :=
  ⟨start_ts, 0, version, start_key, end_key, region_id, .RollbackLock start_key []⟩

def new_flashback_write_cmd (start_ts commit_ts version : UInt64) (start_key : List UInt8)
    (end_key : Option (List UInt8)) (region_id : UInt64) : FlashbackToVersion :=
  ⟨start_ts, commit_ts, version, start_key, end_key, region_id, .FlashbackWrite start_key []⟩

def next_of_batch {α : Type} (key : α → List UInt8) (batch : List α) : List UInt8 × List α :=
  match batch.getLast? with
  | some last => (key last, if batch.length > 1 then batch.dropLast else batch)
  | none => ([], batch)

namespace FlashbackToVersion

def read_write_batch (s : Store) (cmd : FlashbackToVersion) (next_write_key start_key : List UInt8) :
    Except Error ProcessResult := do
  let keys ← flashback_to_version_read_write s next_write_key start_key cmd.end_key
    cmd.version.toNat cmd.commit_ts.toNat
  if keys.isEmpty then
    pure (.NextCommand { cmd with start_key := start_key, state := .Commit start_key })
  else
    let (next_write_key, keys) := next_of_batch id keys
    pure (.NextCommand
      { cmd with start_key := start_key, state := .FlashbackWrite next_write_key keys })

/-- FlashbackToVersionReadPhase::process_read. -/
def process_read (s : Store) (cmd : FlashbackToVersion) : Except Error ProcessResult :=
  match cmd.state with
  | .RollbackLock next_lock_key _ =>
    let key_locks := flashback_to_version_read_lock s next_lock_key cmd.end_key cmd.start_ts
    if key_locks.isEmpty then do
      -- no lock is left: lock the first key, which the finish then commits last
      match ← get_first_user_key s cmd.start_key cmd.end_key cmd.version.toNat with
      | some key_to_lock => pure (.NextCommand { cmd with state := .Prewrite key_to_lock })
      | none => pure .Res
    else
      let (next_lock_key, key_locks) := next_of_batch Prod.fst key_locks
      pure (.NextCommand { cmd with state := .RollbackLock next_lock_key key_locks })
  | .FlashbackWrite next_write_key _ =>
    if cmd.commit_ts ≤ cmd.start_ts then .error (.InvalidTxnTso cmd.start_ts cmd.commit_ts)
    else if next_write_key = cmd.start_key then do
      -- the first batch: the locked key stands in for the start key from now on
      match ← get_first_user_key s cmd.start_key cmd.end_key cmd.version.toNat with
      | none => pure .Res
      | some first_key =>
        if (← check_flashback_commit s first_key cmd.start_ts cmd.commit_ts cmd.region_id) then
          pure .Res
        else read_write_batch s cmd first_key first_key
    else read_write_batch s cmd next_write_key cmd.start_key
  | .Prewrite _ | .Commit _ => .error .Panic

def process_write (size : Modify → Nat) (s : Store) (cmd : FlashbackToVersion) :
    Except Error (List Modify × ProcessResult) :=
  match cmd.state with
  | .RollbackLock next_lock_key key_locks => do
    let (txn, new_next_lock_key) ← rollback_locks size MvccTxn.new s key_locks
    pure (txn.modifies,
      .NextCommand { cmd with state := .RollbackLock (new_next_lock_key.getD next_lock_key) [] })
  | .Prewrite key_to_lock => do
    let txn ← prewrite_flashback_key size MvccTxn.new s key_to_lock cmd.version.toNat cmd.start_ts
    pure (txn.modifies, .Res)
  | .FlashbackWrite next_write_key keys => do
    let (txn, new_next_write_key) ← flashback_to_version_write size MvccTxn.new s
      cmd.version.toNat cmd.start_ts.toNat cmd.commit_ts.toNat keys
    pure (txn.modifies,
      .NextCommand { cmd with state := .FlashbackWrite (new_next_write_key.getD next_write_key) [] })
  | .Commit key_to_commit => do
    let txn ← commit_flashback_key size MvccTxn.new s key_to_commit cmd.start_ts cmd.commit_ts
    pure (txn.modifies, .Res)

/-- The scheduler's run of a flashback command: each read phase on the data as it is, then its
write phase, whose modifies are applied before the next read phase; `none` when the fuel runs
out. -/
def run (size : Modify → Nat) : Nat → Store → FlashbackToVersion → Option (Except Error Store)
  | 0, _, _ => none
  | fuel + 1, s, cmd =>
    match process_read s cmd with
    | .error e => some (.error e)
    | .ok .Res => some (.ok s)
    | .ok (.NextCommand cmd) =>
      match process_write size s cmd with
      | .error e => some (.error e)
      | .ok (modifies, .Res) => some (.ok (s.apply_modifies modifies))
      | .ok (modifies, .NextCommand cmd) => run size fuel (s.apply_modifies modifies) cmd

end FlashbackToVersion

end Tikv.Txn
