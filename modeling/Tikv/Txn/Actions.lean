import Tikv.Mvcc.Gc
import Tikv.Mvcc.Readers
import Tikv.Lib.AssocList

/-!
Transaction actions on one key (src/src/storage/txn/actions): the optimistic `prewrite` of a
Put, a Delete or a Lock mutation without async commit, one-phase commit, shared locks,
assertions, pipelined flushes or old values (prewrite.rs), `commit` (commit.rs) and `gc`
(gc.rs). A key's state is its lock and its write and default column families; an action
returns the state with its modifies applied, or its error.

A prewritten Lock takes its `last_change` from the newest record of the key
(`next_last_change_info`, common.rs), and `commit` copies it into the Lock record. GC keeps
every record above the safe point, such a Lock record among them, but may delete the Delete it
points to.
-/

namespace Tikv.Mvcc

inductive LockType
  | Put
  | Delete
  | Lock
  | Pessimistic
  deriving DecidableEq, Repr

def WriteType.from_lock_type : LockType → Option WriteType
  | .Put => some .Put
  | .Delete => some .Delete
  | .Lock => some .Lock
  | .Pessimistic => none

structure Lock where
  lock_type : LockType
  primary : List UInt8
  ts : Nat
  ttl : Nat
  short_value : Option (List UInt8)
  for_update_ts : Nat
  min_commit_ts : Nat
  use_async_commit : Bool
  rollback_ts : List Nat
  last_change : LastChange
  deriving DecidableEq, Repr

def Lock.new (lock_type : LockType) (primary : List UInt8) (ts ttl : Nat)
    (short_value : Option (List UInt8)) (for_update_ts min_commit_ts : Nat) : Lock :=
  ⟨lock_type, primary, ts, ttl, short_value, for_update_ts, min_commit_ts, false, [], .Unknown⟩

def Lock.is_pessimistic_lock (lock : Lock) : Bool := lock.lock_type == .Pessimistic

def Write.new (write_type : WriteType) (start_ts : Nat) (short_value : Option (List UInt8)) :
    Write :=
  ⟨write_type, start_ts, short_value, false, none, .Unknown⟩

end Tikv.Mvcc

namespace Tikv.Txn

open Tikv.Mvcc
open Tikv.Concurrency (TimeStamp.max)

def SHORT_VALUE_MAX_LEN : Nat := 255

def is_short_value (value : List UInt8) : Bool := value.length ≤ SHORT_VALUE_MAX_LEN

structure KeyState where
  lock : Option Lock
  writes : List (Nat × Write)
  defaults : Defaults
  deriving DecidableEq, Repr

def KeyState.empty : KeyState := ⟨none, [], []⟩

/-- The engine's put of `key{commit_ts}` into the write column family, newest first. -/
def put_write (writes : List (Nat × Write)) (commit_ts : Nat) (write : Write) :
    List (Nat × Write) :=
  writes.filter (fun p => commit_ts < p.1) ++ (commit_ts, write) ::
    writes.filter fun p => p.1 < commit_ts

inductive WriteConflictReason
  | Optimistic
  | SelfRolledBack
  deriving DecidableEq, Repr

/-- The errors of the modelled paths; `Panic` is a failed assert. -/
inductive TxnError
  | KeyIsLocked (lock : Lock)
  | WriteConflict (start_ts conflict_start_ts conflict_commit_ts : Nat)
      (reason : WriteConflictReason)
  | LockTypeNotMatch (start_ts : Nat) (pessimistic : Bool)
  | TxnLockNotFound (start_ts commit_ts : Nat)
  | CommitTsExpired (start_ts commit_ts min_commit_ts : Nat)
  | Panic
  deriving DecidableEq, Repr

inductive Mutation
  | Put (value : List UInt8)
  | Delete
  | Lock
  deriving DecidableEq, Repr

def Mutation.lock_type : Mutation → LockType
  | .Put _ => .Put
  | .Delete => .Delete
  | .Lock => .Lock

def Mutation.value : Mutation → Option (List UInt8)
  | .Put value => some value
  | _ => none

/-- The properties of an optimistic transaction that these paths read;
`skip_constraint_check` is the flag of `TransactionKind::Optimistic`. -/
structure TransactionProperties where
  primary : List UInt8
  start_ts : Nat
  skip_constraint_check : Bool
  lock_ttl : Nat
  min_commit_ts : Nat
  deriving DecidableEq, Repr

def LastChange.make_exist (last_change_ts estimated_versions_to_last_change : Nat) :
    Except TxnError LastChange :=
  if last_change_ts = 0 ∨ estimated_versions_to_last_change = 0 then .error .Panic
  else .ok (.Exist last_change_ts estimated_versions_to_last_change)

def next_last_change_info (writes : List (Nat × Write)) (write : Write) (start_ts commit_ts : Nat)
    (scan_nexts : Nat) : Except TxnError LastChange :=
  match write.write_type with
  | .Put | .Delete => LastChange.make_exist commit_ts 1
  | .Lock | .Rollback =>
    match write.last_change with
    | .Exist last_change_ts estimated_versions_to_last_change =>
      LastChange.make_exist last_change_ts (estimated_versions_to_last_change + 1)
    | .NotExist => .ok .NotExist
    | .Unknown =>
      match MvccReader.get_write_with_commit_ts writes commit_ts (some start_ts) with
      | none => .error .Panic
      | some none => .ok .NotExist
      | some (some (w, last_change_ts)) =>
        if w.write_type = .Put then LastChange.make_exist last_change_ts (scan_nexts + 1)
        else .error .Panic

def check_for_newer_version (writes : List (Nat × Write)) (txn_props : TransactionProperties)
    (scan_nexts : Nat) : Except TxnError LastChange :=
  match seek_write writes TimeStamp.max with
  | none => .ok .NotExist
  | some (commit_ts, write) =>
    if commit_ts = txn_props.start_ts ∧
        (write.write_type = .Rollback ∨ write.has_overlapped_rollback = true) then
      .error (.WriteConflict txn_props.start_ts write.start_ts commit_ts .SelfRolledBack)
    else do
      let last_change ← next_last_change_info writes write txn_props.start_ts commit_ts scan_nexts
      if txn_props.start_ts < commit_ts then
        .error (.WriteConflict txn_props.start_ts write.start_ts commit_ts .Optimistic)
      else .ok last_change

def check_lock (lock : Lock) (txn_props : TransactionProperties) : Except TxnError Nat :=
  if lock.ts ≠ txn_props.start_ts then .error (.KeyIsLocked lock)
  else if lock.is_pessimistic_lock then .error (.LockTypeNotMatch txn_props.start_ts true)
  else .ok (if lock.use_async_commit then lock.min_commit_ts else 0)

def write_lock (s : KeyState) (txn_props : TransactionProperties) (mutation : Mutation)
    (last_change : LastChange) (last_change_enabled : Bool) : KeyState :=
  let lock := Lock.new mutation.lock_type txn_props.primary txn_props.start_ts txn_props.lock_ttl
    none 0 txn_props.min_commit_ts
  let lock := if last_change_enabled ∧ mutation.lock_type = .Lock then { lock with last_change }
    else lock
  match mutation.value with
  | some value =>
    if is_short_value value then { s with lock := some { lock with short_value := some value } }
    else
      { s with lock := some lock,
               defaults := Tikv.Lib.AssocList.insert txn_props.start_ts value s.defaults }
  | none => { s with lock := some lock }

def prewrite (s : KeyState) (txn_props : TransactionProperties) (mutation : Mutation)
    (last_change_enabled : Bool) (scan_nexts : Nat) : Except TxnError (KeyState × Nat) :=
  match s.lock with
  | some lock => do
    let min_commit_ts ← check_lock lock txn_props
    .ok (s, min_commit_ts)
  | none => do
    let last_change ← if txn_props.skip_constraint_check then .ok .Unknown
      else check_for_newer_version s.writes txn_props scan_nexts
    .ok (write_lock s txn_props mutation last_change last_change_enabled, 0)

def handle_lock_not_found (s : KeyState) (start_ts commit_ts : Nat) : Except TxnError KeyState :=
  match (MvccReader.get_txn_commit_record s.writes start_ts).info with
  | some (_, .Rollback) | none => .error (.TxnLockNotFound start_ts commit_ts)
  | some (_, .Put) | some (_, .Delete) | some (_, .Lock) => .ok s

def commit (s : KeyState) (start_ts commit_ts : Nat) : Except TxnError KeyState :=
  match s.lock with
  | some lock =>
    if lock.ts ≠ start_ts then handle_lock_not_found s start_ts commit_ts
    else if commit_ts < lock.min_commit_ts then
      .error (.CommitTsExpired start_ts commit_ts lock.min_commit_ts)
    -- a stale pessimistic lock is removed instead of committed
    else if lock.is_pessimistic_lock then .ok { s with lock := none }
    else
      match WriteType.from_lock_type lock.lock_type with
      | none => .error .Panic
      | some write_type =>
        let write := { Write.new write_type start_ts lock.short_value with
                       last_change := lock.last_change }
        let write := if commit_ts ∈ lock.rollback_ts then
          { write with has_overlapped_rollback := true, gc_fence := none } else write
        .ok { s with lock := none, writes := put_write s.writes commit_ts write }
  | none => handle_lock_not_found s start_ts commit_ts

def KeyState.gc (s : KeyState) (key : List UInt8) (safe_point : Nat) : Option KeyState :=
  (Tikv.Mvcc.gc ⟨[], 0⟩ key s.writes safe_point).map fun r =>
    { s with writes := apply_writes key r.1.modifies s.writes,
             defaults := apply_defaults key r.1.modifies s.defaults }

inductive Command
  | Prewrite (txn_props : TransactionProperties) (mutation : Mutation)
  | Commit (start_ts commit_ts : Nat)
  | Gc (safe_point : Nat)
  deriving DecidableEq, Repr

def KeyState.apply (key : List UInt8) (last_change_enabled : Bool) (scan_nexts : Nat)
    (s : KeyState) : Command → KeyState
  | .Prewrite txn_props mutation =>
    match prewrite s txn_props mutation last_change_enabled scan_nexts with
    | .ok (s', _) => s'
    | .error _ => s
  | .Commit start_ts commit_ts =>
    match commit s start_ts commit_ts with
    | .ok s' => s'
    | .error _ => s
  | .Gc safe_point => (s.gc key safe_point).getD s

def lock_over_delete_history : List Command :=
  [.Prewrite ⟨[107], 5, false, 3000, 0⟩ (.Put [118]), .Commit 5 10,
    .Prewrite ⟨[107], 15, false, 3000, 0⟩ .Delete, .Commit 15 20,
    .Prewrite ⟨[107], 25, false, 3000, 0⟩ .Lock, .Commit 25 30]

end Tikv.Txn
