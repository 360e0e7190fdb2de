import Tikv.Txn.Store
import Tikv.Concurrency.AsyncCommit

/-!
The last step of a prewrite, `PrewriteMutation::write_lock` (src/src/storage/txn/actions/
prewrite.rs): build the lock, and for async commit or one-phase commit take its commit
timestamp from `async_commit_timestamps` under the key's guard, falling back to two-phase
commit when that is above `max_commit_ts`; then write the lock, into the lock column family,
into the shared locks of the key, or aside for one-phase commit.

The key guards the prewrite holds are kept with the lock each stored in memory;
`async_commit_timestamps` is the model of `Tikv.Concurrency`, whose lock is the one field it
reads and writes.
-/

namespace Tikv.Txn

open Tikv.TxnTypes (LockType SharedLocks)
open Tikv.Concurrency (ConcurrencyManager TimeStamp.max async_commit_timestamps
  async_commit_timestamps_cases)

/-- The errors of `mvcc::ErrorInner` that `write_lock` returns; `Panic` is a failed assert. -/
inductive ErrorInner
  | CommitTsTooLarge (start_ts min_commit_ts max_commit_ts : Nat)
  | Other (msg : String)
  | InvalidOperation (msg : String)
  | Panic
  deriving DecidableEq, Repr

inductive CommitKind
  | TwoPc
  | OnePc (max_commit_ts : UInt64)
  | Async (max_commit_ts : UInt64)
  deriving DecidableEq, Repr

def CommitKind.max_commit_ts : CommitKind → UInt64
  | .TwoPc => 0
  | .OnePc max_commit_ts | .Async max_commit_ts => max_commit_ts

inductive LockStatus
  | Locked (min_commit_ts : UInt64)
  | Pessimistic (for_update_ts : UInt64)
  | None
  deriving DecidableEq, Repr

/-- The fields of a `PrewriteMutation` and of its `TransactionProperties` that `write_lock`
reads; `for_update_ts` is `txn_props.for_update_ts()`, zero for an optimistic transaction. -/
structure PrewriteMutation where
  key : List UInt8
  value : Option (List UInt8)
  lock_type : LockType
  lock_ttl : UInt64
  min_commit_ts : UInt64
  last_change : TxnTypes.LastChange
  secondary_keys : Option (List (List UInt8))
  primary : List UInt8
  start_ts : UInt64
  for_update_ts : UInt64
  commit_kind : CommitKind
  txn_size : UInt64
  txn_source : UInt64
  deriving DecidableEq, Repr

def PrewriteMutation.try_one_pc (m : PrewriteMutation) : Bool :=
  match m.commit_kind with
  | .OnePc _ => true
  | _ => false

/-- An `MvccTxn` with the locks of a one-phase commit, and the key guards it holds with the
lock each stores in memory. -/
structure PrewriteTxn where
  txn : MvccTxn
  locks_for_1pc : List (List UInt8 × TxnTypes.Lock)
  guards : List (List UInt8 × TxnTypes.Lock)
  deriving DecidableEq, Repr

def SharedLocks.update_lock (sl : SharedLocks) (lock : TxnTypes.Lock) :
    Except ErrorInner SharedLocks :=
  if lock.lock_type ≠ .Lock ∧ lock.lock_type ≠ .Pessimistic then .error .Panic
  else if (sl.txn_info_segments.lookup lock.ts).isNone then
    .error (.InvalidOperation ("lock #" ++ toString lock.ts ++ " does not exist in SharedLocks"))
  else .ok ⟨Tikv.Lib.AssocList.insert lock.ts lock sl.txn_info_segments⟩

variable (size : Modify → Nat)

def PrewriteMutation.write_lock_finish (m : PrewriteMutation) (ptxn : PrewriteTxn)
    (generation : UInt64) (shared_locks : Option SharedLocks) (lock : TxnTypes.Lock) (try_one_pc : Bool)
    (final_min_commit_ts : Except ErrorInner UInt64) : Except ErrorInner UInt64 × PrewriteTxn :=
  match shared_locks with
  | some shared =>
    if generation > 0 then
      (.error (.Other ("shared lock prewrite does not support non-zero generation, generation: " ++
        toString generation)), ptxn)
    else if try_one_pc then
      (.error (.Other "shared lock prewrite is incompatible with one-phase commit"), ptxn)
    else if lock.use_async_commit then
      (.error (.Other "shared lock prewrite cannot use async-commit, falling back to 2PC"), ptxn)
    else
      match SharedLocks.update_lock shared lock with
      | .error e => (.error e, ptxn)
      | .ok shared =>
        (final_min_commit_ts, { ptxn with txn := ptxn.txn.put_shared_locks m.key shared })
  | none =>
    if try_one_pc then
      (final_min_commit_ts, { ptxn with locks_for_1pc := ptxn.locks_for_1pc ++ [(m.key, lock)] })
    else (final_min_commit_ts, { ptxn with txn := ptxn.txn.put_lock size m.key lock })

def PrewriteMutation.write_lock_new (m : PrewriteMutation) (lock_status : LockStatus)
    (ptxn : PrewriteTxn) (generation : UInt64) (last_change_enabled : Bool) :
    TxnTypes.Lock × PrewriteTxn :=
  let for_update_ts_to_write := match lock_status with
    | .Pessimistic from_pessimistic_lock => max m.for_update_ts from_pessimistic_lock
    | _ => m.for_update_ts
  let lock := ((TxnTypes.Lock.new m.lock_type m.primary m.start_ts m.lock_ttl none
    for_update_ts_to_write m.txn_size m.min_commit_ts false).set_txn_source
    m.txn_source).with_generation generation
  -- only a Lock records last_change; a Put or a Delete is a change itself
  let lock := if last_change_enabled ∧ m.lock_type = .Lock then lock.set_last_change m.last_change
    else lock
  let (lock, ptxn) := match m.value with
    | some value =>
      if is_short_value value then ({ lock with short_value := some value }, ptxn)
      else (lock, { ptxn with txn := ptxn.txn.put_value size m.key m.start_ts.toNat value })
    | none => (lock, ptxn)
  match m.secondary_keys with
  | some secondary_keys =>
    ({ lock with use_async_commit := true, secondaries := secondary_keys }, ptxn)
  | none => if m.try_one_pc then ({ lock with use_one_pc := true }, ptxn) else (lock, ptxn)

def PrewriteMutation.write_lock (m : PrewriteMutation) (cm : ConcurrencyManager)
    (lock_status : LockStatus) (ptxn : PrewriteTxn) (generation : UInt64)
    (shared_locks : Option SharedLocks)
    (last_change_enabled : Bool) : Except ErrorInner UInt64 × PrewriteTxn :=
  let (lock, ptxn) := m.write_lock_new size lock_status ptxn generation last_change_enabled
  if lock.use_async_commit || m.try_one_pc then
    match async_commit_timestamps cm ⟨lock.min_commit_ts.toNat⟩ m.start_ts.toNat
        m.for_update_ts.toNat m.commit_kind.max_commit_ts.toNat with
    | none => (.error .Panic, ptxn)
    | some (.ok (min_commit_ts, _)) =>
      -- the lock stored in memory under the key's guard, and then written
      let lock := { lock with min_commit_ts := UInt64.ofNat min_commit_ts }
      m.write_lock_finish size { ptxn with guards := ptxn.guards ++ [(m.key, lock)] } generation
        shared_locks lock m.try_one_pc (.ok (UInt64.ofNat min_commit_ts))
    | some (.error e) =>
      -- fall back to two-phase commit
      let lock := { lock with use_one_pc := false, use_async_commit := false, secondaries := [] }
      m.write_lock_finish size ptxn generation shared_locks lock false
        (.error (.CommitTsTooLarge e.start_ts e.min_commit_ts e.max_commit_ts))
  else m.write_lock_finish size ptxn generation shared_locks lock m.try_one_pc (.ok 0)

theorem PrewriteMutation.write_lock_new_spec (m : PrewriteMutation) (lock_status : LockStatus)
    (ptxn : PrewriteTxn) (generation : UInt64) (last_change_enabled : Bool) :
    let r := m.write_lock_new size lock_status ptxn generation last_change_enabled
    r.1.min_commit_ts = m.min_commit_ts ∧ r.1.use_async_commit = m.secondary_keys.isSome ∧
      r.2.guards = ptxn.guards ∧ r.2.locks_for_1pc = ptxn.locks_for_1pc := by
  simp only [write_lock_new]
  -- the base lock, before the value and the secondaries
  generalize hbase : (if last_change_enabled = true ∧ m.lock_type = LockType.Lock then _ else _) = base
  have hb : base.min_commit_ts = m.min_commit_ts ∧ base.use_async_commit = false := by
    subst hbase; split_ifs <;> exact ⟨rfl, rfl⟩
  -- the value and the secondaries touch neither field, nor the guards
  cases m.value <;> cases m.secondary_keys <;> dsimp only
  all_goals (try split_ifs) <;> simp [hb]
theorem PrewriteMutation.write_lock_finish_none (m : PrewriteMutation) (ptxn : PrewriteTxn)
    (generation : UInt64) (lock : TxnTypes.Lock) (try_one_pc : Bool)
    (final_min_commit_ts : Except ErrorInner UInt64) :
    m.write_lock_finish size ptxn generation none lock try_one_pc final_min_commit_ts =
      (final_min_commit_ts, if try_one_pc then
        { ptxn with locks_for_1pc := ptxn.locks_for_1pc ++ [(m.key, lock)] }
        else { ptxn with txn := ptxn.txn.put_lock size m.key lock }) := by
  cases try_one_pc <;> rfl

theorem PrewriteMutation.write_lock_of_ok {m : PrewriteMutation} {cm : ConcurrencyManager}
    {lock_status : LockStatus} {ptxn ptxn₁ : PrewriteTxn} {generation : UInt64}
    {shared_locks : Option SharedLocks} {last_change_enabled : Bool} {lock : TxnTypes.Lock}
    {min_commit_ts : Nat} {lock' : Concurrency.Lock}
    (hnew : m.write_lock_new size lock_status ptxn generation last_change_enabled = (lock, ptxn₁))
    (hcond : (lock.use_async_commit || m.try_one_pc) = true)
    (hok : async_commit_timestamps cm ⟨lock.min_commit_ts.toNat⟩ m.start_ts.toNat
      m.for_update_ts.toNat m.commit_kind.max_commit_ts.toNat = some (.ok (min_commit_ts, lock'))) :
    m.write_lock size cm lock_status ptxn generation shared_locks last_change_enabled =
      m.write_lock_finish size { ptxn₁ with guards := ptxn₁.guards ++
          [(m.key, { lock with min_commit_ts := UInt64.ofNat min_commit_ts })] } generation
        shared_locks { lock with min_commit_ts := UInt64.ofNat min_commit_ts } m.try_one_pc
        (.ok (UInt64.ofNat min_commit_ts)) := by
  simp only [PrewriteMutation.write_lock, hnew, hcond, if_true, hok]

theorem PrewriteMutation.write_lock_of_error {m : PrewriteMutation} {cm : ConcurrencyManager}
    {lock_status : LockStatus} {ptxn ptxn₁ : PrewriteTxn} {generation : UInt64}
    {shared_locks : Option SharedLocks} {last_change_enabled : Bool} {lock : TxnTypes.Lock}
    {e : Concurrency.CommitTsTooLarge}
    (hnew : m.write_lock_new size lock_status ptxn generation last_change_enabled = (lock, ptxn₁))
    (hcond : (lock.use_async_commit || m.try_one_pc) = true)
    (herr : async_commit_timestamps cm ⟨lock.min_commit_ts.toNat⟩ m.start_ts.toNat
      m.for_update_ts.toNat m.commit_kind.max_commit_ts.toNat = some (.error e)) :
    m.write_lock size cm lock_status ptxn generation shared_locks last_change_enabled =
      m.write_lock_finish size ptxn₁ generation shared_locks
        { lock with use_one_pc := false, use_async_commit := false, secondaries := [] } false
        (.error (.CommitTsTooLarge e.start_ts e.min_commit_ts e.max_commit_ts)) := by
  simp only [PrewriteMutation.write_lock, hnew, hcond, if_true, herr]

def AsyncCommitOutcome (m : PrewriteMutation) (cm : ConcurrencyManager) (ptxn : PrewriteTxn)
    (r : Except ErrorInner UInt64 × PrewriteTxn) : Prop :=
  (∃ c lock, r.1 = .ok c ∧ cm.max_ts < c.toNat ∧ m.start_ts < c ∧ m.for_update_ts < c ∧
      m.min_commit_ts ≤ c ∧ (m.commit_kind.max_commit_ts ≠ 0 → c ≤ m.commit_kind.max_commit_ts) ∧
      lock.min_commit_ts = c ∧ (m.key, lock) ∈ r.2.guards ∧
      (if m.try_one_pc then (m.key, lock) ∈ r.2.locks_for_1pc
        else .PutLock m.key (.Left lock) ∈ r.2.txn.modifies)) ∨
  (∃ min_commit_ts lock, r.1 = .error (.CommitTsTooLarge m.start_ts.toNat min_commit_ts
        m.commit_kind.max_commit_ts.toNat) ∧
      m.commit_kind.max_commit_ts ≠ 0 ∧ m.commit_kind.max_commit_ts.toNat < min_commit_ts ∧
      r.2.guards = ptxn.guards ∧ lock.use_async_commit = false ∧ lock.use_one_pc = false ∧
      lock.secondaries = [] ∧ .PutLock m.key (.Left lock) ∈ r.2.txn.modifies)

theorem write_lock_async_commit (m : PrewriteMutation) (cm : ConcurrencyManager)
    (lock_status : LockStatus) (ptxn : PrewriteTxn) (generation : UInt64)
    (last_change_enabled : Bool) (hasync : m.secondary_keys.isSome ∨ m.try_one_pc)
    (hts : max (max cm.max_ts m.start_ts.toNat) m.for_update_ts.toNat < TimeStamp.max) :
    AsyncCommitOutcome m cm ptxn
      (m.write_lock size cm lock_status ptxn generation none last_change_enabled) := by
  unfold AsyncCommitOutcome
  obtain ⟨hmin, hac, hguards, -⟩ :=
    m.write_lock_new_spec size lock_status ptxn generation last_change_enabled
  generalize hnew : m.write_lock_new size lock_status ptxn generation last_change_enabled = p
    at hmin hac hguards
  obtain ⟨lock, ptxn₁⟩ := p
  dsimp only at hmin hac hguards
  have hcond : (lock.use_async_commit || m.try_one_pc) = true := by
    rcases hasync with h | h <;> simp_all
  -- the commit timestamp is below 2^64: the ofNat into the lock is exact
  have hlock_lt := UInt64.toNat_lt lock.min_commit_ts
  rcases async_commit_timestamps_cases cm ⟨lock.min_commit_ts.toNat⟩ m.start_ts.toNat
      m.for_update_ts.toNat m.commit_kind.max_commit_ts.toNat hts with ⟨hle, hok⟩ | ⟨⟨hne, hlt⟩, herr⟩
  · left
    dsimp only at hok
    rw [PrewriteMutation.write_lock_of_ok size hnew hcond hok,
      PrewriteMutation.write_lock_finish_none]
    generalize hmc : max lock.min_commit_ts.toNat
      (max (max cm.max_ts m.start_ts.toNat) m.for_update_ts.toNat + 1) = mc at hle ⊢
    have hmax : TimeStamp.max = 2 ^ 64 - 1 := rfl
    have hsize : UInt64.size = 2 ^ 64 := rfl
    have hval : (UInt64.ofNat mc).toNat = mc := UInt64.toNat_ofNat_of_lt (by omega)
    refine ⟨UInt64.ofNat mc, { lock with min_commit_ts := UInt64.ofNat mc }, rfl, by omega,
      UInt64.lt_iff_toNat_lt.mpr (by omega), UInt64.lt_iff_toNat_lt.mpr (by omega),
      UInt64.le_iff_toNat_le.mpr (by rw [← hmin]; omega), ?_, rfl, by split <;> simp, ?_⟩
    · intro hne
      have : m.commit_kind.max_commit_ts.toNat ≠ 0 := by simpa [← UInt64.toNat_inj] using hne
      exact UInt64.le_iff_toNat_le.mpr (by omega)
    · cases m.try_one_pc <;> simp [MvccTxn.put_lock, MvccTxn.push]
  · right
    rw [PrewriteMutation.write_lock_of_error size hnew hcond herr,
      PrewriteMutation.write_lock_finish_none]
    refine ⟨_, { lock with use_one_pc := false, use_async_commit := false, secondaries := [] }, rfl,
      by simpa [← UInt64.toNat_inj] using hne, hlt, hguards, rfl, rfl, rfl, ?_⟩
    simp [MvccTxn.put_lock, MvccTxn.push]

def async_put (max_commit_ts : UInt64) : PrewriteMutation :=
  ⟨[1], some [118], .Put, 3000, 0, .Unknown, some [[2]], [1], 10, 0, .Async max_commit_ts, 1, 0⟩

def max_ts_at_20 : ConcurrencyManager := ConcurrencyManager.new_with_config 20 0 .Panic 0 0

/-- Both outcomes: with no `max_commit_ts` the lock gets the commit timestamp 21; under the
`max_commit_ts` 15 the prewrite falls back to two-phase commit with `CommitTsTooLarge`. -/
theorem write_lock_async_commit_outcomes :
    (((async_put 0).secondary_keys.isSome ∨ (async_put 0).try_one_pc) ∧
      max (max max_ts_at_20.max_ts (async_put 0).start_ts.toNat) (async_put 0).for_update_ts.toNat <
        TimeStamp.max) ∧
    AsyncCommitOutcome (async_put 0) max_ts_at_20 ⟨MvccTxn.new, [], []⟩
      ((async_put 0).write_lock (fun _ => 1) max_ts_at_20 .None ⟨MvccTxn.new, [], []⟩ 0 none false) ∧
    ((async_put 0).write_lock (fun _ => 1) max_ts_at_20 .None ⟨MvccTxn.new, [], []⟩ 0 none
      false).1 = .ok 21 ∧
    AsyncCommitOutcome (async_put 15) max_ts_at_20 ⟨MvccTxn.new, [], []⟩
      ((async_put 15).write_lock (fun _ => 1) max_ts_at_20 .None ⟨MvccTxn.new, [], []⟩ 0 none
        false) ∧
    ((async_put 15).write_lock (fun _ => 1) max_ts_at_20 .None ⟨MvccTxn.new, [], []⟩ 0 none
      false).1 = .error (.CommitTsTooLarge 10 21 15) :=
  ⟨⟨by decide, by decide⟩,
    write_lock_async_commit _ _ _ _ _ 0 false (by decide) (by decide), by decide,
    write_lock_async_commit _ _ _ _ _ 0 false (by decide) (by decide), by decide⟩

/-- At `max_ts = u64::MAX` the section panics in `TimeStamp::next`, returning neither a
timestamp nor `CommitTsTooLarge`; and a shared lock prewrite with async commit stores its lock
in memory with the timestamp but fails without writing it. -/
theorem async_commit_timestamps_panics_at_max_ts :
    async_commit_timestamps (ConcurrencyManager.new_with_config TimeStamp.max 0 .Panic 0 0) ⟨0⟩
      10 0 0 = none ∧
    let m : PrewriteMutation :=
      ⟨[1], none, .Lock, 3000, 0, .Unknown, some [[2]], [2], 10, 0, .Async 0, 1, 0⟩
    let r := m.write_lock (fun _ => 1) (ConcurrencyManager.new_with_config 20 0 .Panic 0 0) .None
      ⟨MvccTxn.new, [], []⟩ 0 (some ⟨[(10, TxnTypes.Lock.new .Lock [2] 10 3000 none 0 1 0 false)]⟩)
      false
    r.1 = .error (.Other "shared lock prewrite cannot use async-commit, falling back to 2PC") ∧
      r.2.txn = MvccTxn.new ∧ r.2.guards.map (·.2.min_commit_ts) = [21] := by
  refine ⟨by decide, ?_⟩
  decide

end Tikv.Txn
