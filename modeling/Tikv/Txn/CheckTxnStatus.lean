import Tikv.Txn.Changes
import Tikv.Txn.RollbackFacts
import Tikv.Concurrency.MaxTs
import Mathlib

/-!
The status of a transaction checked at its primary key (src/src/storage/txn/actions/
check_txn_status.rs and the CheckTxnStatus, TxnHeartBeat and Commit commands), on the one-key
state of the prewrite and commit actions. A lock found alive has its min_commit_ts pushed past
the caller, so that the caller may read past it; an expired one is rolled back; a missing one
is looked up in the write records and, when asked, rolled back there.

The key is its raw bytes here, so `is_encoded_from` of the primary is equality of raw keys. The
key's lock carries neither a generation (a pipelined flush's) nor `is_locked_with_conflict`: both
are read as their value for every other lock, 0 and false.

A check that pushes the lock of transaction `start_ts` past `r` is kept by every later command
of the transaction on the key that does the constraint check: the lock's ttl and min_commit_ts
never fall, a lock once gone never comes back, and a commit that writes does so above `r`. A
commit at or below `r` of a transaction already committed above `r` still answers Ok, and a
prewrite that skips the constraint check puts back a fresh lock below `r`.
-/

namespace Tikv.Txn

open Tikv.Mvcc
open Tikv.Concurrency (TimeStamp.max TimeStamp.physical)

inductive TxnStatus
  | RolledBack
  | TtlExpire
  | LockNotExist
  | Uncommitted (lock : Lock) (min_commit_ts_pushed : Bool)
  | Committed (commit_ts : Nat)
  | PessimisticRollBack
  | LockNotExistDoNothing
  deriving DecidableEq, Repr

inductive CommandError
  | Mvcc (e : TxnError)
  | PrimaryMismatch (lock : Lock)
  | TxnNotFound (start_ts : Nat) (key : List UInt8)
  | InvalidTxnTso (start_ts commit_ts : Nat)
  deriving DecidableEq, Repr

inductive MissingLockAction
  | Rollback
  | ProtectedRollback
  | ReturnError
  deriving DecidableEq, Repr

def MissingLockAction.rollback (rollback_if_not_exist : Bool) : MissingLockAction :=
  if rollback_if_not_exist then .ProtectedRollback else .ReturnError

/-- The source's `unreachable!` for `ReturnError` is a panic. -/
def MissingLockAction.collapse_rollback : MissingLockAction → Except TxnError Bool
  | .Rollback => .ok true
  | .ProtectedRollback => .ok false
  | .ReturnError => .error .Panic

def MissingLockAction.construct_write (action : MissingLockAction) (ts : Nat)
    (overlapped_write : Option (Write × Nat)) : Except TxnError (Option Write) := do
  let collapse_rollback ← action.collapse_rollback
  match make_rollback ts (!collapse_rollback) overlapped_write with
  | .ok write => .ok write
  | .error _ => .error .Panic

namespace KeyState

def unlock_key (s : KeyState) : KeyState := { s with lock := none }

def put_lock (s : KeyState) (lock : Lock) : KeyState := { s with lock := some lock }

def put_write (s : KeyState) (commit_ts : Nat) (write : Write) : KeyState :=
  { s with writes := Tikv.Txn.put_write s.writes commit_ts write }

def delete_write (s : KeyState) (commit_ts : Nat) : KeyState :=
  { s with writes := s.writes.filter fun p => p.1 ≠ commit_ts }

def delete_value (s : KeyState) (start_ts : Nat) : KeyState :=
  { s with defaults := Tikv.Lib.AssocList.erase start_ts s.defaults }

def collapse_prev_rollback (snapshot : List (Nat × Write)) (s : KeyState) (start_ts : Nat) :
    KeyState :=
  match seek_write snapshot start_ts with
  | some (commit_ts, write) =>
    if write.write_type = .Rollback ∧ !write.is_protected then s.delete_write commit_ts else s
  | none => s

/-- `rollback_lock`, `start_ts` being the reader's. Reads go to the snapshot `s`, and the
modifies are applied in the order the source makes them. -/
def rollback_lock (s : KeyState) (key : List UInt8) (start_ts : Nat) (lock : Lock)
    (collapse_rollback : Bool) : Except TxnError KeyState :=
  match MvccReader.get_txn_commit_record s.writes start_ts with
  | .SingleRecord _ write =>
    if write.write_type ≠ .Rollback then .error .Panic else .ok s.unlock_key
  | .OverlappedRollback _ => .ok s.unlock_key
  | .None overlapped_write =>
    let s' := if lock.short_value = none ∧ lock.lock_type = .Put then s.delete_value lock.ts
      else s
    match make_rollback start_ts (decide (key = lock.primary)) overlapped_write with
    | .error _ => .error .Panic
    | .ok write =>
      let s' := match write with
        | some write => s'.put_write start_ts write
        | none => s'
      let s' := if collapse_rollback then s'.collapse_prev_rollback s.writes start_ts else s'
      .ok s'.unlock_key

def mark_rollback_on_mismatching_lock (s : KeyState) (start_ts : Nat) (lock : Lock)
    (is_protected : Bool) : Except TxnError KeyState :=
  if lock.ts = start_ts then .error .Panic
  else if !is_protected then .ok s
  else if start_ts < lock.min_commit_ts then .ok s
  else if !lock.use_async_commit then .ok s
  else .ok (s.put_lock { lock with rollback_ts := lock.rollback_ts ++ [start_ts] })

end KeyState

def check_txn_status_missing_lock (s : KeyState) (primary_key : List UInt8) (start_ts : Nat)
    (mismatch_lock : Option Lock) (action : MissingLockAction)
    (resolving_pessimistic_lock : Bool) : Except CommandError (TxnStatus × KeyState) :=
  match MvccReader.get_txn_commit_record s.writes start_ts with
  | .SingleRecord commit_ts write =>
    .ok (if write.write_type = .Rollback then .RolledBack else .Committed commit_ts, s)
  | .OverlappedRollback _ => .ok (.RolledBack, s)
  | .None overlapped_write =>
    if action = .ReturnError then .error (.TxnNotFound start_ts primary_key)
    else if resolving_pessimistic_lock then .ok (.LockNotExistDoNothing, s)
    else
      Except.mapError .Mvcc do
        let collapse_rollback ← action.collapse_rollback
        let s' := if collapse_rollback then s.collapse_prev_rollback s.writes start_ts else s
        let s' ← match mismatch_lock, overlapped_write with
          | some l, none =>
            s'.mark_rollback_on_mismatching_lock start_ts l (decide (action = .ProtectedRollback))
          | _, _ => pure s'
        let write ← action.construct_write start_ts overlapped_write
        let s' := match write with
          | some write => s'.put_write start_ts write
          | none => s'
        pure (.LockNotExist, s')

/-- `none` is a pessimistic primary lock still alive. -/
def check_txn_status_from_pessimistic_primary_lock (s : KeyState) (primary_key : List UInt8)
    (start_ts : Nat) (lock : Lock) (current_ts : Nat) (resolving_pessimistic_lock : Bool) :
    Except TxnError (Option (TxnStatus × KeyState)) :=
  if TimeStamp.physical lock.ts + lock.ttl < TimeStamp.physical current_ts then
    if resolving_pessimistic_lock then .ok (some (.PessimisticRollBack, s.unlock_key))
    else (s.rollback_lock primary_key start_ts lock true).map fun s' => some (.TtlExpire, s')
  else .ok none

def push_min_commit_ts (lock : Lock) (current_ts caller_start_ts : Nat) : Option Lock :=
  if lock.min_commit_ts ≠ 0 ∧ caller_start_ts ≠ TimeStamp.max ∧
      lock.min_commit_ts ≤ caller_start_ts then
    some { lock with min_commit_ts := max (caller_start_ts + 1) current_ts }
  else none

def min_commit_ts_pushed (lock : Lock) (caller_start_ts : Nat) : Bool :=
  (caller_start_ts ≠ 0 ∧ caller_start_ts < lock.min_commit_ts) ∨ caller_start_ts = TimeStamp.max

def lock_stays_uncommitted (s : KeyState) (lock : Lock) (current_ts caller_start_ts : Nat) :
    TxnStatus × KeyState :=
  match push_min_commit_ts lock current_ts caller_start_ts with
  | some lock => (.Uncommitted lock (min_commit_ts_pushed lock caller_start_ts), s.put_lock lock)
  | none => (.Uncommitted lock (min_commit_ts_pushed lock caller_start_ts), s)

def check_txn_status_lock_exists (s : KeyState) (primary_key : List UInt8) (start_ts : Nat)
    (lock : Lock) (current_ts caller_start_ts : Nat)
    (force_sync_commit resolving_pessimistic_lock verify_is_primary rollback_if_not_exist : Bool) :
    Except CommandError (TxnStatus × KeyState) :=
  if verify_is_primary ∧ primary_key ≠ lock.primary then
    if !resolving_pessimistic_lock ∧ lock.is_pessimistic_lock then
      (check_txn_status_missing_lock s primary_key start_ts none
        (.rollback rollback_if_not_exist) resolving_pessimistic_lock).map
        fun r => (r.1, r.2.unlock_key)
    else .error (.PrimaryMismatch lock)
  else if lock.use_async_commit ∧ !force_sync_commit then .ok (.Uncommitted lock false, s)
  else if lock.is_pessimistic_lock then
    match check_txn_status_from_pessimistic_primary_lock s primary_key start_ts lock current_ts
        resolving_pessimistic_lock with
    | .error e => .error (.Mvcc e)
    | .ok (some r) => .ok r
    | .ok none => .ok (lock_stays_uncommitted s lock current_ts caller_start_ts)
  else if TimeStamp.physical lock.ts + lock.ttl < TimeStamp.physical current_ts then
    match s.rollback_lock primary_key start_ts lock true with
    | .error e => .error (.Mvcc e)
    | .ok s' => .ok (.TtlExpire, s')
  else .ok (lock_stays_uncommitted s lock current_ts caller_start_ts)

namespace Commands

structure CheckTxnStatus where
  primary_key : List UInt8
  lock_ts : Nat
  caller_start_ts : Nat
  current_ts : Nat
  rollback_if_not_exist : Bool
  force_sync_commit : Bool
  resolving_pessimistic_lock : Bool
  verify_is_primary : Bool
  deriving DecidableEq, Repr

/-- The update of max_ts in the concurrency manager is not modelled. -/
def CheckTxnStatus.process_write (cmd : CheckTxnStatus) (s : KeyState) :
    Except CommandError (TxnStatus × KeyState) :=
  match s.lock with
  | some lock =>
    if lock.ts = cmd.lock_ts then
      check_txn_status_lock_exists s cmd.primary_key cmd.lock_ts lock cmd.current_ts
        cmd.caller_start_ts cmd.force_sync_commit cmd.resolving_pessimistic_lock
        cmd.verify_is_primary cmd.rollback_if_not_exist
    else
      check_txn_status_missing_lock s cmd.primary_key cmd.lock_ts (some lock)
        (.rollback cmd.rollback_if_not_exist) cmd.resolving_pessimistic_lock
  | none =>
    check_txn_status_missing_lock s cmd.primary_key cmd.lock_ts none
      (.rollback cmd.rollback_if_not_exist) cmd.resolving_pessimistic_lock

/-- The request's min_commit_ts is taken only for a lock of a pipelined flush, which the key's
lock is not, and is left out. -/
structure TxnHeartBeat where
  primary_key : List UInt8
  start_ts : Nat
  advise_ttl : Nat
  deriving DecidableEq, Repr

def TxnHeartBeat.process_write (cmd : TxnHeartBeat) (s : KeyState) :
    Except CommandError (TxnStatus × KeyState) :=
  match s.lock with
  | some lock =>
    if lock.ts = cmd.start_ts then
      if lock.ttl < cmd.advise_ttl then
        .ok (.Uncommitted { lock with ttl := cmd.advise_ttl } false,
          s.put_lock { lock with ttl := cmd.advise_ttl })
      else .ok (.Uncommitted lock false, s)
    else .error (.TxnNotFound cmd.start_ts cmd.primary_key)
  | none => .error (.TxnNotFound cmd.start_ts cmd.primary_key)

structure Commit where
  lock_ts : Nat
  commit_ts : Nat
  deriving DecidableEq, Repr

def Commit.process_write (cmd : Commit) (s : KeyState) :
    Except CommandError (TxnStatus × KeyState) :=
  if cmd.commit_ts ≤ cmd.lock_ts then .error (.InvalidTxnTso cmd.lock_ts cmd.commit_ts)
  else
    match commit s cmd.lock_ts cmd.commit_ts with
    | .ok s' => .ok (.Committed cmd.commit_ts, s')
    | .error e => .error (.Mvcc e)

end Commands

/-- A command of transaction `start_ts` on its primary key `key` that succeeds, with the state it
leaves; a command that fails leaves the state as it was. A resent prewrite does the constraint
check, and a commit timestamp is a u64. -/
inductive PrimaryStep (key : List UInt8) (start_ts : Nat) : KeyState → KeyState → Prop
  | check_txn_status {s s' : KeyState} {status : TxnStatus} (cmd : Commands.CheckTxnStatus)
      (hkey : cmd.primary_key = key) (hts : cmd.lock_ts = start_ts)
      (h : cmd.process_write s = .ok (status, s')) : PrimaryStep key start_ts s s'
  | txn_heart_beat {s s' : KeyState} {status : TxnStatus} (cmd : Commands.TxnHeartBeat)
      (hts : cmd.start_ts = start_ts) (h : cmd.process_write s = .ok (status, s')) :
      PrimaryStep key start_ts s s'
  | prewrite {s s' : KeyState} {min_commit_ts : Nat} (txn_props : TransactionProperties)
      (mutation : Mutation) (last_change_enabled : Bool) (scan_nexts : Nat)
      (hts : txn_props.start_ts = start_ts) (hcheck : txn_props.skip_constraint_check = false)
      (h : prewrite s txn_props mutation last_change_enabled scan_nexts = .ok (s', min_commit_ts)) :
      PrimaryStep key start_ts s s'
  | commit {s s' : KeyState} {status : TxnStatus} (cmd : Commands.Commit)
      (hts : cmd.lock_ts = start_ts) (hmax : cmd.commit_ts ≤ TimeStamp.max)
      (h : cmd.process_write s = .ok (status, s')) : PrimaryStep key start_ts s s'

section Records

variable {writes : List (Nat × Write)} {t c : Nat} {w : Write}

/-- The write records the commands keep well formed: newest first, u64 commit timestamps, and
every rollback at its own start_ts. -/
structure WritesWf (writes : List (Nat × Write)) : Prop where
  desc : writes.Pairwise fun a b => b.1 < a.1
  bounded : ∀ p ∈ writes, p.1 ≤ TimeStamp.max
  rollback_at_start : ∀ p ∈ writes, p.2.write_type = .Rollback → p.2.start_ts = p.1

theorem WritesWf.put_write (h : WritesWf writes) (hc : c ≤ TimeStamp.max)
    (hw : w.write_type = .Rollback → w.start_ts = c) : WritesWf (put_write writes c w) := by
  refine ⟨desc_put_write h.desc c w, fun p hp => ?_, fun p hp => ?_⟩
  · rcases mem_put_write hp with rfl | hp
    · exact hc
    · exact h.bounded p hp
  · rcases mem_put_write hp with rfl | hp
    · exact hw
    · exact h.rollback_at_start p hp

theorem WritesWf.filter (h : WritesWf writes) (q : Nat × Write → Bool) :
    WritesWf (writes.filter q) :=
  ⟨h.desc.filter q, fun p hp => h.bounded p (List.mem_filter.mp hp).1,
    fun p hp => h.rollback_at_start p (List.mem_filter.mp hp).1⟩

theorem WritesWf.eq_of_mem (h : WritesWf writes) {x y : Write} (hx : (c, x) ∈ writes)
    (hy : (c, y) ∈ writes) : x = y :=
  (Prod.mk.inj (Tikv.Lib.SortedList.key_inj (k := Prod.fst) h.desc hx hy rfl)).2

theorem mem_put_write_self : (c, w) ∈ put_write writes c w := by
  simp [put_write]

def Decided (start_ts : Nat) (writes : List (Nat × Write)) : Prop :=
  ∃ p ∈ writes, start_ts < p.1 ∨
    p.1 = start_ts ∧ (p.2.write_type = .Rollback ∨ p.2.has_overlapped_rollback = true)

theorem check_for_newer_version_of_decided (hwf : WritesWf writes)
    {txn_props : TransactionProperties} (hd : Decided txn_props.start_ts writes)
    (scan_nexts : Nat) (last_change : LastChange) :
    check_for_newer_version writes txn_props scan_nexts ≠ .ok last_change := by
  obtain ⟨⟨pc, pw⟩, hp, hpd⟩ := hd
  obtain ⟨⟨c, x⟩, rest, rfl⟩ : ∃ q rest, writes = q :: rest :=
    List.exists_cons_of_ne_nil (List.ne_nil_of_mem hp)
  have hseek : seek_write ((c, x) :: rest) TimeStamp.max = some (c, x) := by
    rw [seek_write, dropWhile_of_le hwf.bounded]
    rfl
  have hpc : pc ≤ c := by
    rcases List.mem_cons.mp hp with h | hp'
    · exact Nat.le_of_eq (Prod.mk.inj h).1
    · exact Nat.le_of_lt ((List.pairwise_cons.mp hwf.desc).1 _ hp')
  intro h
  rw [check_for_newer_version, hseek] at h
  dsimp only at h
  by_cases hself : c = txn_props.start_ts ∧
      (x.write_type = .Rollback ∨ x.has_overlapped_rollback = true)
  · rw [if_pos hself] at h
    cases h
  rw [if_neg hself] at h
  cases hn : next_last_change_info ((c, x) :: rest) x txn_props.start_ts c scan_nexts with
  | error e =>
    rw [hn] at h
    cases h
  | ok lc =>
    simp only [hn, bind, Except.bind] at h
    split_ifs at h with hlt
    rcases hpd with hgt | ⟨heq, hrb⟩
    · exact absurd (Nat.lt_of_lt_of_le hgt hpc) hlt
    · -- the newest record is at the start_ts, so it is the decided one
      have hc : c = pc := by omega
      subst hc
      have hx : pw = x := hwf.eq_of_mem hp List.mem_cons_self
      subst hx
      exact hself ⟨heq, hrb⟩

theorem get_txn_commit_record_loop_overlapped (hdesc : writes.Pairwise fun a b => b.1 < a.1)
    {seek_ts gc_fence : Nat}
    (h : MvccReader.get_txn_commit_record_loop writes t seek_ts gc_fence = .OverlappedRollback c) :
    ∃ w, (t, w) ∈ writes ∧ w.has_overlapped_rollback = true := by
  induction seek_ts using Nat.strong_induction_on generalizing gc_fence with
  | _ seek_ts ih =>
    rw [MvccReader.get_txn_commit_record_loop] at h
    split at h
    · cases h
    · rename_i c' w' hseek
      obtain ⟨hmem, hle, -⟩ := seek_write_spec hdesc hseek
      split_ifs at h with hstart hct hov hch hlt
      · exact ⟨w', hct ▸ hmem, hov⟩
      · exact ih _ (by omega) h
      · exact ih _ (by omega) h

theorem get_txn_commit_record_overlapped (hdesc : writes.Pairwise fun a b => b.1 < a.1)
    (h : MvccReader.get_txn_commit_record writes t = .OverlappedRollback c) :
    ∃ w, (t, w) ∈ writes ∧ w.has_overlapped_rollback = true :=
  get_txn_commit_record_loop_overlapped hdesc h

theorem not_rollback_of_commit_record_none (hwf : WritesWf writes) (ht : t ≤ TimeStamp.max)
    {ow : Option (Write × Nat)} (h : MvccReader.get_txn_commit_record writes t = .None ow)
    {x : Write} (hx : (t, x) ∈ writes) : x.write_type ≠ .Rollback := by
  have hspec := get_txn_commit_record_spec hwf.desc hwf.bounded ht
  rw [h] at hspec
  intro hR
  cases ow with
  | none => exact hspec (t, x) hx rfl
  | some wf =>
    obtain ⟨w, f⟩ := wf
    obtain ⟨hw, hne, -⟩ := hspec
    rw [← hwf.eq_of_mem hx hw] at hne
    exact hne (hwf.rollback_at_start (t, x) hx hR)

theorem protected_rollback_record (hwf : WritesWf writes) (ht : t ≤ TimeStamp.max)
    {ow : Option (Write × Nat)} (hrec : MvccReader.get_txn_commit_record writes t = .None ow)
    {write : Option Write} (hm : make_rollback t true ow = .ok write) :
    ∃ w', write = some w' ∧ (w'.write_type = .Rollback → w'.start_ts = t) ∧
      (w'.write_type = .Rollback ∨ w'.has_overlapped_rollback = true) := by
  have hspec := get_txn_commit_record_spec hwf.desc hwf.bounded ht
  rw [hrec] at hspec
  cases ow with
  | none =>
    simp only [make_rollback, Except.ok.injEq] at hm
    subst hm
    exact ⟨_, rfl, fun _ => rfl, Or.inl rfl⟩
  | some wf =>
    obtain ⟨w, f⟩ := wf
    simp only [make_rollback, if_true] at hm
    split_ifs at hm
    cases hm
    have hnr := not_rollback_of_commit_record_none hwf ht hrec hspec.1
    exact ⟨_, rfl, fun hR => absurd hR hnr, Or.inr rfl⟩

end Records

namespace KeyState

variable {s : KeyState} {snapshot : List (Nat × Write)} {t : Nat}

theorem collapse_prev_rollback_eq (snapshot : List (Nat × Write)) (s : KeyState) (t : Nat) :
    s.collapse_prev_rollback snapshot t = s ∨
      ∃ c x, seek_write snapshot t = some (c, x) ∧ x.write_type = .Rollback ∧
        s.collapse_prev_rollback snapshot t = s.delete_write c := by
  unfold collapse_prev_rollback
  split
  · rename_i c x hseek
    split_ifs with hR
    · exact Or.inr ⟨c, x, hseek, hR.1, rfl⟩
    · exact Or.inl rfl
  · exact Or.inl rfl

theorem collapse_prev_rollback_wf (h : WritesWf s.writes) :
    WritesWf (s.collapse_prev_rollback snapshot t).writes := by
  rcases collapse_prev_rollback_eq snapshot s t with heq | ⟨c, x, -, -, heq⟩
  · rw [heq]
    exact h
  · rw [heq]
    exact h.filter _

theorem mem_collapse_prev_rollback (hdesc : snapshot.Pairwise fun a b => b.1 < a.1)
    (hno : ∀ x, (t, x) ∈ snapshot → x.write_type ≠ .Rollback) {w : Write}
    (hw : (t, w) ∈ s.writes) : (t, w) ∈ (s.collapse_prev_rollback snapshot t).writes := by
  rcases collapse_prev_rollback_eq snapshot s t with heq | ⟨c, x, hseek, hR, heq⟩
  · rw [heq]
    exact hw
  · have hct : c ≠ t := by
      rintro rfl
      exact hno x (seek_write_spec hdesc hseek).1 hR
    rw [heq]
    exact List.mem_filter.mpr ⟨hw, by simpa using hct.symm⟩

end KeyState


section Pushed

variable {key : List UInt8} {start_ts r : Nat} {s s' : KeyState} {l : Lock}

/-- The lock after a push past `r`: the transaction's optimistic lock on its primary key, without
async commit, with min_commit_ts above `r`. -/
structure PushedLock (key : List UInt8) (start_ts r : Nat) (lock : Lock) : Prop where
  ts : lock.ts = start_ts
  primary : lock.primary = key
  not_pessimistic : lock.lock_type ≠ .Pessimistic
  not_async : lock.use_async_commit = false
  above : r < lock.min_commit_ts

theorem PushedLock.with_min_commit_ts (hp : PushedLock key start_ts r l) {m : Nat}
    (hm : l.min_commit_ts ≤ m) : PushedLock key start_ts r { l with min_commit_ts := m } :=
  ⟨hp.ts, hp.primary, hp.not_pessimistic, hp.not_async, Nat.lt_of_lt_of_le hp.above hm⟩

theorem PushedLock.with_ttl (hp : PushedLock key start_ts r l) (ttl : Nat) :
    PushedLock key start_ts r { l with ttl := ttl } :=
  ⟨hp.ts, hp.primary, hp.not_pessimistic, hp.not_async, hp.above⟩

/-- What the commands keep once the lock is pushed past `r`: the records stay well formed, a lock
is the pushed one, and without a lock the transaction is decided. -/
structure PushedInv (key : List UInt8) (start_ts r : Nat) (s : KeyState) : Prop where
  wf : WritesWf s.writes
  lock : ∀ l, s.lock = some l → PushedLock key start_ts r l
  decided : s.lock = none → Decided start_ts s.writes

theorem PushedInv.of_unlocked (hwf : WritesWf s.writes) (hl : s.lock = none)
    (hd : Decided start_ts s.writes) : PushedInv key start_ts r s := by
  refine ⟨hwf, fun l h => ?_, fun _ => hd⟩
  rw [hl] at h
  cases h

def LockGrows (s s' : KeyState) : Prop :=
  ∀ l', s'.lock = some l' →
    ∃ l, s.lock = some l ∧ l.ttl ≤ l'.ttl ∧ l.min_commit_ts ≤ l'.min_commit_ts

theorem LockGrows.refl (s : KeyState) : LockGrows s s :=
  fun l hl => ⟨l, hl, Nat.le_refl _, Nat.le_refl _⟩

theorem LockGrows.trans {s₁ s₂ s₃ : KeyState} (h₁ : LockGrows s₁ s₂) (h₂ : LockGrows s₂ s₃) :
    LockGrows s₁ s₃ := by
  intro l₃ hl₃
  obtain ⟨l₂, hl₂, ht₂, hm₂⟩ := h₂ l₃ hl₃
  obtain ⟨l₁, hl₁, ht₁, hm₁⟩ := h₁ l₂ hl₂
  exact ⟨l₁, hl₁, Nat.le_trans ht₁ ht₂, Nat.le_trans hm₁ hm₂⟩

theorem LockGrows.of_unlocked (h : s'.lock = none) : LockGrows s s' := by
  intro l' hl'
  rw [h] at hl'
  cases hl'

theorem rollback_lock_decides (hwf : WritesWf s.writes) (ht : start_ts ≤ TimeStamp.max)
    (hprimary : l.primary = key) (h : s.rollback_lock key start_ts l true = .ok s') :
    s'.lock = none ∧ WritesWf s'.writes ∧ Decided start_ts s'.writes := by
  have hspec := get_txn_commit_record_spec hwf.desc hwf.bounded ht
  unfold KeyState.rollback_lock at h
  split at h
  · rename_i c w hrec
    rw [hrec] at hspec
    split_ifs at h with hR
    cases h
    have hR' : w.write_type = .Rollback := not_not.mp hR
    have hc : c = start_ts := (hwf.rollback_at_start (c, w) hspec.1 hR').symm.trans hspec.2
    exact ⟨rfl, hwf, ⟨(c, w), hspec.1, Or.inr ⟨hc, Or.inl hR'⟩⟩⟩
  · rename_i c hrec
    obtain ⟨w, hw, hov⟩ := get_txn_commit_record_overlapped hwf.desc hrec
    cases h
    exact ⟨rfl, hwf, ⟨(start_ts, w), hw, Or.inr ⟨rfl, Or.inr hov⟩⟩⟩
  · rename_i ow hrec
    generalize hs₁ : (if l.short_value = none ∧ l.lock_type = .Put then s.delete_value l.ts
      else s) = s₁ at h
    have hw₁ : s₁.writes = s.writes := by
      rw [← hs₁]
      split_ifs <;> rfl
    simp only [hprimary, decide_true, if_true] at h
    cases hm : make_rollback start_ts true ow with
    | error e =>
      rw [hm] at h
      cases h
    | ok write =>
      rw [hm] at h
      obtain ⟨w', rfl, hw', hd⟩ := protected_rollback_record hwf ht hrec hm
      cases h
      have hno : ∀ x, (start_ts, x) ∈ s.writes → x.write_type ≠ .Rollback :=
        fun x hx => not_rollback_of_commit_record_none hwf ht hrec hx
      have hput : WritesWf (s₁.put_write start_ts w').writes := by
        show WritesWf (put_write s₁.writes start_ts w')
        rw [hw₁]
        exact hwf.put_write ht hw'
      refine ⟨rfl, KeyState.collapse_prev_rollback_wf hput, ⟨(start_ts, w'), ?_, Or.inr ⟨rfl, hd⟩⟩⟩
      exact KeyState.mem_collapse_prev_rollback hwf.desc hno mem_put_write_self

theorem check_txn_status_missing_lock_decides (hwf : WritesWf s.writes)
    (ht : start_ts ≤ TimeStamp.max) {rollback_if_not_exist resolving_pessimistic_lock : Bool}
    {status : TxnStatus}
    (h : check_txn_status_missing_lock s key start_ts none
      (.rollback rollback_if_not_exist) resolving_pessimistic_lock = .ok (status, s')) :
    s'.lock = s.lock ∧ WritesWf s'.writes ∧ (s' = s ∨ Decided start_ts s'.writes) := by
  unfold check_txn_status_missing_lock at h
  split at h
  · cases h
    exact ⟨rfl, hwf, Or.inl rfl⟩
  · cases h
    exact ⟨rfl, hwf, Or.inl rfl⟩
  · rename_i ow hrec
    cases rollback_if_not_exist with
    | false => simp [MissingLockAction.rollback] at h
    | true =>
      simp only [MissingLockAction.rollback, if_true, reduceCtorEq, if_false] at h
      split_ifs at h with hres
      · cases h
        exact ⟨rfl, hwf, Or.inl rfl⟩
      · cases hm : make_rollback start_ts true ow with
        | error e =>
          simp [MissingLockAction.collapse_rollback, MissingLockAction.construct_write, hm, bind,
            Except.bind, pure, Except.pure, Except.mapError] at h
        | ok write =>
          obtain ⟨w', rfl, hw', hd⟩ := protected_rollback_record hwf ht hrec hm
          simp only [MissingLockAction.collapse_rollback, MissingLockAction.construct_write,
            Bool.not_false, hm, bind, Except.bind, Except.mapError, Bool.false_eq_true,
            if_false] at h
          obtain ⟨-, rfl⟩ := h
          refine ⟨rfl, hwf.put_write ht hw', Or.inr ⟨(start_ts, w'), mem_put_write_self, ?_⟩⟩
          exact Or.inr ⟨rfl, hd⟩

theorem push_min_commit_ts_eq {current_ts caller_start_ts : Nat} {l' : Lock}
    (h : push_min_commit_ts l current_ts caller_start_ts = some l') :
    l' = { l with min_commit_ts := l'.min_commit_ts } ∧ caller_start_ts < l'.min_commit_ts ∧
      l.min_commit_ts ≤ caller_start_ts := by
  unfold push_min_commit_ts at h
  split_ifs at h with hc
  cases h
  exact ⟨rfl, by simp only; omega, hc.2.2⟩

theorem lock_stays_uncommitted_eq (hl : s.lock = some l) (current_ts caller_start_ts : Nat) :
    ∃ m, l.min_commit_ts ≤ m ∧ lock_stays_uncommitted s l current_ts caller_start_ts =
      (.Uncommitted { l with min_commit_ts := m }
          (min_commit_ts_pushed { l with min_commit_ts := m } caller_start_ts),
        { s with lock := some { l with min_commit_ts := m } }) := by
  unfold lock_stays_uncommitted
  cases hp : push_min_commit_ts l current_ts caller_start_ts with
  | none =>
    refine ⟨l.min_commit_ts, Nat.le_refl _, ?_⟩
    obtain ⟨lock, writes, defaults⟩ := s
    cases hl
    rfl
  | some l' =>
    obtain ⟨hl', hlt, hle⟩ := push_min_commit_ts_eq hp
    refine ⟨l'.min_commit_ts, by omega, ?_⟩
    rw [← hl']
    rfl

theorem check_txn_status_lock_exists_of_optimistic (hprimary : l.primary = key)
    (hopt : l.lock_type ≠ .Pessimistic) (hsync : l.use_async_commit = false)
    (current_ts caller_start_ts : Nat)
    (force_sync_commit resolving_pessimistic_lock verify_is_primary rollback_if_not_exist : Bool) :
    check_txn_status_lock_exists s key start_ts l current_ts caller_start_ts force_sync_commit
        resolving_pessimistic_lock verify_is_primary rollback_if_not_exist =
      if TimeStamp.physical l.ts + l.ttl < TimeStamp.physical current_ts then
        match s.rollback_lock key start_ts l true with
        | .error e => .error (.Mvcc e)
        | .ok s' => .ok (.TtlExpire, s')
      else .ok (lock_stays_uncommitted s l current_ts caller_start_ts) := by
  have hver : ¬(verify_is_primary = true ∧ key ≠ l.primary) := fun hc => hc.2 hprimary.symm
  have hpess : l.is_pessimistic_lock = false := by
    simp [Lock.is_pessimistic_lock, hopt]
  unfold check_txn_status_lock_exists
  rw [if_neg hver, hpess, hsync]
  simp only [Bool.false_eq_true, false_and, if_false]

theorem check_txn_status_lock_exists_pushed (hwf : WritesWf s.writes)
    (ht : start_ts ≤ TimeStamp.max) (hl : s.lock = some l) (hp : PushedLock key start_ts r l)
    {current_ts caller_start_ts : Nat}
    {force_sync_commit resolving_pessimistic_lock verify_is_primary rollback_if_not_exist : Bool}
    {status : TxnStatus}
    (h : check_txn_status_lock_exists s key start_ts l current_ts caller_start_ts force_sync_commit
      resolving_pessimistic_lock verify_is_primary rollback_if_not_exist = .ok (status, s')) :
    PushedInv key start_ts r s' ∧ LockGrows s s' := by
  rw [check_txn_status_lock_exists_of_optimistic hp.primary hp.not_pessimistic hp.not_async]
    at h
  split_ifs at h with hexp
  · cases hrb : s.rollback_lock key start_ts l true with
    | error e =>
      rw [hrb] at h
      cases h
    | ok s'' =>
      rw [hrb] at h
      cases h
      obtain ⟨hnone, hwf', hd⟩ := rollback_lock_decides hwf ht hp.primary hrb
      exact ⟨PushedInv.of_unlocked hwf' hnone hd, LockGrows.of_unlocked hnone⟩
  · obtain ⟨m, hm, heq⟩ := lock_stays_uncommitted_eq hl current_ts caller_start_ts
    rw [heq] at h
    cases h
    refine ⟨⟨hwf, fun l' hl' => ?_, fun h => by cases h⟩, fun l' hl' => ?_⟩
    · cases hl'
      exact hp.with_min_commit_ts hm
    · cases hl'
      exact ⟨l, hl, Nat.le_refl _, hm⟩

theorem PushedInv.check_txn_status (hi : PushedInv key start_ts r s)
    (ht : start_ts ≤ TimeStamp.max) {cmd : Commands.CheckTxnStatus} (hkey : cmd.primary_key = key)
    (hts : cmd.lock_ts = start_ts) {status : TxnStatus}
    (h : cmd.process_write s = .ok (status, s')) : PushedInv key start_ts r s' ∧ LockGrows s s' := by
  unfold Commands.CheckTxnStatus.process_write at h
  rw [hkey, hts] at h
  cases hl : s.lock with
  | none =>
    simp only [hl] at h
    obtain ⟨hl', hwf', hd⟩ := check_txn_status_missing_lock_decides hi.wf ht h
    have hnone : s'.lock = none := hl'.trans hl
    refine ⟨PushedInv.of_unlocked hwf' hnone ?_, LockGrows.of_unlocked hnone⟩
    rcases hd with rfl | hd
    · exact hi.decided hl
    · exact hd
  | some l =>
    have hp := hi.lock l hl
    simp only [hl, if_pos hp.ts] at h
    exact check_txn_status_lock_exists_pushed hi.wf ht hl hp h

theorem PushedInv.txn_heart_beat (hi : PushedInv key start_ts r s)
    {cmd : Commands.TxnHeartBeat} (hts : cmd.start_ts = start_ts) {status : TxnStatus}
    (h : cmd.process_write s = .ok (status, s')) : PushedInv key start_ts r s' ∧ LockGrows s s' := by
  unfold Commands.TxnHeartBeat.process_write at h
  cases hl : s.lock with
  | none => simp [hl] at h
  | some l =>
    have hp := hi.lock l hl
    simp only [hl, if_pos (hp.ts.trans hts.symm)] at h
    split_ifs at h with httl
    · cases h
      refine ⟨⟨hi.wf, fun l' hl' => ?_, fun h => by cases h⟩, fun l' hl' => ?_⟩
      · cases hl'
        exact hp.with_ttl _
      · cases hl'
        exact ⟨l, hl, Nat.le_of_lt httl, Nat.le_refl _⟩
    · cases h
      exact ⟨hi, LockGrows.refl _⟩

theorem PushedInv.prewrite (hi : PushedInv key start_ts r s) {txn_props : TransactionProperties}
    (hts : txn_props.start_ts = start_ts) (hcheck : txn_props.skip_constraint_check = false)
    {mutation : Mutation} {last_change_enabled : Bool} {scan_nexts min_commit_ts : Nat}
    (h : prewrite s txn_props mutation last_change_enabled scan_nexts = .ok (s', min_commit_ts)) :
    s' = s := by
  unfold Tikv.Txn.prewrite at h
  cases hl : s.lock with
  | none =>
    have hd : Decided txn_props.start_ts s.writes := by
      rw [hts]
      exact hi.decided hl
    simp only [hl, hcheck, Bool.false_eq_true, if_false] at h
    cases hc : check_for_newer_version s.writes txn_props scan_nexts with
    | error e => simp [hc, bind, Except.bind] at h
    | ok lc => exact absurd hc (check_for_newer_version_of_decided hi.wf hd scan_nexts lc)
  | some l =>
    simp only [hl] at h
    cases hc : check_lock l txn_props with
    | error e => simp [hc, bind, Except.bind] at h
    | ok m =>
      simp only [hc, bind, Except.bind, Except.ok.injEq, Prod.mk.injEq] at h
      exact h.1.symm

theorem handle_lock_not_found_eq {start_ts commit_ts : Nat}
    (h : handle_lock_not_found s start_ts commit_ts = .ok s') : s' = s := by
  unfold handle_lock_not_found at h
  split at h <;> first | exact (Except.ok.inj h).symm | cases h

theorem WriteType.from_lock_type_ne_rollback {lock_type : LockType} {write_type : WriteType}
    (h : WriteType.from_lock_type lock_type = some write_type) : write_type ≠ .Rollback := by
  cases lock_type <;> cases h <;> simp

theorem commit_pushed (hi : PushedInv key start_ts r s) {commit_ts : Nat}
    (h : commit s start_ts commit_ts = .ok s') :
    s' = s ∨ r < commit_ts ∧ s'.lock = none ∧
      ∃ w, w.write_type ≠ .Rollback ∧ s'.writes = put_write s.writes commit_ts w := by
  unfold commit at h
  cases hl : s.lock with
  | none =>
    simp only [hl] at h
    exact Or.inl (handle_lock_not_found_eq h)
  | some l =>
    have hp := hi.lock l hl
    have hpess : l.is_pessimistic_lock = false := by
      simp [Lock.is_pessimistic_lock, hp.not_pessimistic]
    simp only [hl, hp.ts, ne_eq, not_true_eq_false, if_false, hpess, Bool.false_eq_true] at h
    by_cases hlt : commit_ts < l.min_commit_ts
    · rw [if_pos hlt] at h
      cases h
    rw [if_neg hlt] at h
    cases hwt : WriteType.from_lock_type l.lock_type with
    | none =>
      rw [hwt] at h
      cases h
    | some wt =>
      rw [hwt] at h
      cases h
      refine Or.inr ⟨Nat.lt_of_lt_of_le hp.above (Nat.le_of_not_lt hlt), rfl, _, ?_, rfl⟩
      split_ifs <;> exact WriteType.from_lock_type_ne_rollback hwt

theorem PushedInv.commit (hi : PushedInv key start_ts r s) {cmd : Commands.Commit}
    (hts : cmd.lock_ts = start_ts) (hmax : cmd.commit_ts ≤ TimeStamp.max) {status : TxnStatus}
    (h : cmd.process_write s = .ok (status, s')) : PushedInv key start_ts r s' ∧ LockGrows s s' := by
  unfold Commands.Commit.process_write at h
  rw [hts] at h
  split_ifs at h with hle
  cases hc : Tikv.Txn.commit s start_ts cmd.commit_ts with
  | error e =>
    rw [hc] at h
    cases h
  | ok s'' =>
    rw [hc] at h
    cases h
    rcases commit_pushed hi hc with rfl | ⟨-, hnone, w, hw, hwrites⟩
    · exact ⟨hi, LockGrows.refl _⟩
    · refine ⟨PushedInv.of_unlocked ?_ hnone ?_, LockGrows.of_unlocked hnone⟩
      · rw [hwrites]
        exact hi.wf.put_write hmax fun hR => absurd hR hw
      · rw [hwrites]
        exact ⟨(cmd.commit_ts, w), mem_put_write_self, Or.inl (Nat.lt_of_not_le hle)⟩

theorem PushedInv.step (hi : PushedInv key start_ts r s) (ht : start_ts ≤ TimeStamp.max)
    (h : PrimaryStep key start_ts s s') : PushedInv key start_ts r s' ∧ LockGrows s s' := by
  cases h with
  | check_txn_status cmd hkey hts h => exact hi.check_txn_status ht hkey hts h
  | txn_heart_beat cmd hts h => exact hi.txn_heart_beat hts h
  | prewrite txn_props mutation last_change_enabled scan_nexts hts hcheck h =>
    rw [hi.prewrite hts hcheck h]
    exact ⟨hi, LockGrows.refl _⟩
  | commit cmd hts hmax h => exact hi.commit hts hmax h

theorem PushedInv.run (hi : PushedInv key start_ts r s) (ht : start_ts ≤ TimeStamp.max)
    (h : Relation.ReflTransGen (PrimaryStep key start_ts) s s') :
    PushedInv key start_ts r s' ∧ LockGrows s s' := by
  induction h with
  | refl => exact ⟨hi, LockGrows.refl _⟩
  | tail _ hstep ih =>
    obtain ⟨hi', hg⟩ := ih
    obtain ⟨hi'', hg'⟩ := hi'.step ht hstep
    exact ⟨hi'', hg.trans hg'⟩

theorem PushedInv.of_check (hwf : WritesWf s.writes) (hl : s.lock = some l)
    (hts : l.ts = start_ts) (hprimary : l.primary = key) (hopt : l.lock_type ≠ .Pessimistic)
    (hsync : l.use_async_commit = false) (hr : 0 < r ∧ r < TimeStamp.max) {current_ts : Nat}
    {force_sync_commit resolving_pessimistic_lock verify_is_primary rollback_if_not_exist : Bool}
    {l' : Lock}
    (h : check_txn_status_lock_exists s key start_ts l current_ts r force_sync_commit
      resolving_pessimistic_lock verify_is_primary rollback_if_not_exist =
        .ok (.Uncommitted l' true, s')) :
    PushedInv key start_ts r s' := by
  rw [check_txn_status_lock_exists_of_optimistic hprimary hopt hsync] at h
  split_ifs at h with hexp
  · cases hrb : s.rollback_lock key start_ts l true with
    | error e =>
      rw [hrb] at h
      cases h
    | ok s'' =>
      rw [hrb] at h
      cases h
  · obtain ⟨m, -, heq⟩ := lock_stays_uncommitted_eq hl current_ts r
    rw [heq] at h
    simp only [Except.ok.injEq, Prod.mk.injEq, TxnStatus.Uncommitted.injEq] at h
    obtain ⟨⟨rfl, hpushed⟩, rfl⟩ := h
    have hm : r < m := by
      simp only [min_commit_ts_pushed, decide_eq_true_eq] at hpushed
      omega
    refine ⟨hwf, fun l'' hl'' => ?_, fun h => by cases h⟩
    cases hl''
    exact ⟨hts, hprimary, hopt, hsync, hm⟩

theorem PushedInv.commit_writes_above (hi : PushedInv key start_ts r s) {commit_ts : Nat}
    {status : TxnStatus}
    (h : (Commands.Commit.mk start_ts commit_ts).process_write s = .ok (status, s'))
    (hne : s' ≠ s) : r < commit_ts := by
  unfold Commands.Commit.process_write at h
  dsimp only at h
  split_ifs at h with hle
  cases hc : Tikv.Txn.commit s start_ts commit_ts with
  | error e =>
    rw [hc] at h
    cases h
  | ok s'' =>
    rw [hc] at h
    cases h
    rcases commit_pushed hi hc with rfl | ⟨hrc, -⟩
    · exact absurd rfl hne
    · exact hrc

theorem PushedInv.commit_at_or_below (hi : PushedInv key start_ts r s) (hl : s.lock = some l)
    {commit_ts : Nat} (hc : commit_ts ≤ r) :
    (Commands.Commit.mk start_ts commit_ts).process_write s =
      .error (if commit_ts ≤ start_ts then .InvalidTxnTso start_ts commit_ts
        else .Mvcc (.CommitTsExpired start_ts commit_ts l.min_commit_ts)) := by
  have hp := hi.lock l hl
  unfold Commands.Commit.process_write
  dsimp only
  split_ifs with hle
  · rfl
  · simp only [Tikv.Txn.commit, hl, hp.ts, ne_eq, not_true_eq_false, if_false,
      if_pos (Nat.lt_of_le_of_lt hc hp.above)]

end Pushed

/-- A check of transaction `start_ts` at its primary key that pushes the lock past the caller
`r` is respected by every later run of the transaction's commands there that do the constraint
check: a lock at a later point was there at every earlier one, with no larger ttl or
min_commit_ts; a commit that writes does so above `r`; and while the lock stays a commit at or
below `r` fails. -/
theorem pushed_min_commit_ts_respected {key : List UInt8} {start_ts r current_ts : Nat}
    {s₀ s s₁ s₂ : KeyState} {l l' : Lock}
    {force_sync_commit resolving_pessimistic_lock verify_is_primary rollback_if_not_exist : Bool}
    (hwf : WritesWf s₀.writes) (hstart : start_ts ≤ TimeStamp.max) (hlock : s₀.lock = some l)
    (hts : l.ts = start_ts) (hprimary : l.primary = key) (hopt : l.lock_type ≠ .Pessimistic)
    (hsync : l.use_async_commit = false) (hr : 0 < r ∧ r < TimeStamp.max)
    (hpush : check_txn_status_lock_exists s₀ key start_ts l current_ts r force_sync_commit
      resolving_pessimistic_lock verify_is_primary rollback_if_not_exist =
        .ok (.Uncommitted l' true, s))
    (h₁ : Relation.ReflTransGen (PrimaryStep key start_ts) s s₁)
    (h₂ : Relation.ReflTransGen (PrimaryStep key start_ts) s₁ s₂) :
    (∀ l₂, s₂.lock = some l₂ →
      ∃ l₁, s₁.lock = some l₁ ∧ l₁.ttl ≤ l₂.ttl ∧ l₁.min_commit_ts ≤ l₂.min_commit_ts) ∧
    (∀ commit_ts status s₃,
      (Commands.Commit.mk start_ts commit_ts).process_write s₂ = .ok (status, s₃) → s₃ ≠ s₂ →
        r < commit_ts) ∧
    (∀ l₂ commit_ts, s₂.lock = some l₂ → commit_ts ≤ r →
      (Commands.Commit.mk start_ts commit_ts).process_write s₂ =
        .error (if commit_ts ≤ start_ts then .InvalidTxnTso start_ts commit_ts
          else .Mvcc (.CommitTsExpired start_ts commit_ts l₂.min_commit_ts))) := by
  have hi := PushedInv.of_check hwf hlock hts hprimary hopt hsync hr hpush
  obtain ⟨hi₁, -⟩ := hi.run hstart h₁
  obtain ⟨hi₂, hgrow⟩ := hi₁.run hstart h₂
  refine ⟨hgrow, fun commit_ts status s₃ h hne => hi₂.commit_writes_above h hne, ?_⟩
  intro l₂ commit_ts hl₂ hc
  exact hi₂.commit_at_or_below hl₂ hc

def lock_at_10 (ttl min_commit_ts : Nat) : Lock :=
  ⟨.Put, [107], 10, ttl, some [118], 0, min_commit_ts, false, [], .Unknown⟩

/-- The push of the lock at 10 past the caller 20, to 21, then a heartbeat that raises its ttl to
5000: the lock keeps its min_commit_ts, and a commit at 15 over it still fails. -/
theorem pushed_min_commit_ts_respected_after_heartbeat :
    check_txn_status_lock_exists ⟨some (lock_at_10 3000 11), [], []⟩ [107] 10 (lock_at_10 3000 11)
        15 20 false false true true =
      .ok (.Uncommitted (lock_at_10 3000 21) true, ⟨some (lock_at_10 3000 21), [], []⟩) ∧
    PrimaryStep [107] 10 ⟨some (lock_at_10 3000 21), [], []⟩ ⟨some (lock_at_10 5000 21), [], []⟩ ∧
    (∀ l₂, (⟨some (lock_at_10 5000 21), [], []⟩ : KeyState).lock = some l₂ →
      ∃ l₁, (⟨some (lock_at_10 3000 21), [], []⟩ : KeyState).lock = some l₁ ∧
        l₁.ttl ≤ l₂.ttl ∧ l₁.min_commit_ts ≤ l₂.min_commit_ts) ∧
    (Commands.Commit.mk 10 15).process_write ⟨some (lock_at_10 5000 21), [], []⟩ =
      .error (.Mvcc (.CommitTsExpired 10 15 21)) := by
  have hpush : check_txn_status_lock_exists ⟨some (lock_at_10 3000 11), [], []⟩ [107] 10
      (lock_at_10 3000 11) 15 20 false false true true =
      .ok (.Uncommitted (lock_at_10 3000 21) true, ⟨some (lock_at_10 3000 21), [], []⟩) := by
    decide
  have hwf : WritesWf ([] : List (Nat × Write)) :=
    ⟨List.Pairwise.nil, fun _ h => (by cases h), fun _ h => (by cases h)⟩
  have hbeat : PrimaryStep [107] 10 ⟨some (lock_at_10 3000 21), [], []⟩
      ⟨some (lock_at_10 5000 21), [], []⟩ :=
    PrimaryStep.txn_heart_beat ⟨[107], 10, 5000⟩ rfl rfl
  have h := @pushed_min_commit_ts_respected [107] 10 20 15 ⟨some (lock_at_10 3000 11), [], []⟩
    ⟨some (lock_at_10 3000 21), [], []⟩ ⟨some (lock_at_10 3000 21), [], []⟩
    ⟨some (lock_at_10 5000 21), [], []⟩ (lock_at_10 3000 11) (lock_at_10 3000 21)
    false false true true hwf (by decide) rfl rfl rfl (by decide) rfl (by decide) hpush .refl
    (.single hbeat)
  exact ⟨hpush, hbeat, h.1, h.2.2 (lock_at_10 5000 21) 15 rfl (by decide)⟩

/-- After the push past 20 and a commit at 25, a commit at 15 is still answered Ok; and a resent
prewrite that skips the constraint check puts back a lock with min_commit_ts 0, over which a
commit at 15 writes a Put record at 15. -/
theorem commit_below_pushed_caller_answers_ok :
    check_txn_status_lock_exists
        ⟨some ⟨.Put, [107], 10, 3000, some [118], 0, 11, false, [], .Unknown⟩, [], []⟩ [107] 10
        ⟨.Put, [107], 10, 3000, some [118], 0, 11, false, [], .Unknown⟩ 15 20 false false true true =
      .ok (.Uncommitted ⟨.Put, [107], 10, 3000, some [118], 0, 21, false, [], .Unknown⟩ true,
        ⟨some ⟨.Put, [107], 10, 3000, some [118], 0, 21, false, [], .Unknown⟩, [], []⟩) ∧
    (Commands.Commit.mk 10 25).process_write
        ⟨some ⟨.Put, [107], 10, 3000, some [118], 0, 21, false, [], .Unknown⟩, [], []⟩ =
      .ok (.Committed 25, ⟨none, [(25, ⟨.Put, 10, some [118], false, none, .Unknown⟩)], []⟩) ∧
    (Commands.Commit.mk 10 15).process_write
        ⟨none, [(25, ⟨.Put, 10, some [118], false, none, .Unknown⟩)], []⟩ =
      .ok (.Committed 15, ⟨none, [(25, ⟨.Put, 10, some [118], false, none, .Unknown⟩)], []⟩) ∧
    prewrite ⟨none, [(25, ⟨.Put, 10, some [118], false, none, .Unknown⟩)], []⟩
        ⟨[107], 10, true, 3000, 0⟩ (.Put [118]) false 0 =
      .ok (⟨some ⟨.Put, [107], 10, 3000, some [118], 0, 0, false, [], .Unknown⟩,
        [(25, ⟨.Put, 10, some [118], false, none, .Unknown⟩)], []⟩, 0) ∧
    (Commands.Commit.mk 10 15).process_write
        ⟨some ⟨.Put, [107], 10, 3000, some [118], 0, 0, false, [], .Unknown⟩,
          [(25, ⟨.Put, 10, some [118], false, none, .Unknown⟩)], []⟩ =
      .ok (.Committed 15, ⟨none, [(25, ⟨.Put, 10, some [118], false, none, .Unknown⟩),
        (15, ⟨.Put, 10, some [118], false, none, .Unknown⟩)], []⟩) := by
  -- the commit record at 25 is found at once by the scan from max
  have hrec : MvccReader.get_txn_commit_record
      [(25, ⟨.Put, 10, some [118], false, none, .Unknown⟩)] 10 =
        .SingleRecord 25 ⟨.Put, 10, some [118], false, none, .Unknown⟩ := by
    rw [MvccReader.get_txn_commit_record, MvccReader.get_txn_commit_record_loop]
    decide
  refine ⟨by decide, by decide, ?_, by decide, by decide⟩
  simp only [Commands.Commit.process_write, commit, handle_lock_not_found, hrec]
  decide

end Tikv.Txn
