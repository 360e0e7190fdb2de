import Tikv.Txn.Runs

/-!
A snapshot read of one key and the transactions that write it, interleaved under a timestamp
oracle. \x60PointGetter::get_entry\x60 (point_getter.rs) checks the key's lock before it reads the
write records: at snapshot isolation \x60check_ts_conflict\x60 (lock.rs) lets a read at \x60ts\x60 pass a
lock only when its commit cannot put a new value at or below \x60ts\x60 (a lock above the read, a
Lock or pessimistic lock, a \x60min_commit_ts\x60 above the read) or when the reader bypasses it.

The transactions follow the client's discipline, with the TSO as a counter: a start_ts and a
commit_ts are fresh timestamps; a transaction prewrites only before it asks for its commit_ts
and commits once, at that commit_ts. Under it a read is repeatable: once a point read at \x60ts\x60
succeeds, the value the records give at \x60ts\x60 stays what it returned, whatever prewrites,
commits and GC at or below \x60ts\x60 follow, and every later read at \x60ts\x60 that succeeds returns it.
The argument: a transaction that can still commit at or below \x60ts\x60 got its commit_ts before
the read, so its lock was on the key when the read passed it, and a lock the read passes is
one whose commit writes no value at or below \x60ts\x60.
-/

namespace Tikv.Txn

open Tikv.Mvcc
open Tikv.Concurrency (TimeStamp.max)

inductive IsolationLevel
  | Si
  | Rc
  | RcCheckTs
  deriving DecidableEq, Repr

/-- The errors of the read path; \x60Failed\x60 is an error or a failed assert of the write-record
read (DefaultNotFound, a panic). -/
inductive ReadError
  | KeyIsLocked (lock : Lock)
  | WriteConflict (start_ts conflict_start_ts conflict_commit_ts : Nat)
  | Failed
  deriving DecidableEq, Repr

def check_ts_conflict_si (lock : Lock) (raw_key : List UInt8) (ts : Nat) (bypass_locks : List Nat)
    (is_replica_read : Bool) : Except ReadError Unit :=
  if ts < lock.ts ∨ lock.lock_type = .Lock ∨ lock.is_pessimistic_lock = true then .ok ()
  else if ts < lock.min_commit_ts then .ok ()
  else if lock.ts ∈ bypass_locks then .ok ()
  else if ts = TimeStamp.max ∧ is_replica_read = true then .error (.KeyIsLocked lock)
  -- a max-ts read of a primary key reads its latest committed version
  else if ts = TimeStamp.max ∧ raw_key = lock.primary ∧ lock.use_async_commit = false then .ok ()
  else .error (.KeyIsLocked lock)

def check_ts_conflict_rc_check_ts (lock : Lock) (ts : Nat) (bypass_locks : List Nat) :
    Except ReadError Unit :=
  if lock.lock_type = .Lock ∨ lock.is_pessimistic_lock = true then .ok ()
  else if lock.ts ∈ bypass_locks then .ok ()
  else .error (.WriteConflict ts lock.ts 0)

def check_ts_conflict (lock : Lock) (raw_key : List UInt8) (ts : Nat) (bypass_locks : List Nat) :
    IsolationLevel → Except ReadError Unit
  | .Si => check_ts_conflict_si lock raw_key ts bypass_locks false
  | .RcCheckTs => check_ts_conflict_rc_check_ts lock ts bypass_locks
  | .Rc => .ok ()

def need_check_locks : IsolationLevel → Bool
  | .Si | .RcCheckTs => true
  | .Rc => false

namespace PointGetter

def load_and_check_lock (s : KeyState) (user_key : List UInt8) (ts : Nat)
    (isolation_level : IsolationLevel) (bypass_locks access_locks : List Nat)
    (extract_access_lock : Bool) : Except ReadError (Option Lock) :=
  match s.lock with
  | none => .ok none
  | some lock =>
    match check_ts_conflict lock user_key ts bypass_locks isolation_level with
    | .ok () => .ok none
    | .error e =>
      if extract_access_lock = true ∧ lock.ts ∈ access_locks then .ok (some lock) else .error e

/-- The value a lock read through carries; a Lock or pessimistic lock never conflicts, so it is
never read through (\x60unreachable!\x60). -/
def load_data_from_lock (s : KeyState) (lock : Lock) : Except ReadError (Option (List UInt8)) :=
  match lock.lock_type with
  | .Put =>
    match lock.short_value with
    | some value => .ok (some value)
    | none =>
      match List.lookup lock.ts s.defaults with
      | some value => .ok (some value)
      | none => .error .Failed
  | .Delete => .ok none
  | .Lock | .Pessimistic => .error .Failed

def read_data (s : KeyState) (ts : Nat) : Except ReadError (Option (List UInt8)) :=
  match PointGetter.load_data s.writes s.defaults ts with
  | some value => .ok value
  | none => .error .Failed

def get_entry (s : KeyState) (user_key : List UInt8) (ts : Nat)
    (isolation_level : IsolationLevel) (bypass_locks access_locks : List Nat)
    (load_commit_ts : Bool) : Except ReadError (Option (List UInt8)) :=
  if need_check_locks isolation_level then
    match load_and_check_lock s user_key ts isolation_level bypass_locks access_locks
        (!load_commit_ts) with
    | .error e => .error e
    | .ok (some lock) => load_data_from_lock s lock
    | .ok none => read_data s ts
  else read_data s ts

end PointGetter

inductive TxnPhase
  | Active
  | Committing (commit_ts : Nat)
  | Done
  deriving DecidableEq, Repr

structure World where
  key : KeyState
  tso : Nat
  txns : List (Nat × TxnPhase)
  deriving DecidableEq, Repr

def World.init : World := ⟨KeyState.empty, 0, []⟩

inductive ClientStep
  | Begin
  | Prewrite (txn_props : TransactionProperties) (mutation : Mutation)
  | GetCommitTs (start_ts : Nat)
  | Commit (start_ts : Nat)
  | Gc (safe_point : Nat)
  deriving DecidableEq, Repr

section World

variable (key : List UInt8) (last_change_enabled : Bool) (scan_nexts : Nat)

def World.step (w : World) : ClientStep → Option World
  | .Begin =>
    if w.tso + 1 < TimeStamp.max then
      some { w with tso := w.tso + 1, txns := (w.tso + 1, .Active) :: w.txns }
    else none
  | .Prewrite txn_props mutation =>
    if w.txns.lookup txn_props.start_ts = some .Active ∧
        txn_props.skip_constraint_check = false then
      some { w with key := w.key.apply key last_change_enabled scan_nexts
                             (.Prewrite txn_props mutation) }
    else none
  | .GetCommitTs start_ts =>
    if w.txns.lookup start_ts = some .Active ∧ w.tso + 1 < TimeStamp.max then
      some { w with tso := w.tso + 1,
                    txns := Tikv.Lib.AssocList.insert start_ts (.Committing (w.tso + 1)) w.txns }
    else none
  | .Commit start_ts =>
    match w.txns.lookup start_ts with
    | some (.Committing commit_ts) =>
      some { w with key := w.key.apply key last_change_enabled scan_nexts
                             (.Commit start_ts commit_ts),
                    txns := Tikv.Lib.AssocList.insert start_ts .Done w.txns }
    | _ => none
  | .Gc safe_point =>
    some { w with key := w.key.apply key last_change_enabled scan_nexts (.Gc safe_point) }

def World.run (w : World) : List ClientStep → Option World
  | [] => some w
  | st :: steps =>
    match w.step key last_change_enabled scan_nexts st with
    | some w' => w'.run steps
    | none => none

end World

def Passable (ts : Nat) (lock : Lock) : Prop :=
  lock.lock_type = .Lock ∨ lock.lock_type = .Pessimistic ∨ ts < lock.min_commit_ts

section Read

variable {s : KeyState} {user_key : List UInt8} {ts : Nat}

theorem check_ts_conflict_si_ok {lock : Lock} (hts : ts < TimeStamp.max)
    (h : check_ts_conflict_si lock user_key ts [] false = .ok ()) :
    ts < lock.ts ∨ Passable ts lock := by
  unfold check_ts_conflict_si at h
  by_cases h1 : ts < lock.ts ∨ lock.lock_type = .Lock ∨ lock.is_pessimistic_lock = true
  · rcases h1 with h1 | h1 | h1
    · exact Or.inl h1
    · exact Or.inr (Or.inl h1)
    · exact Or.inr (Or.inr (Or.inl (by simpa [Lock.is_pessimistic_lock] using h1)))
  · by_cases h2 : ts < lock.min_commit_ts
    · exact Or.inr (Or.inr (Or.inr h2))
    · rw [if_neg h1, if_neg h2, if_neg List.not_mem_nil, if_neg (fun h => Bool.false_ne_true h.2),
        if_neg (fun h => hts.ne h.1)] at h
      cases h

theorem get_entry_si_ok {bypass_locks : List Nat} {v : Option (List UInt8)}
    (h : PointGetter.get_entry s user_key ts .Si bypass_locks [] false = .ok v) :
    PointGetter.read_data s ts = .ok v ∧
      ∀ lock, s.lock = some lock → check_ts_conflict_si lock user_key ts bypass_locks false = .ok () := by
  unfold PointGetter.get_entry PointGetter.load_and_check_lock at h
  simp only [need_check_locks, if_true] at h
  cases hl : s.lock with
  | none =>
    rw [hl] at h
    exact ⟨h, fun lock hl' => by cases hl'⟩
  | some lock =>
    rw [hl] at h
    cases hc : check_ts_conflict_si lock user_key ts bypass_locks false with
    | error e =>
      simp only [check_ts_conflict, hc, List.not_mem_nil, and_false, if_false] at h
      cases h
    | ok u =>
      simp only [check_ts_conflict, hc] at h
      exact ⟨h, fun lock' hl' => by cases hl'; exact hc⟩

theorem read_data_eq (hs : KeyInv s) :
    PointGetter.read_data s ts = .ok (reference_value s.writes s.defaults ts) := by
  rw [PointGetter.read_data, show PointGetter.load_data s.writes s.defaults ts =
    some (reference_value s.writes s.defaults ts) from
      point_get_eq_reference ⟨s.writes, hs.writes.desc⟩ hs.writes.sound (hs.writes.fences_clear ts)
        hs.present]

end Read

section Reference

variable {writes writes' : List (Nat × Write)} {defaults defaults' : Defaults} {ts : Nat}

theorem mem_of_reference_read {w : Write} (h : reference_read writes ts = some w) :
    ∃ p ∈ writes, p.2 = w := by
  unfold reference_read at h
  cases hfind : writes.find? (fun p => decide (p.1 ≤ ts) && p.2.write_type.changes_value) with
  | none =>
    rw [hfind] at h
    cases h
  | some p =>
    rw [hfind] at h
    obtain ⟨c, write⟩ := p
    dsimp only at h
    split at h
    · exact ⟨(c, write), List.mem_of_find?_eq_some hfind, Option.some.inj h⟩
    · cases h

theorem reference_read_cons {c : Nat} {w : Write} (h : ts < c ∨ w.write_type.changes_value = false) :
    reference_read ((c, w) :: writes) ts = reference_read writes ts := by
  have hskip : (decide (c ≤ ts) && w.write_type.changes_value) = false := by
    rcases h with h | h <;> simp [h]
  unfold reference_read
  simp only [List.find?_cons, hskip]

theorem reference_value_congr (hread : reference_read writes' ts = reference_read writes ts)
    (hdef : ∀ w, reference_read writes ts = some w →
      List.lookup w.start_ts defaults' = List.lookup w.start_ts defaults) :
    reference_value writes' defaults' ts = reference_value writes defaults ts := by
  unfold reference_value
  rw [hread]
  cases hr : reference_read writes ts with
  | none => rfl
  | some w => cases hsv : w.short_value <;> simp [load_data, hsv, hdef w hr]

end Reference

section Steps

variable {s s' : KeyState} {key : List UInt8} {last_change_enabled : Bool} {scan_nexts : Nat}

theorem write_lock_lookup {txn_props : TransactionProperties} {mutation : Mutation}
    {lc : LastChange} {t : Nat} (ht : t ≠ txn_props.start_ts) :
    List.lookup t (write_lock s txn_props mutation lc last_change_enabled).defaults =
      List.lookup t s.defaults := by
  cases mutation with
  | Put value =>
    by_cases hshort : is_short_value value = true
    · simp [write_lock, hshort, Mutation.value]
    · simp [write_lock, hshort, Mutation.value, Tikv.Lib.AssocList.lookup_insert, ht]
  | Delete => simp [write_lock, Mutation.value]
  | Lock => simp [write_lock, Mutation.value]

theorem apply_prewrite_cases (hs : KeyInv s) {txn_props : TransactionProperties}
    {mutation : Mutation} (hskip : txn_props.skip_constraint_check = false) :
    s.apply key last_change_enabled scan_nexts (.Prewrite txn_props mutation) = s ∨
      (s.lock = none ∧ (∀ p ∈ s.writes, p.1 ≤ txn_props.start_ts) ∧
        ∃ lc, s.apply key last_change_enabled scan_nexts (.Prewrite txn_props mutation) =
          write_lock s txn_props mutation lc last_change_enabled) := by
  simp only [KeyState.apply]
  split
  · rename_i s' m hok
    unfold Tikv.Txn.prewrite at hok
    cases hl : s.lock with
    | some lock =>
      rw [hl] at hok
      cases hc : check_lock lock txn_props with
      | error e => simp [hc, bind, Except.bind] at hok
      | ok m =>
        simp only [hc, bind, Except.bind, Except.ok.injEq, Prod.mk.injEq] at hok
        exact Or.inl hok.1.symm
    | none =>
      rw [hl] at hok
      simp only [hskip, Bool.false_eq_true, if_false] at hok
      cases hc : check_for_newer_version s.writes txn_props scan_nexts with
      | error e => simp [hc, bind, Except.bind] at hok
      | ok lc =>
        simp only [hc, bind, Except.bind, Except.ok.injEq, Prod.mk.injEq] at hok
        exact Or.inr ⟨rfl, (check_for_newer_version_sound hs.writes hc).1, lc, hok.1.symm⟩
  · exact Or.inl rfl

theorem min_commit_ts_le_of_commit {start_ts commit_ts : Nat} {lock : Lock}
    (hok : commit s start_ts commit_ts = .ok s') (hl : s.lock = some lock) (hts : lock.ts = start_ts) :
    lock.min_commit_ts ≤ commit_ts := by
  unfold commit at hok
  rw [hl] at hok
  simp only [hts, ne_eq, not_true_eq_false, if_false] at hok
  by_contra hlt
  rw [if_pos (Nat.lt_of_not_le hlt)] at hok
  cases hok

end Steps

section KeySteps

variable {s : KeyState} {key : List UInt8} {last_change_enabled : Bool} {scan_nexts : Nat}
variable {ts : Nat}

theorem reference_value_apply_prewrite (hs : KeyInv s) {txn_props : TransactionProperties}
    {mutation : Mutation} (hskip : txn_props.skip_constraint_check = false) :
    let s' := s.apply key last_change_enabled scan_nexts (.Prewrite txn_props mutation)
    reference_value s'.writes s'.defaults ts = reference_value s.writes s.defaults ts := by
  intro s'
  rcases @apply_prewrite_cases s key last_change_enabled scan_nexts hs txn_props mutation hskip with
    h | ⟨-, habove, lc, h⟩
  · simp only [s', h]
  · simp only [s', h]
    obtain ⟨hw, -⟩ := write_lock_spec s txn_props mutation lc last_change_enabled
    refine reference_value_congr (by rw [hw]) fun w hr => ?_
    obtain ⟨p, hp, rfl⟩ := mem_of_reference_read hr
    have hstart := (hs.writes.bounded p hp).1
    have hle := habove p hp
    exact write_lock_lookup (by omega)

theorem reference_value_apply_commit (hs : KeyInv s) {start_ts commit_ts : Nat}
    (hlt : start_ts < commit_ts)
    (hpass : commit_ts ≤ ts → ∀ lock, s.lock = some lock → lock.ts = start_ts → Passable ts lock) :
    let s' := s.apply key last_change_enabled scan_nexts (.Commit start_ts commit_ts)
    reference_value s'.writes s'.defaults ts = reference_value s.writes s.defaults ts := by
  intro s'
  simp only [s', KeyState.apply]
  split
  · rename_i s'' hok
    rcases commit_cases hok with rfl | rfl | ⟨lock, w, hl, hts, hwt, -, -, -, -, rfl⟩
    · rfl
    · rfl
    · have hbelow : ∀ p ∈ s.writes, p.1 < commit_ts := fun p hp => by
        have := (hs.lock lock hl).above p hp
        omega
      dsimp only
      rw [put_write_of_below hbelow]
      refine reference_value_congr (reference_read_cons ?_) fun _ _ => rfl
      by_cases hc : ts < commit_ts
      · exact Or.inl hc
      · -- committed at or below the read: the lock was passable, so it commits no value
        right
        rcases hpass (by omega) lock hl hts with hlock | hpess | hmin
        · rw [hlock] at hwt
          simp only [WriteType.from_lock_type, Option.some.injEq] at hwt
          rw [← hwt]
          rfl
        · rw [hpess] at hwt
          cases hwt
        · have := min_commit_ts_le_of_commit hok hl hts
          omega
  · rfl

theorem reference_value_apply_gc (hs : KeyInv s) {sp : Nat} (hsp : sp ≤ ts) :
    let s' := s.apply key last_change_enabled scan_nexts (.Gc sp)
    reference_value s'.writes s'.defaults ts = reference_value s.writes s.defaults ts := by
  intro s'
  obtain ⟨completed, D, hD, hgc⟩ := hs.gc_deleted key sp
  have hread : reference_read (apply_writes key (D.flatMap (deletes key)) s.writes) ts =
      reference_read s.writes ts := reads_of_deleted (v := ⟨s.writes, hs.writes.desc⟩) hD hsp
  rw [apply_writes_deleted ⟨s.writes, hs.writes.desc⟩ hD.sub] at hread
  simp only [s', KeyState.apply, hgc, Option.getD_some]
  refine reference_value_congr hread fun w hr => ?_
  obtain ⟨q, hq, rfl⟩ := mem_of_reference_read (hread.trans hr)
  obtain ⟨hqw, hqD⟩ := List.mem_filter.mp hq
  refine lookup_apply_defaults fun d hd _ _ hst => ?_
  -- a deleted Put with the found record's start_ts would be the record itself
  have hdq := hs.writes.start_inj (hD.sub d hd) hqw hst
  subst hdq
  simp only [decide_not, Bool.not_eq_eq_eq_not, Bool.not_true, decide_eq_false_iff_not] at hqD
  exact hqD hd

theorem apply_commit_lock {start_ts commit_ts : Nat} :
    (s.apply key last_change_enabled scan_nexts (.Commit start_ts commit_ts)).lock = s.lock ∨
      (s.apply key last_change_enabled scan_nexts (.Commit start_ts commit_ts)).lock = none := by
  simp only [KeyState.apply]
  split
  · rename_i s' hok
    rcases commit_cases hok with rfl | rfl | ⟨-, -, -, -, -, -, -, -, -, rfl⟩
    · exact Or.inl rfl
    · exact Or.inr rfl
    · exact Or.inr rfl
  · exact Or.inl rfl

theorem apply_gc_lock {sp : Nat} :
    (s.apply key last_change_enabled scan_nexts (.Gc sp)).lock = s.lock := by
  simp only [KeyState.apply, KeyState.gc]
  cases Tikv.Mvcc.gc ⟨[], 0⟩ key s.writes sp <;> rfl

end KeySteps

section WorldSteps

open Tikv.Lib.AssocList (lookup_cons_eq lookup_insert)

variable {key : List UInt8} {last_change_enabled : Bool} {scan_nexts : Nat} {w w' : World}

theorem World.step_begin (h : w.step key last_change_enabled scan_nexts .Begin = some w') :
    w.tso + 1 < TimeStamp.max ∧
      w' = { w with tso := w.tso + 1, txns := (w.tso + 1, .Active) :: w.txns } := by
  simp only [World.step] at h
  split at h
  · exact ⟨‹_›, (Option.some.inj h).symm⟩
  · cases h

theorem World.step_prewrite {txn_props : TransactionProperties} {mutation : Mutation}
    (h : w.step key last_change_enabled scan_nexts (.Prewrite txn_props mutation) = some w') :
    w.txns.lookup txn_props.start_ts = some .Active ∧ txn_props.skip_constraint_check = false ∧
      w' = { w with key := w.key.apply key last_change_enabled scan_nexts
                             (.Prewrite txn_props mutation) } := by
  simp only [World.step] at h
  split at h
  · rename_i hguard
    exact ⟨hguard.1, hguard.2, (Option.some.inj h).symm⟩
  · cases h

theorem World.step_get_commit_ts {start_ts : Nat}
    (h : w.step key last_change_enabled scan_nexts (.GetCommitTs start_ts) = some w') :
    w.txns.lookup start_ts = some .Active ∧ w.tso + 1 < TimeStamp.max ∧
      w' = { w with tso := w.tso + 1,
                    txns := Tikv.Lib.AssocList.insert start_ts (.Committing (w.tso + 1)) w.txns } := by
  simp only [World.step] at h
  split at h
  · rename_i hguard
    exact ⟨hguard.1, hguard.2, (Option.some.inj h).symm⟩
  · cases h

theorem World.step_commit {start_ts : Nat}
    (h : w.step key last_change_enabled scan_nexts (.Commit start_ts) = some w') :
    ∃ commit_ts, w.txns.lookup start_ts = some (.Committing commit_ts) ∧
      w' = { w with key := w.key.apply key last_change_enabled scan_nexts
                             (.Commit start_ts commit_ts),
                    txns := Tikv.Lib.AssocList.insert start_ts .Done w.txns } := by
  simp only [World.step] at h
  split at h
  · rename_i commit_ts hc
    exact ⟨commit_ts, hc, (Option.some.inj h).symm⟩
  · cases h

theorem World.step_gc {sp : Nat} (h : w.step key last_change_enabled scan_nexts (.Gc sp) = some w') :
    w' = { w with key := w.key.apply key last_change_enabled scan_nexts (.Gc sp) } :=
  (Option.some.inj h).symm

theorem World.step_tso_le {st : ClientStep} (h : w.step key last_change_enabled scan_nexts st = some w') :
    w.tso ≤ w'.tso := by
  cases st with
  | Begin =>
    obtain ⟨-, rfl⟩ := World.step_begin h
    exact Nat.le_succ _
  | Prewrite txn_props mutation =>
    obtain ⟨-, -, rfl⟩ := World.step_prewrite h
    exact Nat.le_refl _
  | GetCommitTs start_ts =>
    obtain ⟨-, -, rfl⟩ := World.step_get_commit_ts h
    exact Nat.le_succ _
  | Commit start_ts =>
    obtain ⟨-, -, rfl⟩ := World.step_commit h
    exact Nat.le_refl _
  | Gc sp =>
    rw [World.step_gc h]

/-- What every reachable world keeps: the key's invariant, a TSO below the max timestamp, and
every transaction begun before the TSO's last timestamp, committing above its start_ts. -/
structure World.Inv (w : World) : Prop where
  key : KeyInv w.key
  tso_lt : w.tso < TimeStamp.max
  started : ∀ s st, w.txns.lookup s = some st → s ≤ w.tso
  committing : ∀ s c, w.txns.lookup s = some (.Committing c) → s < c ∧ c ≤ w.tso

theorem World.Inv.init : World.init.Inv :=
  ⟨KeyInv.empty, by decide, (fun _ _ h => by simp [World.init] at h),
    (fun _ _ h => by simp [World.init] at h)⟩

theorem World.Inv.step (hw : w.Inv) {st : ClientStep}
    (h : w.step key last_change_enabled scan_nexts st = some w') : w'.Inv := by
  cases st with
  | Begin =>
    obtain ⟨hlt, rfl⟩ := World.step_begin h
    refine ⟨hw.key, hlt, fun s st hs => ?_, fun s c hs => ?_⟩
    · rw [lookup_cons_eq] at hs
      split at hs
      · dsimp only
        omega
      · have := hw.started s st hs
        dsimp only
        omega
    · rw [lookup_cons_eq] at hs
      split at hs
      · cases hs
      · have := hw.committing s c hs
        dsimp only
        omega
  | Prewrite txn_props mutation =>
    obtain ⟨-, hskip, rfl⟩ := World.step_prewrite h
    exact ⟨hw.key.apply key last_change_enabled scan_nexts
      (show (Command.Prewrite txn_props mutation).WellTimed from hskip), hw.tso_lt, hw.started,
      hw.committing⟩
  | GetCommitTs start_ts =>
    obtain ⟨hact, hlt, rfl⟩ := World.step_get_commit_ts h
    have hstart := hw.started start_ts _ hact
    refine ⟨hw.key, hlt, fun s st hs => ?_, fun s c hs => ?_⟩
    · rw [lookup_insert] at hs
      split at hs
      · dsimp only
        omega
      · have := hw.started s st hs
        dsimp only
        omega
    · -- the new commit_ts is the TSO's next timestamp, above the start_ts
      rw [lookup_insert] at hs
      split at hs
      · rename_i heq
        cases hs
        dsimp only
        omega
      · have := hw.committing s c hs
        dsimp only
        omega
  | Commit start_ts =>
    obtain ⟨commit_ts, hc, rfl⟩ := World.step_commit h
    obtain ⟨hlt, hle⟩ := hw.committing start_ts commit_ts hc
    have hmax := hw.tso_lt
    refine ⟨hw.key.apply key last_change_enabled scan_nexts
      (show (Command.Commit start_ts commit_ts).WellTimed from ⟨hlt, by omega⟩), hw.tso_lt,
      fun s st hs => ?_, fun s c hs => ?_⟩
    · rw [lookup_insert] at hs
      split at hs
      · rename_i heq
        exact heq ▸ hw.started start_ts _ hc
      · exact hw.started s st hs
    · rw [lookup_insert] at hs
      split at hs
      · cases hs
      · exact hw.committing s c hs
  | Gc sp =>
    rw [World.step_gc h]
    exact ⟨hw.key.apply key last_change_enabled scan_nexts
      (show (Command.Gc sp).WellTimed from trivial), hw.tso_lt, hw.started, hw.committing⟩

theorem World.Inv.run (hw : w.Inv) {steps : List ClientStep}
    (h : w.run key last_change_enabled scan_nexts steps = some w') : w'.Inv := by
  induction steps generalizing w with
  | nil =>
    cases h
    exact hw
  | cons st steps ih =>
    unfold World.run at h
    split at h
    · rename_i w'' hst
      exact ih (hw.step hst) h
    · cases h

end WorldSteps

section Repeatable

open Tikv.Lib.AssocList (lookup_cons_eq lookup_insert)

variable {key : List UInt8} {last_change_enabled : Bool} {scan_nexts : Nat} {w w' : World}
variable {ts : Nat} {v : Option (List UInt8)}

/-- What holds from a snapshot read at \x60ts\x60 on: the value the records give at \x60ts\x60 is the
one it returned, and a transaction that may still commit at or below \x60ts\x60 has, if its lock is
on the key, a passable one. -/
structure ReadStable (ts : Nat) (v : Option (List UInt8)) (w : World) : Prop where
  inv : w.Inv
  ts_le : ts ≤ w.tso
  value : reference_value w.key.writes w.key.defaults ts = v
  passable : ∀ s c, w.txns.lookup s = some (.Committing c) → c ≤ ts →
    ∀ lock, w.key.lock = some lock → lock.ts = s → Passable ts lock

theorem ReadStable.of_read (hw : w.Inv) (hts : ts ≤ w.tso)
    (h : PointGetter.get_entry w.key key ts .Si [] [] false = .ok v) : ReadStable ts v w := by
  obtain ⟨hdata, hcheck⟩ := get_entry_si_ok h
  rw [read_data_eq hw.key, Except.ok.injEq] at hdata
  refine ⟨hw, hts, hdata, fun s c hc hcts lock hl hls => ?_⟩
  have hsc := (hw.committing s c hc).1
  have hmax := hw.tso_lt
  rcases check_ts_conflict_si_ok (by omega) (hcheck lock hl) with habove | hpass
  · omega
  · exact hpass

theorem ReadStable.step (h : ReadStable ts v w) {st : ClientStep}
    (hst : w.step key last_change_enabled scan_nexts st = some w')
    (hgc : ∀ sp, st = .Gc sp → sp ≤ ts) : ReadStable ts v w' := by
  have hinv := h.inv.step hst
  have hts := h.ts_le.trans (World.step_tso_le hst)
  cases st with
  | Begin =>
    obtain ⟨-, rfl⟩ := World.step_begin hst
    refine ⟨hinv, hts, h.value, fun s c hc hcts lock hl hls => ?_⟩
    rw [lookup_cons_eq] at hc
    split at hc
    · cases hc
    · exact h.passable s c hc hcts lock hl hls
  | Prewrite txn_props mutation =>
    obtain ⟨hact, hskip, rfl⟩ := World.step_prewrite hst
    refine ⟨hinv, hts, (@reference_value_apply_prewrite w.key key last_change_enabled scan_nexts ts
      h.inv.key txn_props mutation hskip).trans h.value, fun s c hc hcts lock hl hls => ?_⟩
    -- the lock is the one before, or the new lock of a transaction that is not committing
    rcases @apply_prewrite_cases w.key key last_change_enabled scan_nexts h.inv.key txn_props
      mutation hskip with hkey | ⟨-, -, lc, hkey⟩
    · dsimp only at hl
      rw [hkey] at hl
      exact h.passable s c hc hcts lock hl hls
    · obtain ⟨-, -, lock', hlock', hts', -⟩ := write_lock_spec w.key txn_props mutation lc
        last_change_enabled
      dsimp only at hl
      rw [hkey, hlock'] at hl
      cases hl
      rw [hts'] at hls
      rw [← hls, hact] at hc
      cases hc
  | GetCommitTs start_ts =>
    obtain ⟨-, -, rfl⟩ := World.step_get_commit_ts hst
    refine ⟨hinv, hts, h.value, fun s c hc hcts lock hl hls => ?_⟩
    rw [lookup_insert] at hc
    split at hc
    · -- the new commit_ts is above every timestamp handed out, the read's included
      cases hc
      have := h.ts_le
      omega
    · exact h.passable s c hc hcts lock hl hls
  | Commit start_ts =>
    obtain ⟨commit_ts, hc0, rfl⟩ := World.step_commit hst
    refine ⟨hinv, hts, (@reference_value_apply_commit w.key key last_change_enabled scan_nexts ts
      h.inv.key start_ts commit_ts (h.inv.committing _ _ hc0).1
      (h.passable start_ts commit_ts hc0)).trans h.value, fun s c hc hcts lock hl hls => ?_⟩
    rw [lookup_insert] at hc
    split at hc
    · cases hc
    · dsimp only at hl
      rcases @apply_commit_lock w.key key last_change_enabled scan_nexts start_ts commit_ts with
        hlock | hlock
      · rw [hlock] at hl
        exact h.passable s c hc hcts lock hl hls
      · rw [hlock] at hl
        cases hl
  | Gc sp =>
    rw [World.step_gc hst]
    refine ⟨World.step_gc hst ▸ hinv, World.step_gc hst ▸ hts,
      (@reference_value_apply_gc w.key key last_change_enabled scan_nexts ts h.inv.key sp
        (hgc sp rfl)).trans h.value,
      fun s c hc hcts lock hl hls => ?_⟩
    dsimp only at hl
    rw [apply_gc_lock] at hl
    exact h.passable s c hc hcts lock hl hls

theorem ReadStable.run (h : ReadStable ts v w) {steps : List ClientStep}
    (hrun : w.run key last_change_enabled scan_nexts steps = some w')
    (hgc : ∀ sp, ClientStep.Gc sp ∈ steps → sp ≤ ts) : ReadStable ts v w' := by
  induction steps generalizing w with
  | nil =>
    cases hrun
    exact h
  | cons st steps ih =>
    unfold World.run at hrun
    split at hrun
    · rename_i w'' hst
      refine ih (h.step hst fun sp hsp => hgc sp (hsp ▸ List.mem_cons_self)) hrun
        fun sp hsp => hgc sp (List.mem_cons_of_mem _ hsp)
    · cases hrun

theorem ReadStable.read (h : ReadStable ts v w) {bypass_locks : List Nat}
    {v' : Option (List UInt8)}
    (hr : PointGetter.get_entry w.key key ts .Si bypass_locks [] false = .ok v') : v' = v := by
  obtain ⟨hdata, -⟩ := get_entry_si_ok hr
  rw [read_data_eq h.inv.key, Except.ok.injEq] at hdata
  rw [← hdata, h.value]

/-- Snapshot reads are repeatable. In a world the clients reach, a point read at a timestamp the
TSO handed out, bypassing and reading through no lock, that succeeds fixes the value: after any
further steps whose GC stays at or below the read, the records still give that value at its
timestamp, and a read there that succeeds returns it. -/
theorem point_get_repeatable {steps₁ steps₂ : List ClientStep} {w₁ w₂ : World}
    (h₁ : World.init.run key last_change_enabled scan_nexts steps₁ = some w₁)
    (h₂ : w₁.run key last_change_enabled scan_nexts steps₂ = some w₂) {ts : Nat}
    (hts : ts ≤ w₁.tso) (hgc : ∀ sp, ClientStep.Gc sp ∈ steps₂ → sp ≤ ts) {v : Option (List UInt8)}
    (hread : PointGetter.get_entry w₁.key key ts .Si [] [] false = .ok v) :
    reference_value w₂.key.writes w₂.key.defaults ts = v ∧
      ∀ bypass_locks v', PointGetter.get_entry w₂.key key ts .Si bypass_locks [] false = .ok v' →
        v' = v := by
  have hstable := (ReadStable.of_read (World.Inv.init.run h₁) hts hread).run h₂ hgc
  exact ⟨hstable.value, fun _ _ hr => hstable.read hr⟩

def committed_then_two_begin : List ClientStep :=
  [.Begin, .Prewrite ⟨[107], 1, false, 3000, 0⟩ (.Put [118]), .GetCommitTs 1, .Commit 1, .Begin,
    .Begin]

/-- The transaction that began at 3, below the read at 4, writes after it; its commit_ts is 5, so
the read at 4 still sees the Put at 2, through a GC at 4. -/
theorem point_get_repeatable_past_older_writer :
    World.init.run [107] true 0 committed_then_two_begin =
      some ⟨⟨none, [(2, ⟨.Put, 1, some [118], false, none, .Unknown⟩)], []⟩, 4,
        [(4, .Active), (3, .Active), (1, .Done)]⟩ ∧
    (⟨⟨none, [(2, ⟨.Put, 1, some [118], false, none, .Unknown⟩)], []⟩, 4,
        [(4, .Active), (3, .Active), (1, .Done)]⟩ : World).run [107] true 0
      [.Prewrite ⟨[107], 3, false, 3000, 0⟩ (.Put [119]), .GetCommitTs 3, .Commit 3, .Gc 4] =
      some ⟨⟨none, [(5, ⟨.Put, 3, some [119], false, none, .Unknown⟩),
          (2, ⟨.Put, 1, some [118], false, none, .Unknown⟩)], []⟩, 5,
        [(4, .Active), (3, .Done), (1, .Done)]⟩ ∧
    4 ≤ 4 ∧
    (∀ sp, ClientStep.Gc sp ∈
      [.Prewrite ⟨[107], 3, false, 3000, 0⟩ (.Put [119]), .GetCommitTs 3, .Commit 3, .Gc 4] →
        sp ≤ 4) ∧
    PointGetter.get_entry ⟨none, [(2, ⟨.Put, 1, some [118], false, none, .Unknown⟩)], []⟩ [107] 4
      .Si [] [] false = .ok (some [118]) ∧
    (reference_value [(5, ⟨.Put, 3, some [119], false, none, .Unknown⟩),
        (2, ⟨.Put, 1, some [118], false, none, .Unknown⟩)] [] 4 = some [118] ∧
      ∀ bypass_locks v', PointGetter.get_entry ⟨none, [(5, ⟨.Put, 3, some [119], false, none,
        .Unknown⟩), (2, ⟨.Put, 1, some [118], false, none, .Unknown⟩)], []⟩ [107] 4 .Si
          bypass_locks [] false = .ok v' → v' = some [118]) :=
  have h₁ : World.init.run [107] true 0 committed_then_two_begin =
      some ⟨⟨none, [(2, ⟨.Put, 1, some [118], false, none, .Unknown⟩)], []⟩, 4,
        [(4, .Active), (3, .Active), (1, .Done)]⟩ := by decide
  -- GC's loop is well-founded recursion, which only the kernel unfolds
  have h₂ : (⟨⟨none, [(2, ⟨.Put, 1, some [118], false, none, .Unknown⟩)], []⟩, 4,
        [(4, .Active), (3, .Active), (1, .Done)]⟩ : World).run [107] true 0
      [.Prewrite ⟨[107], 3, false, 3000, 0⟩ (.Put [119]), .GetCommitTs 3, .Commit 3, .Gc 4] =
      some ⟨⟨none, [(5, ⟨.Put, 3, some [119], false, none, .Unknown⟩),
          (2, ⟨.Put, 1, some [118], false, none, .Unknown⟩)], []⟩, 5,
        [(4, .Active), (3, .Done), (1, .Done)]⟩ := by decide +kernel
  have hgc : ∀ sp, ClientStep.Gc sp ∈
      [.Prewrite ⟨[107], 3, false, 3000, 0⟩ (.Put [119]), .GetCommitTs 3, .Commit 3, .Gc 4] →
        sp ≤ 4 := fun sp hsp => by simp at hsp; omega
  have hread : PointGetter.get_entry ⟨none, [(2, ⟨.Put, 1, some [118], false, none, .Unknown⟩)],
      []⟩ [107] 4 .Si [] [] false = .ok (some [118]) := by decide
  ⟨h₁, h₂, le_rfl, hgc, hread, point_get_repeatable h₁ h₂ le_rfl hgc hread⟩

/-- Before its commit the older writer's lock stops the same read: it is at 3, below the read,
with a min_commit_ts of 0. -/
example : PointGetter.get_entry ⟨some (Lock.new .Put [107] 3 3000 (some [119]) 0 0), [(2,
    ⟨.Put, 1, some [118], false, none, .Unknown⟩)], []⟩ [107] 4 .Si [] [] false =
      .error (.KeyIsLocked (Lock.new .Put [107] 3 3000 (some [119]) 0 0)) := by decide

end Repeatable

end Tikv.Txn
