import Tikv.Lib.AssocList
import Mathlib

/-!
The queues of pessimistic lock requests that wait for a key
(src/src/storage/lock_manager/lock_waiting_queue.rs). Each key with waiters has a priority queue
ordered by start_ts, the smallest first; `pop_for_waking_up` wakes its front, with the shared-lock
waiters right behind a shared one, and may schedule a delayed `delayed_notify_all` that later
finishes the legacy waiters still queued with a write conflict. A key whose queue becomes empty
leaves the map, which makes a pending delayed notification's id stale.

Every call runs atomically on its key, inside the map's entry or `remove_if_mut`, so it is one
step here. The queue is a list in pop order; the heap does not fix an order among entries of one
start_ts, and the model puts a new entry before those of its start_ts. The lock info a key keeps
for error messages, the delay's timing, the callbacks' other errors and the metrics are left
out.
-/

namespace Tikv.LockManager

open Tikv.Lib.AssocList (keys insert erase)

structure LockWaitToken where
  token : Option Nat
  deriving DecidableEq, Repr

structure PessimisticLockParameters where
  primary : List UInt8
  start_ts : Nat
  allow_lock_with_conflict : Bool
  deriving DecidableEq, Repr

structure LockWaitEntry where
  key : List UInt8
  parameters : PessimisticLockParameters
  is_shared_lock : Bool
  lock_wait_token : LockWaitToken
  legacy_wake_up_index : Option Nat
  deriving DecidableEq, Repr

def LockWaitEntry.Before (a b : LockWaitEntry) : Prop := a.parameters.start_ts ≤ b.parameters.start_ts

instance : DecidableRel LockWaitEntry.Before := fun a b =>
  inferInstanceAs (Decidable (a.parameters.start_ts ≤ b.parameters.start_ts))

instance : Std.Total LockWaitEntry.Before := ⟨fun _ _ => Nat.le_total _ _⟩

instance : IsTrans LockWaitEntry LockWaitEntry.Before := ⟨fun _ _ _ => Nat.le_trans⟩

structure KeyLockWaitState where
  legacy_wake_up_index : Nat
  queue : List LockWaitEntry
  last_conflict_start_ts : Nat
  last_conflict_commit_ts : Nat
  delayed_notify_all_state : Option Nat
  deriving DecidableEq, Repr

def KeyLockWaitState.new : KeyLockWaitState := ⟨0, [], 0, 0, none⟩

structure LockWaitQueues where
  queue_map : List (List UInt8 × KeyLockWaitState)
  id_allocated : Nat
  entries_count : Nat
  deriving DecidableEq, Repr

def LockWaitQueues.new : LockWaitQueues := ⟨[], 1, 0⟩

def queue_push (queue : List LockWaitEntry) (entry : LockWaitEntry) : List LockWaitEntry :=
  (queue.filter fun e => e.lock_wait_token ≠ entry.lock_wait_token).orderedInsert
    LockWaitEntry.Before entry

structure WriteConflict where
  start_ts : Nat
  conflict_start_ts : Nat
  conflict_commit_ts : Nat
  key : List UInt8
  primary : List UInt8
  deriving DecidableEq, Repr

namespace LockWaitQueues

def put_back (qs : LockWaitQueues) (key : List UInt8) (v : KeyLockWaitState) :
    List (List UInt8 × KeyLockWaitState) :=
  if v.queue.isEmpty then erase key qs.queue_map else insert key v qs.queue_map

def push_lock_wait (qs : LockWaitQueues) (lock_wait_entry : LockWaitEntry) (is_canceled : Bool) :
    LockWaitQueues :=
  if is_canceled then qs
  else
    let key_state := (qs.queue_map.lookup lock_wait_entry.key).getD KeyLockWaitState.new
    let lock_wait_entry := match lock_wait_entry.legacy_wake_up_index with
      | none => { lock_wait_entry with legacy_wake_up_index := some key_state.legacy_wake_up_index }
      | some _ => lock_wait_entry
    let key_state := { key_state with queue := queue_push key_state.queue lock_wait_entry }
    { qs with
      queue_map := insert lock_wait_entry.key key_state qs.queue_map
      entries_count := qs.entries_count + 1 }

def handle_delayed_wake_up (qs : LockWaitQueues) (v : KeyLockWaitState) :
    LockWaitQueues × KeyLockWaitState × Option Nat :=
  match v.delayed_notify_all_state with
  | some _ => (qs, v, none)
  | none =>
    let notify_id := qs.id_allocated
    ({ qs with id_allocated := qs.id_allocated + 1 },
      { v with delayed_notify_all_state := some notify_id }, some notify_id)

def schedule_delayed_wake_up (qs : LockWaitQueues) (v : KeyLockWaitState)
    (schedule_delayed_wake_up : Bool) (wake_up_delay_duration_ms : Option Nat) :
    LockWaitQueues × KeyLockWaitState × Option Nat :=
  if schedule_delayed_wake_up then
    match wake_up_delay_duration_ms with
    | some _ => if v.queue.isEmpty then (qs, v, none) else qs.handle_delayed_wake_up v
    | none => (qs, v, none)
  else (qs, v, none)

def pop_for_waking_up_impl (qs : LockWaitQueues) (key : List UInt8)
    (conflicting_start_ts conflicting_commit_ts : Nat) (wake_up_delay_duration_ms : Option Nat) :
    LockWaitQueues × List LockWaitEntry × Option Nat :=
  match qs.queue_map.lookup key with
  | none => (qs, [], none)
  | some v =>
    let v := { v with
      last_conflict_start_ts := conflicting_start_ts
      last_conflict_commit_ts := conflicting_commit_ts }
    match v.queue with
    | [] => ({ qs with queue_map := qs.put_back key v }, [], none)
    | lock_wait_entry :: rest =>
      -- behind a shared-lock waiter, the shared-lock waiters that follow it are woken too
      let (group, queue) :=
        if lock_wait_entry.is_shared_lock then rest.span (·.is_shared_lock) else ([], rest)
      let group_entries := lock_wait_entry :: group
      let legacy := group_entries.countP fun e => !e.parameters.allow_lock_with_conflict
      let v := { v with queue, legacy_wake_up_index := v.legacy_wake_up_index + legacy }
      let (qs, v, popped_future) :=
        qs.schedule_delayed_wake_up v (decide (0 < legacy)) wake_up_delay_duration_ms
      ({ qs with
          queue_map := qs.put_back key v
          entries_count := qs.entries_count - group_entries.length },
        group_entries, popped_future)

def pop_for_waking_up (qs : LockWaitQueues) (key : List UInt8)
    (conflicting_start_ts conflicting_commit_ts wake_up_delay_duration_ms : Nat) :
    LockWaitQueues × List LockWaitEntry × Option Nat :=
  qs.pop_for_waking_up_impl key conflicting_start_ts conflicting_commit_ts
    (some wake_up_delay_duration_ms)

def notify_all_loop (legacy_wake_up_index : Nat) :
    List LockWaitEntry → List LockWaitEntry × Option LockWaitEntry × List LockWaitEntry
  | [] => ([], none, [])
  | front :: rest =>
    if front.legacy_wake_up_index.any (· ≥ legacy_wake_up_index) then ([], none, front :: rest)
    else if front.parameters.allow_lock_with_conflict then ([], some front, rest)
    else
      let (popped, resumable, queue) := notify_all_loop legacy_wake_up_index rest
      (front :: popped, resumable, queue)

def delayed_notify_all (qs : LockWaitQueues) (key : List UInt8) (notify_id : Nat) :
    LockWaitQueues × List (LockWaitEntry × WriteConflict) × Option LockWaitEntry :=
  match qs.queue_map.lookup key with
  | none => (qs, [], none)
  | some v =>
    if v.delayed_notify_all_state ≠ some notify_id then (qs, [], none)
    else
      let (popped, resumable, queue) := notify_all_loop v.legacy_wake_up_index v.queue
      let v := { v with delayed_notify_all_state := none, queue }
      let removed_waiters := popped.length + resumable.toList.length
      let errors := popped.map fun e =>
        (e, ⟨e.parameters.start_ts, v.last_conflict_start_ts, v.last_conflict_commit_ts, e.key,
          e.parameters.primary⟩)
      ({ qs with
          queue_map := qs.put_back key v
          entries_count := qs.entries_count - removed_waiters },
        errors, resumable)

def remove_by_token (qs : LockWaitQueues) (key : List UInt8) (lock_wait_token : LockWaitToken) :
    LockWaitQueues × Option LockWaitEntry :=
  match qs.queue_map.lookup key with
  | none => (qs, none)
  | some v =>
    match v.queue.find? (·.lock_wait_token = lock_wait_token) with
    | some res =>
      let v := { v with queue := v.queue.filter (·.lock_wait_token ≠ lock_wait_token) }
      ({ qs with queue_map := qs.put_back key v, entries_count := qs.entries_count - 1 }, some res)
    | none => ({ qs with queue_map := qs.put_back key v }, none)

def entry_count (qs : LockWaitQueues) : Nat := qs.entries_count

end LockWaitQueues

/-! ### The queues' bookkeeping -/

def tokens (queue : List LockWaitEntry) : List LockWaitToken := queue.map (·.lock_wait_token)

def LockWaitQueues.queued (qs : LockWaitQueues) : List LockWaitToken :=
  qs.queue_map.flatMap fun p => tokens p.2.queue

def LockWaitQueues.queue_of (qs : LockWaitQueues) (key : List UInt8) : List LockWaitEntry :=
  ((qs.queue_map.lookup key).map (·.queue)).getD []

/-- Each key has a non-empty queue in pop order, no token is queued twice, and the counter counts
the entries. -/
structure QueuesInv (qs : LockWaitQueues) : Prop where
  keys_nodup : (keys qs.queue_map).Nodup
  nonempty : ∀ p ∈ qs.queue_map, p.2.queue ≠ []
  sorted : ∀ p ∈ qs.queue_map, p.2.queue.Pairwise LockWaitEntry.Before
  nodup : qs.queued.Nodup
  count : qs.entries_count = qs.queued.length

namespace LockWaitQueues

open Tikv.Lib.AssocList (nodup_insert nodup_filter mem_insert flatMap_perm_of_mem
  flatMap_insert_perm erase_of_not_mem_keys lookup_eq_none_iff_not_mem_keys mem_of_lookup
  lookup_eq_lookup_decEq)

variable {qs qs' : LockWaitQueues} {key : List UInt8} {v : KeyLockWaitState}

theorem queued_perm (hi : QueuesInv qs) (key : List UInt8) :
    qs.queued.Perm (tokens (qs.queue_of key) ++
      (erase key qs.queue_map).flatMap fun p => tokens p.2.queue) := by
  unfold queued queue_of
  rw [lookup_eq_lookup_decEq]
  cases hl : @List.lookup _ _ instBEqOfDecidableEq key qs.queue_map with
  | none =>
    rw [erase_of_not_mem_keys (lookup_eq_none_iff_not_mem_keys.mp hl)]
    rfl
  | some v => exact flatMap_perm_of_mem hi.keys_nodup (mem_of_lookup hl) _

theorem queued_put_back (hi : QueuesInv qs) (key : List UInt8) (v : KeyLockWaitState) :
    ((qs.put_back key v).flatMap fun p => tokens p.2.queue).Perm (tokens v.queue ++
      (erase key qs.queue_map).flatMap fun p => tokens p.2.queue) := by
  unfold put_back
  split
  case isTrue hempty =>
    rw [List.isEmpty_iff.mp hempty]
    rfl
  case isFalse => exact flatMap_insert_perm hi.keys_nodup key v _

theorem handle_delayed_wake_up_fields (qs : LockWaitQueues) (v : KeyLockWaitState) :
    (qs.handle_delayed_wake_up v).1.queue_map = qs.queue_map ∧
      (qs.handle_delayed_wake_up v).1.entries_count = qs.entries_count ∧
      (qs.handle_delayed_wake_up v).2.1.queue = v.queue := by
  unfold handle_delayed_wake_up
  split <;> exact ⟨rfl, rfl, rfl⟩

theorem schedule_delayed_wake_up_fields (qs : LockWaitQueues) (v : KeyLockWaitState) (b : Bool)
    (delay : Option Nat) :
    (qs.schedule_delayed_wake_up v b delay).1.queue_map = qs.queue_map ∧
      (qs.schedule_delayed_wake_up v b delay).1.entries_count = qs.entries_count ∧
      (qs.schedule_delayed_wake_up v b delay).2.1.queue = v.queue := by
  unfold schedule_delayed_wake_up
  split
  · split
    · split
      · exact ⟨rfl, rfl, rfl⟩
      · exact handle_delayed_wake_up_fields qs v
    · exact ⟨rfl, rfl, rfl⟩
  · exact ⟨rfl, rfl, rfl⟩

theorem put_back_congr {qs₁ qs₂ : LockWaitQueues} (h : qs₁.queue_map = qs₂.queue_map)
    (key : List UInt8) (v : KeyLockWaitState) : qs₁.put_back key v = qs₂.put_back key v := by
  unfold put_back
  rw [h]

theorem pop_for_waking_up_impl_of_queue {e : LockWaitEntry} {rest : List LockWaitEntry}
    (hl : qs.queue_map.lookup key = some v) (hv : v.queue = e :: rest) (cs cc : Nat)
    (delay : Option Nat) :
    let r := qs.pop_for_waking_up_impl key cs cc delay
    ∃ group queue v', rest = group ++ queue ∧
      group = (if e.is_shared_lock then rest.takeWhile (·.is_shared_lock) else []) ∧
      v'.queue = queue ∧ r.1.queue_map = qs.put_back key v' ∧
      r.1.entries_count = qs.entries_count - (group.length + 1) ∧ r.2.1 = e :: group := by
  intro r
  simp only [r, pop_for_waking_up_impl, hl, hv]
  generalize hsp : (if e.is_shared_lock then rest.span (·.is_shared_lock) else ([], rest)) = sp
  have hrest : rest = sp.1 ++ sp.2 := by
    rw [← hsp]
    split <;> simp [List.span_eq_takeWhile_dropWhile]
  have hgroup : sp.1 = if e.is_shared_lock then rest.takeWhile (·.is_shared_lock) else [] := by
    rw [← hsp]
    split <;> simp [List.span_eq_takeWhile_dropWhile]
  refine ⟨sp.1, sp.2, _, hrest, hgroup, ?_,
    put_back_congr (schedule_delayed_wake_up_fields _ _ _ _).1 _ _, ?_, rfl⟩
  · exact (schedule_delayed_wake_up_fields _ _ _ _).2.2
  · rw [(schedule_delayed_wake_up_fields _ _ _ _).2.1, List.length_cons]

theorem pop_for_waking_up_impl_of_none (hl : qs.queue_map.lookup key = none) (cs cc : Nat)
    (delay : Option Nat) : qs.pop_for_waking_up_impl key cs cc delay = (qs, [], none) := by
  simp only [pop_for_waking_up_impl, hl]

theorem notify_all_loop_spec (L : Nat) (q : List LockWaitEntry) :
    let r := notify_all_loop L q
    q = r.1 ++ r.2.1.toList ++ r.2.2 ∧
      (∀ e ∈ r.1 ++ r.2.1.toList, ∀ idx, e.legacy_wake_up_index = some idx → idx < L) ∧
      (∀ e ∈ r.1, e.parameters.allow_lock_with_conflict = false) ∧
      (∀ e ∈ r.2.1, e.parameters.allow_lock_with_conflict = true) ∧
      (r.2.1 = none → ∀ f ∈ r.2.2.head?, ∃ idx, f.legacy_wake_up_index = some idx ∧ L ≤ idx) := by
  induction q with
  | nil => simp [notify_all_loop]
  | cons front rest ih =>
    simp only [notify_all_loop]
    split
    case isTrue hstop =>
      obtain ⟨idx, hidx, hle⟩ := (Option.any_eq_true _ _).mp hstop
      refine ⟨rfl, by simp, by simp, by simp, fun _ f hf => ?_⟩
      obtain rfl := Option.some.inj hf
      exact ⟨idx, hidx, of_decide_eq_true hle⟩
    case isFalse hgo =>
      have hfront : ∀ idx, front.legacy_wake_up_index = some idx → idx < L := by
        intro idx hidx
        simp [hidx] at hgo
        omega
      split
      case isTrue hallow =>
        refine ⟨rfl, ?_, by simp, ?_, by simp⟩
        · simpa using hfront
        · simpa using hallow
      case isFalse hlegacy =>
        obtain ⟨hq, hidx, hpopped, hres, hstop⟩ := ih
        refine ⟨congrArg (List.cons front) hq, ?_, ?_, hres, hstop⟩
        · intro e he
          rcases List.mem_cons.mp he with rfl | he
          · exact hfront
          · exact hidx e he
        · intro e he
          rcases List.mem_cons.mp he with rfl | he
          · simpa using hlegacy
          · exact hpopped e he

theorem queue_of_of_lookup (hl : qs.queue_map.lookup key = some v) : qs.queue_of key = v.queue := by
  simp [queue_of, hl]

theorem mem_of_lookup_some (hl : qs.queue_map.lookup key = some v) : (key, v) ∈ qs.queue_map := by
  rw [lookup_eq_lookup_decEq] at hl
  exact mem_of_lookup hl

theorem queue_of_of_lookup_none (hl : qs.queue_map.lookup key = none) : qs.queue_of key = [] := by
  simp [queue_of, hl]

theorem push_lock_wait_of_not_canceled (e : LockWaitEntry) :
    let legacy := ((qs.queue_map.lookup e.key).getD KeyLockWaitState.new).legacy_wake_up_index
    let e' := { e with legacy_wake_up_index := some (e.legacy_wake_up_index.getD legacy) }
    ∃ v' : KeyLockWaitState, v'.queue = queue_push (qs.queue_of e.key) e' ∧
      (qs.push_lock_wait e false).queue_map = qs.put_back e.key v' ∧
      (qs.push_lock_wait e false).entries_count = qs.entries_count + 1 := by
  intro legacy e'
  have hqueue : ((qs.queue_map.lookup e.key).getD KeyLockWaitState.new).queue = qs.queue_of e.key := by
    unfold queue_of
    cases qs.queue_map.lookup e.key <;> rfl
  -- the pushed entry is never the last of its queue, so the map keeps the key
  have hput : ∀ (v' : KeyLockWaitState), v'.queue = queue_push (qs.queue_of e.key) e' →
      qs.put_back e.key v' = insert e.key v' qs.queue_map := by
    intro v' hv'
    have hne : v'.queue ≠ [] := by
      rw [hv', queue_push]
      exact List.ne_nil_of_length_pos (by simp [List.orderedInsert_length])
    simp [put_back, hne]
  obtain ⟨k, params, shared, token, leg⟩ := e
  unfold push_lock_wait
  cases leg with
  | none =>
    refine ⟨_, ?_, (hput _ ?_).symm, rfl⟩ <;> simp only [hqueue] <;> rfl
  | some idx =>
    refine ⟨_, ?_, (hput _ ?_).symm, rfl⟩ <;> simp only [hqueue] <;> rfl

theorem delayed_notify_all_of_ne {notify_id : Nat}
    (h : (qs.queue_map.lookup key).bind (·.delayed_notify_all_state) ≠ some notify_id) :
    qs.delayed_notify_all key notify_id = (qs, [], none) := by
  cases hl : qs.queue_map.lookup key with
  | none => simp only [delayed_notify_all, hl]
  | some v =>
    rw [hl, Option.bind_some] at h
    simp only [delayed_notify_all, hl, if_pos h]

theorem delayed_notify_all_of_eq {notify_id : Nat} {popped queue : List LockWaitEntry}
    {resumable : Option LockWaitEntry} (hl : qs.queue_map.lookup key = some v)
    (hid : v.delayed_notify_all_state = some notify_id)
    (hloop : notify_all_loop v.legacy_wake_up_index v.queue = (popped, resumable, queue)) :
    let r := qs.delayed_notify_all key notify_id
    r.2.1.map (·.1) = popped ∧ r.2.2 = resumable ∧
      (∀ p ∈ r.2.1, p.2 = ⟨p.1.parameters.start_ts, v.last_conflict_start_ts,
        v.last_conflict_commit_ts, p.1.key, p.1.parameters.primary⟩) ∧
      (∃ v' : KeyLockWaitState, v'.queue = queue ∧ r.1.queue_map = qs.put_back key v') ∧
      r.1.entries_count = qs.entries_count - (popped.length + resumable.toList.length) := by
  intro r
  simp only [r, delayed_notify_all, hl, hid, hloop, ne_eq, not_true_eq_false, if_false]
  refine ⟨by simp [Function.comp_def], trivial, ?_, ⟨_, rfl, rfl⟩, trivial⟩
  intro p hp
  obtain ⟨e, -, rfl⟩ := List.mem_map.mp hp
  rfl

theorem remove_by_token_of_none (hl : qs.queue_map.lookup key = none) (token : LockWaitToken) :
    qs.remove_by_token key token = (qs, none) := by
  simp only [remove_by_token, hl]

theorem remove_by_token_of_lookup (hl : qs.queue_map.lookup key = some v)
    (token : LockWaitToken) :
    let r := qs.remove_by_token key token
    r.2 = v.queue.find? (·.lock_wait_token = token) ∧
      (∃ v' : KeyLockWaitState, v'.queue = v.queue.filter (·.lock_wait_token ≠ token) ∧
        r.1.queue_map = qs.put_back key v') ∧
      r.1.entries_count = qs.entries_count - r.2.toList.length := by
  intro r
  simp only [r, remove_by_token, hl]
  split
  case h_1 res hres => exact ⟨hres.symm, ⟨_, rfl, rfl⟩, rfl⟩
  case h_2 hnone =>
    refine ⟨hnone.symm, ⟨v, ?_, rfl⟩, rfl⟩
    -- no entry has the token, so the filter keeps the queue
    refine (List.filter_eq_self.mpr fun e he => ?_).symm
    simpa using List.find?_eq_none.mp hnone e he

theorem delayed_notify_all_spec {notify_id : Nat} (hl : qs.queue_map.lookup key = some v)
    (hid : v.delayed_notify_all_state = some notify_id) :
    let r := qs.delayed_notify_all key notify_id
    ∃ rest, v.queue = r.2.1.map (·.1) ++ r.2.2.toList ++ rest ∧
      (∀ e ∈ r.2.1.map (·.1) ++ r.2.2.toList,
        ∀ idx, e.legacy_wake_up_index = some idx → idx < v.legacy_wake_up_index) ∧
      (∀ p ∈ r.2.1, p.1.parameters.allow_lock_with_conflict = false ∧
        p.2 = ⟨p.1.parameters.start_ts, v.last_conflict_start_ts, v.last_conflict_commit_ts,
          p.1.key, p.1.parameters.primary⟩) ∧
      (∀ e ∈ r.2.2, e.parameters.allow_lock_with_conflict = true) ∧
      (r.2.2 = none → ∀ f ∈ rest.head?,
        ∃ idx, f.legacy_wake_up_index = some idx ∧ v.legacy_wake_up_index ≤ idx) := by
  intro r
  rcases hloop : notify_all_loop v.legacy_wake_up_index v.queue with ⟨popped, resumable, queue⟩
  have hspec := notify_all_loop_spec v.legacy_wake_up_index v.queue
  rw [hloop] at hspec
  obtain ⟨hsplit, hidx, hlegacy, hresumable, hstop⟩ := hspec
  obtain ⟨hpopped, hres, herrors, -⟩ := delayed_notify_all_of_eq hl hid hloop
  refine ⟨queue, ?_, ?_, fun p hp => ⟨?_, herrors p hp⟩, ?_, ?_⟩
  · rw [hpopped, hres]
    exact hsplit
  · rw [hpopped, hres]
    exact hidx
  · exact hlegacy p.1 (hpopped ▸ List.mem_map_of_mem hp)
  · rw [hres]
    exact hresumable
  · rw [hres]
    exact hstop

end LockWaitQueues

theorem tokens_filter_perm {q : List LockWaitEntry} {t : LockWaitToken} {res : LockWaitEntry}
    (hnd : (tokens q).Nodup) (hres : q.find? (·.lock_wait_token = t) = some res) :
    (tokens q).Perm (tokens [res] ++ tokens (q.filter (·.lock_wait_token ≠ t))) := by
  have hmem : res ∈ q := List.mem_of_find?_eq_some hres
  have ht : res.lock_wait_token = t := by simpa using List.find?_some hres
  have hfilter : tokens (q.filter (·.lock_wait_token ≠ t)) = (tokens q).erase t := by
    rw [hnd.erase_eq_filter, tokens, tokens, List.filter_map]
    congr 1
    exact List.filter_congr fun x _ => by simp [bne, beq_eq_decide]
  rw [hfilter, ← ht]
  exact List.perm_cons_erase (List.mem_map_of_mem hmem)

namespace QueuesInv

open LockWaitQueues
open Tikv.Lib.AssocList (nodup_insert nodup_filter mem_insert mem_of_lookup lookup_eq_lookup_decEq)

variable {qs qs' : LockWaitQueues} {key : List UInt8} {v : KeyLockWaitState}

theorem new : QueuesInv LockWaitQueues.new where
  keys_nodup := List.nodup_nil
  nonempty := by simp [LockWaitQueues.new]
  sorted := by simp [LockWaitQueues.new]
  nodup := List.nodup_nil
  count := rfl

theorem queue_of_sorted (hi : QueuesInv qs) (key : List UInt8) :
    (qs.queue_of key).Pairwise LockWaitEntry.Before := by
  unfold queue_of
  rw [lookup_eq_lookup_decEq]
  cases hl : @List.lookup _ _ instBEqOfDecidableEq key qs.queue_map with
  | none => exact List.Pairwise.nil
  | some v => exact hi.sorted _ (mem_of_lookup hl)

theorem queue_of_nodup (hi : QueuesInv qs) (key : List UInt8) : (tokens (qs.queue_of key)).Nodup :=
  ((queued_perm hi key).nodup_iff.mp hi.nodup).of_append_left

theorem queue_of_length_le (hi : QueuesInv qs) (key : List UInt8) :
    (qs.queue_of key).length ≤ qs.entries_count := by
  have hlen := (queued_perm hi key).length_eq
  rw [hi.count, hlen, List.length_append, tokens, List.length_map]
  omega

theorem queued_put_back_perm (hi : QueuesInv qs) (hmap : qs'.queue_map = qs.put_back key v)
    {X Y : List LockWaitToken} (hq : (X ++ tokens (qs.queue_of key)).Perm (Y ++ tokens v.queue)) :
    (X ++ qs.queued).Perm (Y ++ qs'.queued) := by
  have hold := queued_perm hi key
  have hnew := queued_put_back hi key v
  rw [← hmap] at hnew
  calc List.Perm (X ++ qs.queued) (X ++ (tokens (qs.queue_of key) ++
          (erase key qs.queue_map).flatMap fun p => tokens p.2.queue)) := hold.append_left X
    _ = (X ++ tokens (qs.queue_of key)) ++
          (erase key qs.queue_map).flatMap (fun p => tokens p.2.queue) := (List.append_assoc ..).symm
    List.Perm _ ((Y ++ tokens v.queue) ++
          (erase key qs.queue_map).flatMap (fun p => tokens p.2.queue)) := hq.append_right _
    _ = Y ++ (tokens v.queue ++
          (erase key qs.queue_map).flatMap fun p => tokens p.2.queue) := List.append_assoc ..
    List.Perm _ (Y ++ qs'.queued) := hnew.symm.append_left Y

theorem put_back (hi : QueuesInv qs) (hs : v.queue.Pairwise LockWaitEntry.Before)
    (hmap : qs'.queue_map = qs.put_back key v) {X Y : List LockWaitToken}
    (hq : (X ++ tokens (qs.queue_of key)).Perm (Y ++ tokens v.queue)) (hX : (X ++ qs.queued).Nodup)
    (hcount : qs'.entries_count + Y.length = qs.entries_count + X.length) :
    QueuesInv qs' ∧ (X ++ qs.queued).Perm (Y ++ qs'.queued) := by
  have hperm := queued_put_back_perm hi hmap hq
  refine ⟨⟨?_, fun p hp => ?_, fun p hp => ?_, ?_, ?_⟩, hperm⟩
  · rw [hmap, LockWaitQueues.put_back]
    split
    · exact nodup_filter hi.keys_nodup
    · exact nodup_insert hi.keys_nodup
  · rw [hmap, LockWaitQueues.put_back] at hp
    split at hp
    case isTrue => exact hi.nonempty p (List.mem_filter.mp hp).1
    case isFalse hne =>
      rcases mem_insert hp with rfl | hp
      · exact fun h => hne (List.isEmpty_iff.mpr h)
      · exact hi.nonempty p hp
  · rw [hmap, LockWaitQueues.put_back] at hp
    split at hp
    · exact hi.sorted p (List.mem_filter.mp hp).1
    · rcases mem_insert hp with rfl | hp
      · exact hs
      · exact hi.sorted p hp
  · exact (hperm.nodup_iff.mp hX).of_append_right
  · have hlen := hperm.length_eq
    have hc := hi.count
    rw [List.length_append, List.length_append] at hlen
    omega

theorem take (hi : QueuesInv qs) {removed : List LockWaitEntry}
    (hsub : v.queue.Sublist (qs.queue_of key))
    (hq : (tokens (qs.queue_of key)).Perm (tokens removed ++ tokens v.queue))
    (hmap : qs'.queue_map = qs.put_back key v)
    (hcount : qs'.entries_count = qs.entries_count - removed.length) :
    QueuesInv qs' ∧ qs.queued.Perm (tokens removed ++ qs'.queued) := by
  have hlen : removed.length ≤ qs.entries_count := by
    have hq_len := hq.length_eq
    have hle := hi.queue_of_length_le key
    simp only [tokens, List.length_append, List.length_map] at hq_len
    omega
  have hq' : ([] ++ tokens (qs.queue_of key)).Perm (tokens removed ++ tokens v.queue) := hq
  refine hi.put_back ((hi.queue_of_sorted key).sublist hsub) hmap hq' hi.nodup ?_
  rw [hcount, tokens, List.length_map, List.length_nil]
  omega

theorem take_front (hi : QueuesInv qs) {removed : List LockWaitEntry}
    (hold : qs.queue_of key = removed ++ v.queue) (hmap : qs'.queue_map = qs.put_back key v)
    (hcount : qs'.entries_count = qs.entries_count - removed.length) :
    QueuesInv qs' ∧ qs.queued.Perm (tokens removed ++ qs'.queued) := by
  refine hi.take (hold ▸ List.sublist_append_right _ _) ?_ hmap hcount
  rw [hold, tokens, tokens, tokens, List.map_append]

theorem push_lock_wait (hi : QueuesInv qs) (e : LockWaitEntry)
    (hfresh : e.lock_wait_token ∉ qs.queued) :
    QueuesInv (qs.push_lock_wait e false) ∧
      (e.lock_wait_token :: qs.queued).Perm (qs.push_lock_wait e false).queued := by
  obtain ⟨v', hv', hmap, hcount⟩ := @push_lock_wait_of_not_canceled qs e
  -- the token is queued nowhere, so the push replaces no entry
  have hkeep : (qs.queue_of e.key).filter (fun x => x.lock_wait_token ≠ e.lock_wait_token) =
      qs.queue_of e.key := by
    refine List.filter_eq_self.mpr fun x hx => ?_
    have hmem : x.lock_wait_token ∈ qs.queued :=
      (queued_perm hi e.key).symm.subset (List.mem_append_left _ (List.mem_map_of_mem hx))
    simpa using fun h : x.lock_wait_token = e.lock_wait_token => hfresh (h ▸ hmem)
  have hq : ([e.lock_wait_token] ++ tokens (qs.queue_of e.key)).Perm ([] ++ tokens v'.queue) := by
    rw [hv', queue_push, hkeep]
    apply List.Perm.symm
    exact (List.perm_orderedInsert _ _ _).map _
  have hs : v'.queue.Pairwise LockWaitEntry.Before := by
    rw [hv', queue_push]
    exact ((hi.queue_of_sorted _).filter _).orderedInsert _ _
  exact hi.put_back hs hmap hq (List.nodup_cons.mpr ⟨hfresh, hi.nodup⟩) (by rw [hcount]; rfl)

theorem pop_for_waking_up_impl (hi : QueuesInv qs) (key : List UInt8) (cs cc : Nat)
    (delay : Option Nat) :
    let r := qs.pop_for_waking_up_impl key cs cc delay
    QueuesInv r.1 ∧ qs.queued.Perm (tokens r.2.1 ++ r.1.queued) := by
  intro r
  cases hl : qs.queue_map.lookup key with
  | none =>
    simp only [r, pop_for_waking_up_impl_of_none hl]
    exact ⟨hi, List.Perm.refl _⟩
  | some v =>
    obtain ⟨e, rest, hv⟩ := List.exists_cons_of_ne_nil (hi.nonempty _ (mem_of_lookup_some hl))
    obtain ⟨group, queue, v', hrest, -, hv', hmap, hcount, hpopped⟩ :=
      pop_for_waking_up_impl_of_queue hl hv cs cc delay
    have hold : qs.queue_of key = (e :: group) ++ v'.queue := by
      rw [queue_of_of_lookup hl, hv, hrest, hv']
      rfl
    have h := hi.take_front hold hmap (by rw [hcount, List.length_cons])
    rw [← hpopped] at h
    exact h

theorem delayed_notify_all (hi : QueuesInv qs) (key : List UInt8) (notify_id : Nat) :
    let r := qs.delayed_notify_all key notify_id
    QueuesInv r.1 ∧ qs.queued.Perm (tokens (r.2.1.map (·.1) ++ r.2.2.toList) ++ r.1.queued) := by
  intro r
  by_cases hid : (qs.queue_map.lookup key).bind (·.delayed_notify_all_state) = some notify_id
  case neg =>
    simp only [r, delayed_notify_all_of_ne hid]
    exact ⟨hi, List.Perm.refl _⟩
  case pos =>
    obtain ⟨v, hl, hid⟩ := Option.bind_eq_some_iff.mp hid
    rcases hloop : notify_all_loop v.legacy_wake_up_index v.queue with ⟨popped, resumable, queue⟩
    have hsplit := (notify_all_loop_spec v.legacy_wake_up_index v.queue).1
    rw [hloop] at hsplit
    obtain ⟨hpopped, hres, -, ⟨v', hv', hmap⟩, hcount⟩ := delayed_notify_all_of_eq hl hid hloop
    have hold : qs.queue_of key = (popped ++ resumable.toList) ++ v'.queue := by
      rw [queue_of_of_lookup hl, hv', hsplit]
    have h := hi.take_front hold hmap (by rw [hcount, List.length_append])
    rw [← hpopped, ← hres] at h
    exact h

theorem remove_by_token (hi : QueuesInv qs) (key : List UInt8) (token : LockWaitToken) :
    let r := qs.remove_by_token key token
    QueuesInv r.1 ∧ qs.queued.Perm (tokens r.2.toList ++ r.1.queued) := by
  intro r
  cases hl : qs.queue_map.lookup key with
  | none =>
    simp only [r, remove_by_token_of_none hl]
    exact ⟨hi, List.Perm.refl _⟩
  | some v =>
    obtain ⟨hres, ⟨v', hv', hmap⟩, hcount⟩ := remove_by_token_of_lookup hl token
    have hsub : v'.queue.Sublist (qs.queue_of key) := by
      rw [hv', queue_of_of_lookup hl]
      exact List.filter_sublist
    refine hi.take hsub ?_ hmap hcount
    rw [hres, hv', queue_of_of_lookup hl]
    cases hfind : v.queue.find? (·.lock_wait_token = token) with
    | none =>
      -- no entry has the token: nothing is taken
      rw [List.filter_eq_self.mpr fun e he => by simpa using List.find?_eq_none.mp hfind e he]
      rfl
    | some res =>
      have hnd := hi.queue_of_nodup key
      rw [queue_of_of_lookup hl] at hnd
      exact tokens_filter_perm hnd hfind

theorem pop_for_waking_up_spec (hi : QueuesInv qs) {e : LockWaitEntry}
    {rest : List LockWaitEntry} (hq : qs.queue_of key = e :: rest) (cs cc delay : Nat) :
    (∀ x ∈ rest, e.parameters.start_ts ≤ x.parameters.start_ts) ∧
      rest.Pairwise LockWaitEntry.Before ∧
      (qs.pop_for_waking_up key cs cc delay).2.1 =
        e :: (if e.is_shared_lock then rest.takeWhile (·.is_shared_lock) else []) := by
  have hs := hi.queue_of_sorted key
  rw [hq, List.pairwise_cons] at hs
  cases hl : qs.queue_map.lookup key with
  | none =>
    rw [queue_of_of_lookup_none hl] at hq
    exact absurd hq.symm (List.cons_ne_nil _ _)
  | some v =>
    rw [queue_of_of_lookup hl] at hq
    obtain ⟨group, -, -, -, hgroup, -, -, -, hpopped⟩ :=
      pop_for_waking_up_impl_of_queue hl hq cs cc (some delay)
    refine ⟨hs.1, hs.2, ?_⟩
    rw [pop_for_waking_up, hpopped, hgroup]

end QueuesInv

/-! ### Runs -/

theorem perm_leave {Q Q' L A : List LockWaitToken} (h : Q.Perm (A ++ Q')) :
    (Q ++ L).Perm (Q' ++ (L ++ A)) := by
  calc List.Perm (Q ++ L) ((A ++ Q') ++ L) := h.append_right L
    _ = A ++ (Q' ++ L) := List.append_assoc ..
    List.Perm _ (Q' ++ (A ++ L)) := List.perm_append_comm_assoc A Q' L
    List.Perm _ (Q' ++ (L ++ A)) := List.perm_append_comm.append_left Q'

structure Run where
  queues : LockWaitQueues
  pushed : List LockWaitToken
  left : List LockWaitToken

namespace Run

/-- One call, atomic on its key. Each entry pushed has a token never pushed before and is not
canceled; a delayed notification may come with any id. -/
inductive Step : Run → Run → Prop
  | push_lock_wait (s : Run) (e : LockWaitEntry) (hfresh : e.lock_wait_token ∉ s.pushed) :
      Step s ⟨s.queues.push_lock_wait e false, s.pushed ++ [e.lock_wait_token], s.left⟩
  | pop_for_waking_up (s : Run) (key : List UInt8) (cs cc delay : Nat) :
      Step s ⟨(s.queues.pop_for_waking_up key cs cc delay).1, s.pushed,
        s.left ++ tokens (s.queues.pop_for_waking_up key cs cc delay).2.1⟩
  | delayed_notify_all (s : Run) (key : List UInt8) (notify_id : Nat) :
      Step s ⟨(s.queues.delayed_notify_all key notify_id).1, s.pushed,
        s.left ++ tokens ((s.queues.delayed_notify_all key notify_id).2.1.map (·.1) ++
          (s.queues.delayed_notify_all key notify_id).2.2.toList)⟩
  | remove_by_token (s : Run) (key : List UInt8) (token : LockWaitToken) :
      Step s ⟨(s.queues.remove_by_token key token).1, s.pushed,
        s.left ++ tokens (s.queues.remove_by_token key token).2.toList⟩

def init : Run := ⟨LockWaitQueues.new, [], []⟩

def Reachable (s : Run) : Prop := Relation.ReflTransGen Step init s

/-- The queues keep their bookkeeping, and every token pushed is once either queued or among
those that left. -/
structure Conserved (s : Run) : Prop where
  queues : QueuesInv s.queues
  pushed_nodup : s.pushed.Nodup
  perm : s.pushed.Perm (s.queues.queued ++ s.left)

theorem Conserved.init : Conserved init := ⟨QueuesInv.new, List.nodup_nil, List.Perm.refl _⟩

theorem Conserved.step {s s' : Run} (h : Conserved s) (hs : Step s s') : Conserved s' := by
  cases hs with
  | push_lock_wait e hfresh =>
    have hnew : e.lock_wait_token ∉ s.queues.queued :=
      fun hq => hfresh (h.perm.symm.subset (List.mem_append_left _ hq))
    obtain ⟨hinv, hperm⟩ := h.queues.push_lock_wait e hnew
    have hsnoc := List.perm_append_singleton e.lock_wait_token s.pushed
    refine ⟨hinv, hsnoc.nodup_iff.mpr (List.nodup_cons.mpr ⟨hfresh, h.pushed_nodup⟩), ?_⟩
    exact hsnoc.trans (((h.perm.cons _).trans (List.Perm.refl _)).trans (hperm.append_right _))
  | pop_for_waking_up key cs cc delay =>
    obtain ⟨hinv, hperm⟩ := h.queues.pop_for_waking_up_impl key cs cc (some delay)
    exact ⟨hinv, h.pushed_nodup, h.perm.trans (perm_leave hperm)⟩
  | delayed_notify_all key notify_id =>
    obtain ⟨hinv, hperm⟩ := h.queues.delayed_notify_all key notify_id
    exact ⟨hinv, h.pushed_nodup, h.perm.trans (perm_leave hperm)⟩
  | remove_by_token key token =>
    obtain ⟨hinv, hperm⟩ := h.queues.remove_by_token key token
    exact ⟨hinv, h.pushed_nodup, h.perm.trans (perm_leave hperm)⟩

theorem conserved_reachable {s : Run} (h : s.Reachable) : Conserved s := by
  induction h with
  | refl => exact Conserved.init
  | tail _ hstep ih => exact ih.step hstep

end Run

open LockWaitQueues

/-- Over every run of pushes of fresh tokens, pops, delayed notifications with any id and removals
by token: the counter counts the queued entries, no key keeps an empty queue, every token pushed
is once either queued or gone through one of the calls' results, a pop wakes the front with the
shared-lock waiters right behind it, and a delayed notification changes nothing unless its id is
the key's, when it takes legacy waiters from the front in start_ts order up to the first resumable
one. -/
theorem lock_wait_queues_bookkeeping {s : Run} (h : s.Reachable) :
    s.queues.entry_count = (s.queues.queue_map.map fun p => p.2.queue.length).sum ∧
      (∀ p ∈ s.queues.queue_map, p.2.queue ≠ []) ∧
      s.pushed.Nodup ∧ s.pushed.Perm (s.queues.queued ++ s.left) ∧
      (∀ key e rest, s.queues.queue_of key = e :: rest → ∀ cs cc delay,
        (∀ x ∈ rest, e.parameters.start_ts ≤ x.parameters.start_ts) ∧
        rest.Pairwise LockWaitEntry.Before ∧
        (s.queues.pop_for_waking_up key cs cc delay).2.1 =
          e :: (if e.is_shared_lock then rest.takeWhile (·.is_shared_lock) else [])) ∧
      (∀ key notify_id,
        (s.queues.queue_map.lookup key).bind (·.delayed_notify_all_state) ≠ some notify_id →
        s.queues.delayed_notify_all key notify_id = (s.queues, [], none)) ∧
      (∀ key notify_id v, s.queues.queue_map.lookup key = some v →
        v.delayed_notify_all_state = some notify_id →
        v.queue.Pairwise LockWaitEntry.Before ∧
        ∃ rest, v.queue = (s.queues.delayed_notify_all key notify_id).2.1.map (·.1) ++
            (s.queues.delayed_notify_all key notify_id).2.2.toList ++ rest ∧
          (∀ e ∈ (s.queues.delayed_notify_all key notify_id).2.1.map (·.1) ++
              (s.queues.delayed_notify_all key notify_id).2.2.toList,
            ∀ idx, e.legacy_wake_up_index = some idx → idx < v.legacy_wake_up_index) ∧
          (∀ p ∈ (s.queues.delayed_notify_all key notify_id).2.1,
            p.1.parameters.allow_lock_with_conflict = false ∧
            p.2 = ⟨p.1.parameters.start_ts, v.last_conflict_start_ts, v.last_conflict_commit_ts,
              p.1.key, p.1.parameters.primary⟩) ∧
          (∀ e ∈ (s.queues.delayed_notify_all key notify_id).2.2,
            e.parameters.allow_lock_with_conflict = true) ∧
          ((s.queues.delayed_notify_all key notify_id).2.2 = none → ∀ f ∈ rest.head?,
            ∃ idx, f.legacy_wake_up_index = some idx ∧ v.legacy_wake_up_index ≤ idx)) := by
  have hc := Run.conserved_reachable h
  have hcount : s.queues.entry_count = (s.queues.queue_map.map fun p => p.2.queue.length).sum := by
    rw [entry_count, hc.queues.count, queued, List.length_flatMap]
    simp [tokens]
  refine ⟨hcount, hc.queues.nonempty, hc.pushed_nodup, hc.perm,
    fun key e rest hq cs cc delay => hc.queues.pop_for_waking_up_spec hq cs cc delay,
    fun key notify_id hid => delayed_notify_all_of_ne hid, fun key notify_id v hl hid => ?_⟩
  exact ⟨hc.queues.sorted _ (mem_of_lookup_some hl), delayed_notify_all_spec hl hid⟩

def waiter (start_ts token : Nat) (is_shared_lock : Bool) : LockWaitEntry :=
  ⟨[107], ⟨[107], start_ts, false⟩, is_shared_lock, ⟨some token⟩, none⟩

def pushed_run : Run :=
  ⟨((LockWaitQueues.new.push_lock_wait (waiter 10 1 true) false).push_lock_wait
      (waiter 20 2 true) false).push_lock_wait (waiter 30 3 false) false,
    [⟨some 1⟩, ⟨some 2⟩, ⟨some 3⟩], []⟩

def woken_run : Run :=
  ⟨(pushed_run.queues.pop_for_waking_up [107] 40 45 100).1, pushed_run.pushed,
    pushed_run.left ++ tokens (pushed_run.queues.pop_for_waking_up [107] 40 45 100).2.1⟩

theorem lock_wait_queues_bookkeeping_woken :
    woken_run.Reachable ∧ woken_run.left = [⟨some 1⟩, ⟨some 2⟩] ∧
    woken_run.queues.queued = [⟨some 3⟩] ∧
    (woken_run.queues.entry_count = (woken_run.queues.queue_map.map fun p => p.2.queue.length).sum ∧
      (∀ p ∈ woken_run.queues.queue_map, p.2.queue ≠ []) ∧
      woken_run.pushed.Nodup ∧ woken_run.pushed.Perm (woken_run.queues.queued ++ woken_run.left) ∧
      (∀ key e rest, woken_run.queues.queue_of key = e :: rest → ∀ cs cc delay,
        (∀ x ∈ rest, e.parameters.start_ts ≤ x.parameters.start_ts) ∧
        rest.Pairwise LockWaitEntry.Before ∧
        (woken_run.queues.pop_for_waking_up key cs cc delay).2.1 =
          e :: (if e.is_shared_lock then rest.takeWhile (·.is_shared_lock) else [])) ∧
      (∀ key notify_id,
        (woken_run.queues.queue_map.lookup key).bind (·.delayed_notify_all_state) ≠ some notify_id →
        woken_run.queues.delayed_notify_all key notify_id = (woken_run.queues, [], none)) ∧
      (∀ key notify_id v, woken_run.queues.queue_map.lookup key = some v →
        v.delayed_notify_all_state = some notify_id →
        v.queue.Pairwise LockWaitEntry.Before ∧
        ∃ rest, v.queue = (woken_run.queues.delayed_notify_all key notify_id).2.1.map (·.1) ++
            (woken_run.queues.delayed_notify_all key notify_id).2.2.toList ++ rest ∧
          (∀ e ∈ (woken_run.queues.delayed_notify_all key notify_id).2.1.map (·.1) ++
              (woken_run.queues.delayed_notify_all key notify_id).2.2.toList,
            ∀ idx, e.legacy_wake_up_index = some idx → idx < v.legacy_wake_up_index) ∧
          (∀ p ∈ (woken_run.queues.delayed_notify_all key notify_id).2.1,
            p.1.parameters.allow_lock_with_conflict = false ∧
            p.2 = ⟨p.1.parameters.start_ts, v.last_conflict_start_ts, v.last_conflict_commit_ts,
              p.1.key, p.1.parameters.primary⟩) ∧
          (∀ e ∈ (woken_run.queues.delayed_notify_all key notify_id).2.2,
            e.parameters.allow_lock_with_conflict = true) ∧
          ((woken_run.queues.delayed_notify_all key notify_id).2.2 = none → ∀ f ∈ rest.head?,
            ∃ idx, f.legacy_wake_up_index = some idx ∧ v.legacy_wake_up_index ≤ idx))) := by
  have hr : woken_run.Reachable :=
    (((Relation.ReflTransGen.refl.tail (Run.Step.push_lock_wait _ (waiter 10 1 true) (by decide))).tail
      (Run.Step.push_lock_wait _ (waiter 20 2 true) (by decide))).tail
      (Run.Step.push_lock_wait _ (waiter 30 3 false) (by decide))).tail
      (Run.Step.pop_for_waking_up _ [107] 40 45 100)
  exact ⟨hr, by decide, by decide, lock_wait_queues_bookkeeping hr⟩

end Tikv.LockManager
