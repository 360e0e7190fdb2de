import Tikv.Txn.StatusCache

/-!
The resolver of a region's resolved ts (src/components/resolved_ts/src/resolver.rs). It
tracks the locks of the region's transactions: normal locks one by one, in `locks_by_key` and,
counted by start_ts, in the ordered `lock_ts_heap`; the locks of a large (pipelined)
transaction as one entry of `large_txns`, under a representative key. `resolve` advances the
resolved ts to the caller's `min_ts`, held back by the oldest normal lock and by the
`min_commit_ts` that the transaction status cache gives for each large transaction.

Each normal lock is charged to the resolver's memory quota, whose `in_use` is the resolver's
alone here. The read progress that `resolve` reports to, the last attempt it records, the
shrinking of the maps and the metrics are left out.
-/

namespace Tikv.Concurrency

/-- `TimeStamp::prev`; `none` where its assert fails. -/
def TimeStamp.prev (ts : Nat) : Option Nat := if ts = 0 then none else some (ts - 1)

end Tikv.Concurrency

namespace Tikv.ResolvedTs

open Tikv.Txn (TxnStatusCache TxnState)
open Tikv.Concurrency (TimeStamp.prev)
open Tikv.Lib.AssocList (keys insert erase modify upsert Sorted)

structure TxnLocks where
  lock_count : Nat
  sample_lock : Option (List UInt8)
  deriving DecidableEq, Repr

def MAX_MEMORY_ALLOC_SIZE : Nat := 2 ^ 48

structure MemoryQuotaExceeded where
  deriving DecidableEq, Repr

structure MemoryQuota where
  in_use : Nat
  capacity : Nat
  deriving DecidableEq, Repr

def MemoryQuota.alloc (q : MemoryQuota) (bytes : Nat) : Except MemoryQuotaExceeded MemoryQuota :=
  if q.capacity < q.in_use + bytes ∨ MAX_MEMORY_ALLOC_SIZE < bytes then .error ⟨⟩
  else .ok { q with in_use := q.in_use + bytes }

/-- `MemoryQuota::free`; the source's correction of a negative `in_use` is the truncation of
`Nat` subtraction. -/
def MemoryQuota.free (q : MemoryQuota) (bytes : Nat) : MemoryQuota :=
  if MAX_MEMORY_ALLOC_SIZE < bytes then q else { q with in_use := q.in_use - bytes }

structure Resolver where
  locks_by_key : List (List UInt8 × Nat)
  lock_ts_heap : List (Nat × TxnLocks)
  large_txns : List (Nat × TxnLocks)
  large_txn_key_representative : List (List UInt8 × Nat)
  resolved_ts : Nat
  tracked_index : Nat
  min_ts : Nat
  stopped : Bool
  memory_quota : MemoryQuota
  deriving DecidableEq, Repr

namespace Resolver

def new (capacity : Nat) : Resolver := ⟨[], [], [], [], 0, 0, 0, false, ⟨0, capacity⟩⟩

def lock_heap_size (key : List UInt8) : Nat := key.length + 8

/-- `none` where the assert that the index does not go back fails. -/
def update_tracked_index (r : Resolver) (index : Nat) : Option Resolver :=
  if r.tracked_index ≤ index then some { r with tracked_index := index } else none

def update_index (r : Resolver) : Option Nat → Option Resolver
  | some index => r.update_tracked_index index
  | none => some r

def track_normal_lock (r : Resolver) (start_ts : Nat) (key : List UInt8) :
    Except MemoryQuotaExceeded Resolver := do
  let bytes := lock_heap_size key
  let memory_quota ← r.memory_quota.alloc bytes
  match r.locks_by_key.lookup key with
  | some _ => pure { r with memory_quota := memory_quota.free bytes }
  | none =>
    let lock_ts_heap := upsert start_ts ⟨0, some key⟩
      (fun txn_locks => { txn_locks with lock_count := txn_locks.lock_count + 1 }) r.lock_ts_heap
    pure { r with memory_quota, lock_ts_heap, locks_by_key := insert key start_ts r.locks_by_key }

def track_large_txn_lock (r : Resolver) (start_ts : Nat) (key : List UInt8) : Resolver :=
  match r.large_txns.lookup start_ts with
  | some _ =>
    let large_txns := modify start_ts
      (fun txn_locks => { txn_locks with lock_count := txn_locks.lock_count + 1 }) r.large_txns
    { r with large_txns }
  | none =>
    { r with
      large_txn_key_representative := insert key start_ts r.large_txn_key_representative,
      large_txns := insert start_ts ⟨1, some key⟩ r.large_txns }

/-- The resolver after the call, with its result: a failed allocation returns the error after
the tracked index has been updated. `none` where the call panics. -/
def track_lock (r : Resolver) (start_ts : Nat) (key : List UInt8) (index : Option Nat)
    (generation : Nat) : Option (Resolver × Except MemoryQuotaExceeded Unit) := do
  let r ← r.update_index index
  if generation = 0 then
    match r.track_normal_lock start_ts key with
    | .ok r => pure (r, .ok ())
    | .error e => pure (r, .error e)
  else pure (r.track_large_txn_lock start_ts key, .ok ())

def untrack_lock (r : Resolver) (key : List UInt8) (index : Option Nat) : Option Resolver := do
  let r ← r.update_index index
  match r.locks_by_key.lookup key with
  | some start_ts =>
    let r := { r with
      locks_by_key := erase key r.locks_by_key,
      memory_quota := r.memory_quota.free (lock_heap_size key) }
    match r.lock_ts_heap.lookup start_ts with
    | some txn_locks =>
      -- the source decrements a positive count only, as `Nat` subtraction does
      let lock_count := txn_locks.lock_count - 1
      if lock_count = 0 then pure { r with lock_ts_heap := erase start_ts r.lock_ts_heap }
      else
        let lock_ts_heap := modify start_ts (fun txn_locks => { txn_locks with lock_count })
          r.lock_ts_heap
        pure { r with lock_ts_heap }
    | none => pure r
  | none =>
    match r.large_txn_key_representative.lookup key with
    | some start_ts =>
      pure { r with
        large_txn_key_representative := erase key r.large_txn_key_representative,
        large_txns := erase start_ts r.large_txns }
    | none => pure r

def lookup_min_commit_ts (cache : TxnStatusCache) (start_ts : Nat) : Option Nat :=
  match cache.get start_ts with
  | none => some start_ts
  | some (.Ongoing min_commit_ts) => some min_commit_ts
  | some (.Committed _) | some .RolledBack => none

/-- The timestamp of the oldest transaction, if any: the first of the heap, or a large
transaction's `min_commit_ts - 1`. The outer `none` is a panic of `prev`. -/
def oldest_transaction (r : Resolver) (cache : TxnStatusCache) : Option (Option Nat) := do
  let oldest_normal_txn := r.lock_ts_heap.head?.map (·.1)
  let large ← (r.large_txns.filterMap fun p => lookup_min_commit_ts cache p.1).mapM TimeStamp.prev
  let oldest_large_txn := large.min?
  pure (match oldest_normal_txn, oldest_large_txn with
    | some ts1, some ts2 => some (if ts1 < ts2 then ts1 else ts2)
    | some ts, none => some ts
    | none, some ts => some ts
    | none, none => none)

/-- The resolver after the call and the resolved ts it returns; `none` where it panics. -/
def resolve (r : Resolver) (min_ts : Nat) (cache : TxnStatusCache) : Option (Resolver × Nat) :=
  if r.stopped then some (r, r.resolved_ts)
  else do
    let min_lock ← r.oldest_transaction cache
    let has_lock := min_lock.isSome
    let min_txn_ts := min_lock.getD min_ts
    let new_resolved_ts := min min_txn_ts min_ts
    let resolved_ts := max r.resolved_ts new_resolved_ts
    let new_min_ts := if has_lock then new_resolved_ts else min_ts
    pure ({ r with resolved_ts, min_ts := max r.min_ts new_min_ts }, resolved_ts)

def stop_tracking (r : Resolver) : Resolver := { r with stopped := true }

end Resolver

/-! ### The two indexes and the quota -/

def count_at (locks_by_key : List (List UInt8 × Nat)) (ts : Nat) : Nat :=
  locks_by_key.countP fun p => p.2 = ts

def charged (locks_by_key : List (List UInt8 × Nat)) : Nat :=
  (locks_by_key.map fun p => Resolver.lock_heap_size p.1).sum

/-- What the resolver keeps of its locks: the heap counts the keys at each start_ts and has
an entry exactly where there is one, and the quota holds the bytes of the keys. -/
structure Books (r : Resolver) : Prop where
  keys_nodup : (keys r.locks_by_key).Nodup
  heap_sorted : Sorted r.lock_ts_heap
  heap_count : ∀ ts, (r.lock_ts_heap.lookup ts).map (·.lock_count) =
    if count_at r.locks_by_key ts = 0 then none else some (count_at r.locks_by_key ts)
  memory : r.memory_quota.in_use = charged r.locks_by_key
  alloc_ok : ∀ p ∈ r.locks_by_key, Resolver.lock_heap_size p.1 ≤ MAX_MEMORY_ALLOC_SIZE

theorem count_at_append_single (m : List (List UInt8 × Nat)) (key : List UInt8) (start_ts ts : Nat) :
    count_at (m ++ [(key, start_ts)]) ts = count_at m ts + if start_ts = ts then 1 else 0 := by
  simp [count_at, List.countP_append]

theorem count_at_split (s t : List (List UInt8 × Nat)) (key : List UInt8) (start_ts ts : Nat) :
    count_at (s ++ (key, start_ts) :: t) ts = count_at (s ++ t) ts + if start_ts = ts then 1 else 0 := by
  simp only [count_at, List.countP_append, List.countP_cons, decide_eq_true_eq]
  omega

theorem charged_split (s t : List (List UInt8 × Nat)) (key : List UInt8) (start_ts : Nat) :
    charged (s ++ (key, start_ts) :: t) = charged (s ++ t) + Resolver.lock_heap_size key := by
  simp only [charged, List.map_append, List.map_cons, List.sum_append, List.sum_cons]
  omega

theorem Books.new (capacity : Nat) : Books (Resolver.new capacity) where
  keys_nodup := List.nodup_nil
  heap_sorted := List.Pairwise.nil
  heap_count _ := rfl
  memory := rfl
  alloc_ok _ h := by cases h

namespace Resolver

variable {r r' r₀ : Resolver}

theorem alloc_eq_ok {q q' : MemoryQuota} {bytes : Nat} (h : q.alloc bytes = .ok q') :
    q' = { q with in_use := q.in_use + bytes } ∧ bytes ≤ MAX_MEMORY_ALLOC_SIZE := by
  unfold MemoryQuota.alloc at h
  split at h
  · cases h
  · rename_i hfit
    cases h
    exact ⟨rfl, Nat.not_lt.mp (not_or.mp hfit).2⟩

theorem free_of_le (q : MemoryQuota) {bytes : Nat} (h : bytes ≤ MAX_MEMORY_ALLOC_SIZE) :
    q.free bytes = { q with in_use := q.in_use - bytes } := by
  simp [MemoryQuota.free, Nat.not_lt.mpr h]

theorem update_index_eq {index : Option Nat} (h : r.update_index index = some r₀) :
    r₀ = { r with tracked_index := index.getD r.tracked_index } := by
  cases index with
  | none =>
    cases h
    rfl
  | some index =>
    simp only [update_index, update_tracked_index] at h
    split at h
    · cases h
      rfl
    · cases h

theorem track_lock_cases {start_ts : Nat} {key : List UInt8} {index : Option Nat}
    {generation : Nat} {result : Except MemoryQuotaExceeded Unit}
    (h : r.track_lock start_ts key index generation = some (r', result)) :
    ∃ r₀, r₀ = { r with tracked_index := index.getD r.tracked_index } ∧
      ((generation = 0 ∧ r₀.track_normal_lock start_ts key = .ok r' ∧ result = .ok ()) ∨
       (generation = 0 ∧ (∃ e, r₀.track_normal_lock start_ts key = .error e) ∧ r' = r₀ ∧
          result ≠ .ok ()) ∨
       (generation ≠ 0 ∧ r' = r₀.track_large_txn_lock start_ts key ∧ result = .ok ())) := by
  unfold track_lock at h
  obtain ⟨r₀, h₀, h⟩ := Option.bind_eq_some_iff.mp h
  refine ⟨r₀, update_index_eq h₀, ?_⟩
  split at h
  case isTrue hgen =>
    split at h
    case h_1 r₁ hok =>
      simp only [Option.pure_def, Option.some.injEq, Prod.mk.injEq] at h
      obtain ⟨rfl, rfl⟩ := h
      exact .inl ⟨hgen, hok, rfl⟩
    case h_2 e herr =>
      simp only [Option.pure_def, Option.some.injEq, Prod.mk.injEq] at h
      obtain ⟨rfl, rfl⟩ := h
      exact .inr (.inl ⟨hgen, ⟨e, herr⟩, rfl, by simp⟩)
  case isFalse hgen =>
    simp only [Option.pure_def, Option.some.injEq, Prod.mk.injEq] at h
    obtain ⟨rfl, rfl⟩ := h
    exact .inr (.inr ⟨hgen, rfl, rfl⟩)

theorem track_normal_lock_eq_ok {start_ts : Nat} {key : List UInt8}
    (h : r.track_normal_lock start_ts key = .ok r') :
    ∃ q, r.memory_quota.alloc (lock_heap_size key) = .ok q ∧
      ((∃ v, r.locks_by_key.lookup key = some v ∧
          r' = { r with memory_quota := q.free (lock_heap_size key) }) ∨
       (r.locks_by_key.lookup key = none ∧
          r' = { r with
            memory_quota := q,
            lock_ts_heap := upsert start_ts ⟨0, some key⟩
              (fun txn_locks => { txn_locks with lock_count := txn_locks.lock_count + 1 })
              r.lock_ts_heap,
            locks_by_key := insert key start_ts r.locks_by_key })) := by
  dsimp only [track_normal_lock] at h
  cases halloc : r.memory_quota.alloc (lock_heap_size key) with
  | error e =>
    rw [halloc] at h
    cases h
  | ok q =>
    rw [halloc] at h
    refine ⟨q, rfl, ?_⟩
    simp only [bind, Except.bind] at h
    split at h
    case h_1 v hv =>
      cases h
      exact .inl ⟨v, hv, rfl⟩
    case h_2 hv =>
      cases h
      exact .inr ⟨hv, rfl⟩

theorem untrack_lock_cases {key : List UInt8} {index : Option Nat}
    (h : r.untrack_lock key index = some r') :
    ∃ r₀, r₀ = { r with tracked_index := index.getD r.tracked_index } ∧
      ((∃ start_ts, r₀.locks_by_key.lookup key = some start_ts ∧
        r'.locks_by_key = erase key r₀.locks_by_key ∧
        r'.memory_quota = r₀.memory_quota.free (lock_heap_size key) ∧
        r'.lock_ts_heap = (match r₀.lock_ts_heap.lookup start_ts with
          | some txn_locks =>
            if txn_locks.lock_count - 1 = 0 then erase start_ts r₀.lock_ts_heap
            else modify start_ts (fun t => { t with lock_count := txn_locks.lock_count - 1 })
              r₀.lock_ts_heap
          | none => r₀.lock_ts_heap) ∧
        r' = { r₀ with
          locks_by_key := r'.locks_by_key
          memory_quota := r'.memory_quota
          lock_ts_heap := r'.lock_ts_heap }) ∨
       (r₀.locks_by_key.lookup key = none ∧
        r' = { r₀ with
          large_txn_key_representative := r'.large_txn_key_representative
          large_txns := r'.large_txns } ∧
        keys r'.large_txns ⊆ keys r₀.large_txns)) := by
  unfold untrack_lock at h
  obtain ⟨r₀, h₀, h⟩ := Option.bind_eq_some_iff.mp h
  refine ⟨r₀, update_index_eq h₀, ?_⟩
  split at h
  case h_1 start_ts hkey =>
    refine .inl ⟨start_ts, hkey, ?_⟩
    dsimp only at h
    split at h
    case h_1 txn_locks hheap =>
      split at h
      case isTrue hzero =>
        cases h
        simp [hzero]
      case isFalse hzero =>
        cases h
        simp [hzero]
    case h_2 hheap =>
      cases h
      simp
  case h_2 hkey =>
    refine .inr ⟨hkey, ?_⟩
    split at h
    case h_1 start_ts hrep =>
      cases h
      exact ⟨rfl, (Tikv.Lib.AssocList.keys_filter_sublist _ _).subset⟩
    case h_2 hrep =>
      cases h
      exact ⟨rfl, fun _ h => h⟩

end Resolver

section Books

open Tikv.Lib.AssocList (lookup_eq_lookup_decEq lookup_upsert sorted_upsert sorted_modify
  sorted_erase nodup_insert insert_of_lookup_eq_none erase_split lookup_erase lookup_modify
  mem_of_lookup)

variable {r r' : Resolver}

theorem Books.congr (hb : Books r) (hl : r'.locks_by_key = r.locks_by_key)
    (hh : r'.lock_ts_heap = r.lock_ts_heap) (hm : r'.memory_quota.in_use = r.memory_quota.in_use) :
    Books r' := by
  refine ⟨?_, ?_, ?_, ?_, ?_⟩
  · rw [hl]; exact hb.keys_nodup
  · rw [hh]; exact hb.heap_sorted
  · rw [hh, hl]; exact hb.heap_count
  · rw [hm, hl]; exact hb.memory
  · rw [hl]; exact hb.alloc_ok

theorem Books.lock_count_getD (hb : Books r) (ts : Nat) {d : TxnLocks} (hd : d.lock_count = 0) :
    ((r.lock_ts_heap.lookup ts).getD d).lock_count = count_at r.locks_by_key ts := by
  have hc := hb.heap_count ts
  cases hl : r.lock_ts_heap.lookup ts with
  | none =>
    rw [hl] at hc
    split at hc
    · rename_i hz
      rw [hz]
      exact hd
    · cases hc
  | some txn_locks =>
    rw [hl] at hc
    split at hc
    · cases hc
    · exact Option.some.inj hc

theorem Books.track_normal_lock (hb : Books r) {start_ts : Nat} {key : List UInt8}
    (h : r.track_normal_lock start_ts key = .ok r') : Books r' := by
  obtain ⟨q, halloc, hcase⟩ := Resolver.track_normal_lock_eq_ok h
  obtain ⟨rfl, hmax⟩ := Resolver.alloc_eq_ok halloc
  rcases hcase with ⟨v, -, rfl⟩ | ⟨hv, rfl⟩
  · -- a key already tracked: the bytes go back to the quota
    refine ⟨hb.keys_nodup, hb.heap_sorted, hb.heap_count, ?_, hb.alloc_ok⟩
    simp [Resolver.free_of_le _ hmax, hb.memory]
  · rw [lookup_eq_lookup_decEq] at hv
    have hins := insert_of_lookup_eq_none (v := start_ts) hv
    refine ⟨nodup_insert hb.keys_nodup, sorted_upsert hb.heap_sorted _ _ _, fun ts => ?_, ?_, ?_⟩
    · dsimp only
      rw [lookup_upsert hb.heap_sorted, hins, count_at_append_single]
      by_cases hts : ts = start_ts
      · subst hts
        simp [hb.lock_count_getD ts (d := ⟨0, some key⟩) rfl]
      · rw [if_neg hts, hb.heap_count ts, if_neg (Ne.symm hts), Nat.add_zero]
    · simp [hins, charged, hb.memory]
    · intro p hp
      rw [hins] at hp
      rcases List.mem_append.mp hp with hp | hp
      · exact hb.alloc_ok p hp
      · rw [List.mem_singleton.mp hp]
        exact hmax

theorem Books.untrack_lock (hb : Books r) {key : List UInt8} {index : Option Nat}
    (h : r.untrack_lock key index = some r') : Books r' := by
  obtain ⟨r₀, rfl, hcase⟩ := Resolver.untrack_lock_cases h
  have hb₀ : Books { r with tracked_index := index.getD r.tracked_index } := hb.congr rfl rfl rfl
  rcases hcase with ⟨start_ts, hkey, hlocks, hmem, hheap, -⟩ | ⟨-, heq, -⟩
  case inr => exact hb₀.congr (by rw [heq]) (by rw [heq]) (by rw [heq])
  dsimp only at hkey hlocks hmem hheap hb₀
  rw [lookup_eq_lookup_decEq] at hkey
  obtain ⟨s, t, hsplit, herase⟩ := erase_split hb.keys_nodup (mem_of_lookup hkey)
  have hmax := hb.alloc_ok _ (mem_of_lookup hkey)
  have hcount := fun ts => count_at_split s t key start_ts ts
  rw [← hsplit] at hcount
  -- the start_ts of the key has a heap entry, which counts the key
  obtain ⟨txn_locks, hl, hc⟩ : ∃ txn_locks, r.lock_ts_heap.lookup start_ts = some txn_locks ∧
      txn_locks.lock_count = count_at r.locks_by_key start_ts := by
    have hpos : count_at r.locks_by_key start_ts ≠ 0 := by
      rw [hcount start_ts, if_pos rfl]
      omega
    have hh := hb.heap_count start_ts
    rw [if_neg hpos] at hh
    obtain ⟨txn_locks, hl, hlc⟩ := Option.map_eq_some_iff.mp hh
    exact ⟨txn_locks, hl, hlc⟩
  rw [hl] at hheap
  dsimp only at hheap
  refine ⟨?_, ?_, fun ts => ?_, ?_, ?_⟩
  · rw [hlocks]
    exact Tikv.Lib.AssocList.nodup_filter hb.keys_nodup
  · rw [hheap]
    split
    · exact sorted_erase hb.heap_sorted _
    · exact sorted_modify hb.heap_sorted _ _
  · rw [hlocks, herase]
    have hts := hcount ts
    by_cases hst : ts = start_ts
    · subst hst
      rw [if_pos rfl] at hts
      rw [hheap]
      split
      case isTrue hzero =>
        rw [lookup_erase, if_pos rfl, if_pos (by omega)]
        rfl
      case isFalse hzero =>
        rw [lookup_modify, if_pos rfl, hl, if_neg (by omega)]
        simp only [Option.map_some]
        congr 1
        omega
    · rw [if_neg (Ne.symm hst), Nat.add_zero] at hts
      have hold := hb.heap_count ts
      rw [hts] at hold
      rw [hheap]
      split
      · rw [lookup_erase, if_neg hst]
        exact hold
      · rw [lookup_modify, if_neg hst]
        exact hold
  · rw [hmem, Resolver.free_of_le _ hmax, hlocks, herase]
    have hch := charged_split s t key start_ts
    rw [← hsplit] at hch
    dsimp only
    rw [hb.memory]
    omega
  · intro p hp
    rw [hlocks] at hp
    exact hb.alloc_ok p (List.mem_filter.mp hp).1

theorem Books.track_lock (hb : Books r) {start_ts : Nat} {key : List UInt8} {index : Option Nat}
    {generation : Nat} {result : Except MemoryQuotaExceeded Unit}
    (h : r.track_lock start_ts key index generation = some (r', result)) : Books r' := by
  obtain ⟨r₀, rfl, hcase⟩ := Resolver.track_lock_cases h
  have hb₀ : Books { r with tracked_index := index.getD r.tracked_index } := hb.congr rfl rfl rfl
  rcases hcase with ⟨-, hok, -⟩ | ⟨-, -, rfl, -⟩ | ⟨-, rfl, -⟩
  · exact hb₀.track_normal_lock hok
  · exact hb₀
  · -- a large transaction's lock touches neither index nor the quota
    unfold Resolver.track_large_txn_lock
    split <;> exact hb₀.congr rfl rfl rfl

end Books

/-! ### The resolved ts -/

namespace Resolver

variable {r r' : Resolver} {cache : TxnStatusCache}

theorem mem_mapM_prev {l l' : List Nat} (h : l.mapM TimeStamp.prev = some l') {m : Nat}
    (hm : m ∈ l) : 0 < m ∧ m - 1 ∈ l' := by
  induction l generalizing l' with
  | nil => cases hm
  | cons a l ih =>
    simp only [List.mapM_cons, bind, Option.bind_eq_some_iff, pure, Option.some.injEq] at h
    obtain ⟨b, hb, bs, hbs, rfl⟩ := h
    rcases List.mem_cons.mp hm with rfl | hm
    · unfold TimeStamp.prev at hb
      split at hb
      · cases hb
      · cases hb
        exact ⟨by omega, List.mem_cons_self⟩
    · obtain ⟨hpos, hmem⟩ := ih hbs hm
      exact ⟨hpos, List.mem_cons_of_mem _ hmem⟩

theorem oldest_transaction_spec (hs : Sorted r.lock_ts_heap) {min_lock : Option Nat}
    (h : r.oldest_transaction cache = some min_lock) :
    (∀ ts ∈ keys r.lock_ts_heap, ∃ t, min_lock = some t ∧ t ≤ ts) ∧
    (∀ start_ts ∈ keys r.large_txns, ∀ m, lookup_min_commit_ts cache start_ts = some m →
      ∃ t, min_lock = some t ∧ t < m) := by
  unfold oldest_transaction at h
  obtain ⟨large, hlarge, h⟩ := Option.bind_eq_some_iff.mp h
  simp only [pure, Option.some.injEq] at h
  subst h
  constructor
  · intro ts hts
    obtain ⟨⟨a, b⟩, rest, hheap⟩ : ∃ p rest, r.lock_ts_heap = p :: rest := by
      cases hh : r.lock_ts_heap with
      | nil => rw [hh] at hts; cases hts
      | cons p rest => exact ⟨p, rest, rfl⟩
    have hle : a ≤ ts := by
      rw [hheap] at hs hts
      exact Tikv.Lib.AssocList.Sorted.head_le hs hts
    rw [hheap]
    cases large.min? with
    | none => exact ⟨a, rfl, hle⟩
    | some b' =>
      refine ⟨if a < b' then a else b', rfl, ?_⟩
      split <;> omega
  · intro start_ts hts m hm
    obtain ⟨⟨s, txn_locks⟩, hmem, rfl⟩ := List.mem_map.mp hts
    have hin : m ∈ r.large_txns.filterMap fun p => lookup_min_commit_ts cache p.1 :=
      List.mem_filterMap.mpr ⟨(s, txn_locks), hmem, hm⟩
    obtain ⟨hpos, hprev⟩ := mem_mapM_prev hlarge hin
    obtain ⟨b', hmin⟩ := Option.isSome_iff_exists.mp (List.isSome_min?_of_mem hprev)
    have hb' : b' ≤ m - 1 := (List.min?_eq_some_iff.mp hmin).2 _ hprev
    rw [hmin]
    cases r.lock_ts_heap.head?.map (·.1) with
    | none => exact ⟨b', rfl, by omega⟩
    | some a =>
      refine ⟨if a < b' then a else b', rfl, ?_⟩
      split <;> omega

theorem resolve_cases {min_ts ts : Nat} (h : r.resolve min_ts cache = some (r', ts)) :
    (r.stopped = true ∧ r' = r) ∨
    (∃ min_lock, r.oldest_transaction cache = some min_lock ∧
      r' = { r with
        resolved_ts := max r.resolved_ts (min (min_lock.getD min_ts) min_ts)
        min_ts := max r.min_ts
          (if min_lock.isSome then min (min_lock.getD min_ts) min_ts else min_ts) }) := by
  unfold resolve at h
  split at h
  case isTrue hstop =>
    simp only [Option.some.injEq, Prod.mk.injEq] at h
    exact .inl ⟨hstop, h.1.symm⟩
  case isFalse =>
    obtain ⟨min_lock, hm, h⟩ := Option.bind_eq_some_iff.mp h
    simp only [pure, Option.some.injEq, Prod.mk.injEq] at h
    exact .inr ⟨min_lock, hm, h.1.symm⟩

theorem track_lock_ts {start_ts : Nat} {key : List UInt8} {index : Option Nat} {generation : Nat}
    {result : Except MemoryQuotaExceeded Unit}
    (h : r.track_lock start_ts key index generation = some (r', result)) :
    r'.resolved_ts = r.resolved_ts ∧ r'.min_ts = r.min_ts := by
  obtain ⟨r₀, rfl, hcase⟩ := track_lock_cases h
  rcases hcase with ⟨-, hok, -⟩ | ⟨-, -, rfl, -⟩ | ⟨-, rfl, -⟩
  · obtain ⟨q, -, ⟨v, -, rfl⟩ | ⟨-, rfl⟩⟩ := track_normal_lock_eq_ok hok <;> exact ⟨rfl, rfl⟩
  · exact ⟨rfl, rfl⟩
  · unfold track_large_txn_lock
    split <;> exact ⟨rfl, rfl⟩

theorem untrack_lock_ts {key : List UInt8} {index : Option Nat}
    (h : r.untrack_lock key index = some r') :
    r'.resolved_ts = r.resolved_ts ∧ r'.min_ts = r.min_ts := by
  obtain ⟨r₀, rfl, ⟨-, -, -, -, -, heq⟩ | ⟨-, heq, -⟩⟩ := untrack_lock_cases h <;>
    rw [heq] <;> exact ⟨rfl, rfl⟩

end Resolver

def TrackedAbove (cache : TxnStatusCache) (r : Resolver) (start_ts generation : Nat) : Prop :=
  if generation = 0 then r.resolved_ts ≤ start_ts
  else ∀ m, Resolver.lookup_min_commit_ts cache start_ts = some m → r.resolved_ts < m

/-- The safety of the resolved ts: it is at or below every tracked normal lock and below the
`min_commit_ts` of every tracked large transaction that is still ongoing. -/
structure ResolvedBelow (cache : TxnStatusCache) (r : Resolver) : Prop where
  normal : ∀ p ∈ r.locks_by_key, r.resolved_ts ≤ p.2
  large : ∀ start_ts ∈ keys r.large_txns, ∀ m,
    Resolver.lookup_min_commit_ts cache start_ts = some m → r.resolved_ts < m

section Safety

open Tikv.Lib.AssocList (lookup_eq_lookup_decEq insert_of_lookup_eq_none mem_keys_insert
  mem_keys_of_lookup)

variable {r r' : Resolver} {cache : TxnStatusCache}

theorem resolvedBelow_new (capacity : Nat) : ResolvedBelow cache (Resolver.new capacity) where
  normal _ h := by cases h
  large _ h := by cases h

theorem ResolvedBelow.congr (hrb : ResolvedBelow cache r) (hr : r'.resolved_ts = r.resolved_ts)
    (hl : ∀ p ∈ r'.locks_by_key, p ∈ r.locks_by_key)
    (hk : ∀ start_ts ∈ keys r'.large_txns, start_ts ∈ keys r.large_txns) :
    ResolvedBelow cache r' where
  normal p hp := hr ▸ hrb.normal p (hl p hp)
  large start_ts hs m hm := hr ▸ hrb.large start_ts (hk start_ts hs) m hm

theorem ResolvedBelow.track_lock (hrb : ResolvedBelow cache r) {start_ts : Nat}
    {key : List UInt8} {index : Option Nat} {generation : Nat}
    {result : Except MemoryQuotaExceeded Unit} (hok : TrackedAbove cache r start_ts generation)
    (h : r.track_lock start_ts key index generation = some (r', result)) :
    ResolvedBelow cache r' := by
  obtain ⟨r₀, rfl, hcase⟩ := Resolver.track_lock_cases h
  rcases hcase with ⟨hgen, htrack, -⟩ | ⟨-, -, rfl, -⟩ | ⟨hgen, rfl, -⟩
  · rw [TrackedAbove, if_pos hgen] at hok
    obtain ⟨q, -, ⟨v, -, rfl⟩ | ⟨hv, rfl⟩⟩ := Resolver.track_normal_lock_eq_ok htrack
    · exact hrb.congr rfl (fun p hp => hp) (fun s hs => hs)
    · -- the new normal lock is the one the condition bounds
      rw [lookup_eq_lookup_decEq] at hv
      refine ⟨fun p hp => ?_, hrb.large⟩
      dsimp only at hp ⊢
      rw [insert_of_lookup_eq_none hv] at hp
      rcases List.mem_append.mp hp with hp | hp
      · exact hrb.normal p hp
      · rw [List.mem_singleton.mp hp]
        exact hok
  · exact hrb.congr rfl (fun p hp => hp) (fun s hs => hs)
  · rw [TrackedAbove, if_neg hgen] at hok
    unfold Resolver.track_large_txn_lock
    split
    · exact hrb.congr rfl (fun p hp => hp) (fun s hs => by simpa using hs)
    · refine ⟨hrb.normal, fun s hs m hm => ?_⟩
      rcases mem_keys_insert hs with rfl | hs
      · exact hok m hm
      · exact hrb.large s hs m hm

theorem ResolvedBelow.untrack_lock (hrb : ResolvedBelow cache r) {key : List UInt8}
    {index : Option Nat} (h : r.untrack_lock key index = some r') : ResolvedBelow cache r' := by
  obtain ⟨r₀, rfl, hcase⟩ := Resolver.untrack_lock_cases h
  rcases hcase with ⟨-, -, hlocks, -, -, heq⟩ | ⟨-, heq, hkeys⟩
  · refine hrb.congr (by rw [heq]) (fun p hp => ?_) (fun s hs => by rw [heq] at hs; exact hs)
    rw [hlocks] at hp
    exact (List.mem_filter.mp hp).1
  · exact hrb.congr (by rw [heq]) (fun p hp => by rw [heq] at hp; exact hp) hkeys

theorem ResolvedBelow.resolve (hrb : ResolvedBelow cache r) (hb : Books r) {min_ts ts : Nat}
    (h : r.resolve min_ts cache = some (r', ts)) : ResolvedBelow cache r' := by
  rcases Resolver.resolve_cases h with ⟨-, rfl⟩ | ⟨min_lock, hm, rfl⟩
  · exact hrb
  obtain ⟨hnormal, hlarge⟩ := Resolver.oldest_transaction_spec hb.heap_sorted hm
  refine ⟨fun p hp => ?_, fun s hs m hmc => ?_⟩
  · -- the lock's start_ts has a heap entry, so the oldest transaction is at or below it
    have hp' : p ∈ r.locks_by_key := hp
    have hpos : count_at r.locks_by_key p.2 ≠ 0 := by
      have hlt : 0 < count_at r.locks_by_key p.2 := List.countP_pos_iff.mpr ⟨p, hp', by simp⟩
      omega
    have hh := hb.heap_count p.2
    rw [if_neg hpos] at hh
    obtain ⟨txn_locks, hl, -⟩ := Option.map_eq_some_iff.mp hh
    obtain ⟨t, rfl, ht⟩ := hnormal p.2 (mem_keys_of_lookup hl)
    have hold := hrb.normal p hp'
    simp only [Option.getD_some]
    omega
  · obtain ⟨t, rfl, ht⟩ := hlarge s hs m hmc
    have hold := hrb.large s hs m hmc
    simp only [Option.getD_some]
    omega

end Safety

/-! ### Runs of calls -/

/-- A call on the resolver that does not panic, reading the status cache `cache`; `ok` says
which tracks a run makes. -/
inductive Step (cache : TxnStatusCache) (ok : Resolver → Nat → Nat → Prop) :
    Resolver → Resolver → Prop
  | track_lock {r r' : Resolver} (start_ts : Nat) (key : List UInt8) (index : Option Nat)
      (generation : Nat) (result : Except MemoryQuotaExceeded Unit)
      (hok : ok r start_ts generation)
      (h : r.track_lock start_ts key index generation = some (r', result)) : Step cache ok r r'
  | untrack_lock {r r' : Resolver} (key : List UInt8) (index : Option Nat)
      (h : r.untrack_lock key index = some r') : Step cache ok r r'
  | resolve {r r' : Resolver} (min_ts ts : Nat) (h : r.resolve min_ts cache = some (r', ts)) :
      Step cache ok r r'
  | stop_tracking (r : Resolver) : Step cache ok r r.stop_tracking

/-- The cache's answers move forward: the `min_commit_ts` the resolver reads for a transaction
never goes down, and a transaction it reads as committed or rolled back stays so. -/
def CacheAdvances (cache cache' : TxnStatusCache) : Prop :=
  ∀ start_ts m', Resolver.lookup_min_commit_ts cache' start_ts = some m' →
    ∃ m, Resolver.lookup_min_commit_ts cache start_ts = some m ∧ m ≤ m'

/-- The resolver beside the status cache it reads: a call on the resolver, or a change of the
cache whose answers move forward. -/
inductive RunStep (ok : TxnStatusCache → Resolver → Nat → Nat → Prop) :
    Resolver × TxnStatusCache → Resolver × TxnStatusCache → Prop
  | call {r r' : Resolver} {cache : TxnStatusCache} (h : Step cache (ok cache) r r') :
      RunStep ok (r, cache) (r', cache)
  | advance {r : Resolver} {cache cache' : TxnStatusCache} (h : CacheAdvances cache cache') :
      RunStep ok (r, cache) (r, cache')

def Reachable (ok : TxnStatusCache → Resolver → Nat → Nat → Prop) (capacity : Nat)
    (cache : TxnStatusCache) (w : Resolver × TxnStatusCache) : Prop :=
  Relation.ReflTransGen (RunStep ok) (Resolver.new capacity, cache) w

section Runs

variable {r r' : Resolver} {cache : TxnStatusCache} {ok : Resolver → Nat → Nat → Prop}

theorem Books.step (hb : Books r) (h : Step cache ok r r') : Books r' := by
  cases h with
  | track_lock start_ts key index generation result hok h => exact hb.track_lock h
  | untrack_lock key index h => exact hb.untrack_lock h
  | resolve min_ts ts h =>
    rcases Resolver.resolve_cases h with ⟨-, rfl⟩ | ⟨min_lock, -, rfl⟩
    · exact hb
    · exact hb.congr rfl rfl rfl
  | stop_tracking => exact hb.congr rfl rfl rfl

theorem Step.ts_le (h : Step cache ok r r') :
    r.resolved_ts ≤ r'.resolved_ts ∧ r.min_ts ≤ r'.min_ts := by
  cases h with
  | track_lock start_ts key index generation result hok h =>
    obtain ⟨hr, hm⟩ := Resolver.track_lock_ts h
    omega
  | untrack_lock key index h =>
    obtain ⟨hr, hm⟩ := Resolver.untrack_lock_ts h
    omega
  | resolve min_ts ts h =>
    rcases Resolver.resolve_cases h with ⟨-, rfl⟩ | ⟨min_lock, -, rfl⟩
    · omega
    · exact ⟨Nat.le_max_left _ _, Nat.le_max_left _ _⟩
  | stop_tracking => exact ⟨Nat.le_refl _, Nat.le_refl _⟩

theorem ResolvedBelow.step (hrb : ResolvedBelow cache r) (hb : Books r)
    (hok : ∀ r start_ts generation, ok r start_ts generation →
      TrackedAbove cache r start_ts generation)
    (h : Step cache ok r r') : ResolvedBelow cache r' := by
  cases h with
  | track_lock start_ts key index generation result hok' h =>
    exact hrb.track_lock (hok _ _ _ hok') h
  | untrack_lock key index h => exact hrb.untrack_lock h
  | resolve min_ts ts h => exact hrb.resolve hb h
  | stop_tracking => exact hrb.congr rfl (fun p hp => hp) (fun s hs => hs)

theorem ResolvedBelow.advance {cache' : TxnStatusCache} (hrb : ResolvedBelow cache r)
    (h : CacheAdvances cache cache') : ResolvedBelow cache' r where
  normal := hrb.normal
  large start_ts hs m' hm' := by
    obtain ⟨m, hm, hle⟩ := h start_ts m' hm'
    exact lt_of_lt_of_le (hrb.large start_ts hs m hm) hle

theorem Resolver.track_lock_error {start_ts : Nat} {key : List UInt8} {index : Option Nat}
    {generation : Nat} {e : MemoryQuotaExceeded}
    (h : r.track_lock start_ts key index generation = some (r', .error e)) :
    r' = { r with tracked_index := index.getD r.tracked_index } := by
  obtain ⟨r₀, rfl, hcase⟩ := Resolver.track_lock_cases h
  rcases hcase with ⟨-, -, hres⟩ | ⟨-, -, rfl, -⟩ | ⟨-, -, hres⟩
  · cases hres
  · rfl
  · cases hres

end Runs

section RunSteps

variable {w w' : Resolver × TxnStatusCache} {ok : TxnStatusCache → Resolver → Nat → Nat → Prop}

theorem Books.run_step (hb : Books w.1) (h : RunStep ok w w') : Books w'.1 := by
  cases h with
  | call h => exact hb.step h
  | advance => exact hb

theorem books_reachable {capacity : Nat} {cache : TxnStatusCache}
    (h : Reachable ok capacity cache w) : Books w.1 := by
  induction h with
  | refl => exact Books.new capacity
  | tail _ hstep ih => exact ih.run_step hstep

theorem RunStep.ts_le (h : RunStep ok w w') :
    w.1.resolved_ts ≤ w'.1.resolved_ts ∧ w.1.min_ts ≤ w'.1.min_ts := by
  cases h with
  | call h => exact h.ts_le
  | advance => exact ⟨Nat.le_refl _, Nat.le_refl _⟩

theorem ts_le_of_run (h : Relation.ReflTransGen (RunStep ok) w w') :
    w.1.resolved_ts ≤ w'.1.resolved_ts ∧ w.1.min_ts ≤ w'.1.min_ts := by
  induction h with
  | refl => exact ⟨Nat.le_refl _, Nat.le_refl _⟩
  | tail _ hstep ih =>
    obtain ⟨h1, h2⟩ := hstep.ts_le
    omega

theorem ResolvedBelow.run_step (hrb : ResolvedBelow w.2 w.1) (hb : Books w.1)
    (hok : ∀ cache r start_ts generation, ok cache r start_ts generation →
      TrackedAbove cache r start_ts generation)
    (h : RunStep ok w w') : ResolvedBelow w'.2 w'.1 := by
  cases h with
  | call h => exact hrb.step hb (hok _) h
  | advance h => exact hrb.advance h

theorem resolvedBelow_reachable {capacity : Nat} {cache : TxnStatusCache}
    (hok : ∀ cache r start_ts generation, ok cache r start_ts generation →
      TrackedAbove cache r start_ts generation)
    (h : Reachable ok capacity cache w) : ResolvedBelow w.2 w.1 := by
  induction h with
  | refl => exact resolvedBelow_new capacity
  | tail hrun hstep ih => exact ih.run_step (books_reachable hrun) hok hstep

end RunSteps

/-- The resolver's bookkeeping over every run of calls beside a status cache whose answers move
forward: the heap counts the normal locks at each start_ts and has an entry exactly where one
is; the quota holds their bytes, and a track that fails on the quota changes nothing but the
tracked index; the resolved ts and `min_ts` never go down; and when every track is above the
resolved ts as the cache reads then, the resolved ts stays at or below every normal lock and
below every large transaction the current cache reads as ongoing. -/
theorem resolver_tracks_locks (ok : TxnStatusCache → Resolver → Nat → Nat → Prop)
    (capacity : Nat) {cache₀ cache : TxnStatusCache} {r : Resolver}
    (h : Reachable ok capacity cache₀ (r, cache)) :
    (∀ ts, (r.lock_ts_heap.lookup ts).map (·.lock_count) =
      if count_at r.locks_by_key ts = 0 then none else some (count_at r.locks_by_key ts)) ∧
    r.memory_quota.in_use = charged r.locks_by_key ∧
    (∀ start_ts key index generation r' e,
      r.track_lock start_ts key index generation = some (r', .error e) →
        r' = { r with tracked_index := index.getD r.tracked_index }) ∧
    (∀ r' cache', Relation.ReflTransGen (RunStep ok) (r, cache) (r', cache') →
      r.resolved_ts ≤ r'.resolved_ts ∧ r.min_ts ≤ r'.min_ts) ∧
    ((∀ cache r start_ts generation, ok cache r start_ts generation →
        TrackedAbove cache r start_ts generation) →
      ResolvedBelow cache r) := by
  have hb : Books r := books_reachable h
  exact ⟨hb.heap_count, hb.memory, fun _ _ _ _ _ _ herr => Resolver.track_lock_error herr,
    fun _ _ hrun => ts_le_of_run hrun, fun hok => resolvedBelow_reachable hok h⟩

def large_txn_tracked : Resolver := ⟨[], [], [(10, ⟨1, some [1]⟩)], [([1], 10)], 0, 0, 0, false, ⟨0, 100⟩⟩

def ongoing_at_15 : TxnStatusCache := ⟨[], [(10, .Ongoing 15)]⟩

def large_txn_resolved : Resolver :=
  ⟨[], [], [(10, ⟨1, some [1]⟩)], [([1], 10)], 14, 0, 14, false, ⟨0, 100⟩⟩

theorem resolver_tracks_locks_learnt_min_commit_ts :
    Reachable TrackedAbove 100 TxnStatusCache.new (large_txn_resolved, ongoing_at_15) ∧
    ((∀ ts, (large_txn_resolved.lock_ts_heap.lookup ts).map (·.lock_count) =
      if count_at large_txn_resolved.locks_by_key ts = 0 then none
      else some (count_at large_txn_resolved.locks_by_key ts)) ∧
    large_txn_resolved.memory_quota.in_use = charged large_txn_resolved.locks_by_key ∧
    (∀ start_ts key index generation r' e,
      large_txn_resolved.track_lock start_ts key index generation = some (r', .error e) →
        r' = { large_txn_resolved with
          tracked_index := index.getD large_txn_resolved.tracked_index }) ∧
    (∀ r' cache', Relation.ReflTransGen (RunStep TrackedAbove) (large_txn_resolved, ongoing_at_15)
        (r', cache') →
      large_txn_resolved.resolved_ts ≤ r'.resolved_ts ∧ large_txn_resolved.min_ts ≤ r'.min_ts) ∧
    ((∀ cache r start_ts generation, TrackedAbove cache r start_ts generation →
        TrackedAbove cache r start_ts generation) →
      ResolvedBelow ongoing_at_15 large_txn_resolved)) := by
  have htrack : Step TxnStatusCache.new (TrackedAbove TxnStatusCache.new) (Resolver.new 100)
      large_txn_tracked := by
    refine Step.track_lock 10 [1] none 1 (.ok ()) ?_ rfl
    rw [TrackedAbove, if_neg (by decide)]
    intro m hm
    cases hm
    exact Nat.zero_lt_succ 9
  -- only the answer for 10 changes, from its start_ts to the larger 15
  have hadvance : CacheAdvances TxnStatusCache.new ongoing_at_15 := by
    intro start_ts m' hm'
    by_cases h10 : start_ts = 10
    · subst h10
      obtain rfl : m' = 15 := Option.some.inj hm'.symm
      exact ⟨10, rfl, by decide⟩
    · refine ⟨m', ?_, Nat.le_refl _⟩
      have hb : (start_ts == 10) = false := beq_eq_false_iff_ne.mpr h10
      have hnone : ongoing_at_15.get start_ts = none := by
        simp [ongoing_at_15, TxnStatusCache.get, List.lookup, hb]
      simp only [Resolver.lookup_min_commit_ts, hnone] at hm'
      exact hm'
  have hresolve : Step ongoing_at_15 (TrackedAbove ongoing_at_15) large_txn_tracked
      large_txn_resolved := Step.resolve 100 14 rfl
  have h : Reachable TrackedAbove 100 TxnStatusCache.new (large_txn_resolved, ongoing_at_15) :=
    ((Relation.ReflTransGen.single (RunStep.call htrack)).tail (RunStep.advance hadvance)).tail
      (RunStep.call hresolve)
  exact ⟨h, resolver_tracks_locks _ _ h⟩

/-- Two runs on which the resolver's state changes. A track whose allocation fails has already
moved the tracked index. And the cache's answer for a large transaction may move backward under
the resolver: tracked while the cache does not know it, the transaction is skipped by a resolve
once the cache says it has committed, and a late ongoing state then puts its `min_commit_ts`
below the resolved ts. -/
theorem resolver_changes_on_failed_track_and_cache_regression :
    (Resolver.track_lock (Resolver.new 0) 5 [1] (some 7) 0 =
        some ({ Resolver.new 0 with tracked_index := 7 }, .error ⟨⟩) ∧
      { Resolver.new 0 with tracked_index := 7 } ≠ Resolver.new 0) ∧
    (Step TxnStatusCache.new (TrackedAbove TxnStatusCache.new) (Resolver.new 100)
        large_txn_tracked ∧
      Tikv.Txn.Step 10 20 false TxnStatusCache.new ⟨[(10, .Committed 20)], []⟩ ∧
      Step ⟨[(10, .Committed 20)], []⟩ (TrackedAbove ⟨[(10, .Committed 20)], []⟩)
        large_txn_tracked ⟨[], [], [(10, ⟨1, some [1]⟩)], [([1], 10)], 100, 0, 100, false, ⟨0, 100⟩⟩ ∧
      Tikv.Txn.Step 10 20 false ⟨[(10, .Committed 20)], []⟩
        ⟨[(10, .Committed 20)], [(10, .Ongoing 15)]⟩ ∧
      Resolver.lookup_min_commit_ts ⟨[(10, .Committed 20)], [(10, .Ongoing 15)]⟩ 10 = some 15 ∧
      10 ∈ keys large_txn_tracked.large_txns ∧ 15 < 100) := by
  refine ⟨⟨rfl, by decide⟩, ?_, ?_, ?_, ?_, rfl, by decide, by decide⟩
  · refine Step.track_lock 10 [1] none 1 (.ok ()) ?_ rfl
    rw [TrackedAbove, if_neg (by decide)]
    intro m hm
    cases hm
    exact Nat.zero_lt_succ 9
  · exact Tikv.Txn.Step.upsert (.Committed 20) (by decide) (by decide)
  · exact Step.resolve 100 100 rfl
  · exact Tikv.Txn.Step.upsert (.Ongoing 15) (by decide) (by decide)

end Tikv.ResolvedTs
