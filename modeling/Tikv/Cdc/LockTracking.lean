import Tikv.Cdc.Delegate
import Mathlib

/-!
What the lock tracker of a CDC delegate keeps over its runs. The lock column family is the lock
on each key's bytes; an event of it is fed to \x60push_lock\x60 when a lock is written and to
\x60pop_lock\x60 when the lock of a transaction is removed. While the tracker prepares, its deltas
replay onto the scanned locks without a failed assertion, to the column family's locks; once
prepared, the tracked locks are the column family's, and the lock counts returned add up, per
ts, to the change in the number of tracked keys of that ts. The quota holds the heap sizes of
what the tracker keeps, until a \x60push_lock\x60 of an untracked key is refused.
-/

namespace Tikv.Cdc

open Tikv.Util (MemoryQuota MemoryQuotaExceeded MAX_MEMORY_ALLOC_SIZE)

namespace LockMap

variable {m : LockMap} {key : HeldKey} {lock : MiniLock}

def locks (m : LockMap) (k : List UInt8) : Option MiniLock := (m.get k).map Prod.snd

theorem locks_of_get {k : List UInt8} {v : Nat × MiniLock} (h : m.get k = some v) :
    m.locks k = some v.2 := by
  simp [locks, h]

theorem locks_of_get_none {k : List UInt8} (h : m.get k = none) : m.locks k = none := by
  simp [locks, h]

def tracked_at (m : LockMap) (t : UInt64) : Nat :=
  (m.entries.map fun e => if e.2.2.ts = t then 1 else 0).sum

theorem get_eq (m : LockMap) (k : List UInt8) :
    m.get k = @List.lookup (List UInt8) (Nat × MiniLock) instBEqOfDecidableEq k m.entries :=
  Lib.AssocList.lookup_eq_lookup_decEq (α := List UInt8) (β := Nat × MiniLock) k m.entries

theorem get_insert (k : List UInt8) :
    (m.insert key lock).get k = if k = key.encoded then some (key.capacity, lock) else m.get k := by
  rw [get_eq, get_eq]
  exact Lib.AssocList.lookup_insert _ _ _ _

theorem get_set (k : List UInt8) :
    (m.set key lock).get k =
      if k = key.encoded then (m.get key.encoded).map (fun e => (e.1, lock)) else m.get k := by
  rw [get_eq, get_eq, get_eq]
  exact Lib.AssocList.lookup_modify key.encoded k (fun e => (e.1, lock)) m.entries

theorem get_remove (k : List UInt8) :
    (m.remove key).get k = if k = key.encoded then none else m.get k := by
  rw [get_eq, get_eq]
  exact Lib.AssocList.lookup_erase _ _ _

theorem mem_of_get {k : List UInt8} {v : Nat × MiniLock} (h : m.get k = some v) :
    (k, v) ∈ m.entries :=
  Lib.AssocList.mem_of_lookup (by rwa [get_eq] at h)

theorem locks_insert :
    (m.insert key lock).locks = Function.update m.locks key.encoded (some lock) := by
  funext k
  by_cases hk : k = key.encoded
  · subst hk
    simp [locks, get_insert]
  · simp [locks, get_insert, hk]

theorem locks_set {c : Nat} {old : MiniLock} (h : m.get key.encoded = some (c, old)) :
    (m.set key lock).locks = Function.update m.locks key.encoded (some lock) := by
  funext k
  by_cases hk : k = key.encoded
  · subst hk
    simp [locks, get_set, h]
  · simp [locks, get_set, hk]

theorem locks_remove : (m.remove key).locks = Function.update m.locks key.encoded none := by
  funext k
  by_cases hk : k = key.encoded
  · subst hk
    simp [locks, get_remove]
  · simp [locks, get_remove, hk]

theorem heap_size_insert (h : m.get key.encoded = none) :
    (m.insert key lock).heap_size = m.heap_size + key.capacity :=
  Lib.AssocList.sum_map_insert_of_lookup_eq_none (by rwa [get_eq] at h) _

theorem heap_size_set : (m.set key lock).heap_size = m.heap_size := by
  unfold heap_size set Lib.AssocList.modify
  rw [List.map_map]
  congr 1
  apply List.map_congr_left
  intro e _
  by_cases he : e.1 = key.encoded <;> simp [he]

theorem heap_size_remove {c : Nat} {l : MiniLock} (h : m.get key.encoded = some (c, l)) :
    (m.remove key).heap_size + c = m.heap_size :=
  Lib.AssocList.sum_map_erase m.nodup (mem_of_get h) _

theorem tracked_at_insert (h : m.get key.encoded = none) (t : UInt64) :
    (m.insert key lock).tracked_at t = m.tracked_at t + if lock.ts = t then 1 else 0 :=
  Lib.AssocList.sum_map_insert_of_lookup_eq_none (by rwa [get_eq] at h) _

theorem tracked_at_set {c : Nat} {old : MiniLock} (h : m.get key.encoded = some (c, old))
    (t : UInt64) :
    (m.set key lock).tracked_at t + (if old.ts = t then 1 else 0) =
      m.tracked_at t + if lock.ts = t then 1 else 0 :=
  Lib.AssocList.sum_map_modify m.nodup (mem_of_get h) (fun e => (e.1, lock))
    (fun e => if e.2.2.ts = t then 1 else 0)

theorem tracked_at_remove {c : Nat} {l : MiniLock} (h : m.get key.encoded = some (c, l))
    (t : UInt64) : (m.remove key).tracked_at t + (if l.ts = t then 1 else 0) = m.tracked_at t :=
  Lib.AssocList.sum_map_erase m.nodup (mem_of_get h) _

end LockMap

abbrev LockCf := List UInt8 → Option MiniLock

inductive LockEvent
  | Track (key : HeldKey) (lock : MiniLock)
  | Untrack (key : HeldKey) (start_ts : UInt64)
  deriving DecidableEq, Repr

namespace LockEvent

def apply (c : LockCf) : LockEvent → LockCf
  | .Track key lock => Function.update c key.encoded (some lock)
  | .Untrack key start_ts =>
    if (c key.encoded).map MiniLock.ts = some start_ts then Function.update c key.encoded none
    else c

def Possible (c : LockCf) : LockEvent → Prop
  | .Track key lock => c key.encoded = none ∨ c key.encoded = some lock
  | .Untrack _ _ => True

theorem track_of_locked {c : LockCf} {key : HeldKey} {lock old : MiniLock}
    (he : (Track key lock).Possible c) (hold : c key.encoded = some old) :
    old = lock ∧ (Track key lock).apply c = c := by
  have hsame : old = lock := by
    rcases he with h | h
    · rw [hold] at h
      cases h
    · rw [hold] at h
      exact Option.some.inj h
  subst hsame
  exact ⟨rfl, Function.update_eq_self_iff.mpr hold.symm⟩

def pending : LockEvent → PendingLock
  | .Track key lock => .Track key lock
  | .Untrack key start_ts => .Untrack key start_ts

def feed_to (d : Delegate) : LockEvent → Delegate.Outcome (List LockModifiedCount)
  | .Track key lock => d.push_lock key lock
  | .Untrack key start_ts => d.pop_lock key start_ts

end LockEvent

def Feasible : LockCf → List LockEvent → Prop
  | _, [] => True
  | c, e :: es => e.Possible c ∧ Feasible (e.apply c) es

instance LockEvent.decPossible : (e : LockEvent) → (c : LockCf) → Decidable (e.Possible c)
  | .Track key lock, c =>
    inferInstanceAs (Decidable (c key.encoded = none ∨ c key.encoded = some lock))
  | .Untrack _ _, _ => inferInstanceAs (Decidable True)

instance decFeasible : (c : LockCf) → (es : List LockEvent) → Decidable (Feasible c es)
  | _, [] => inferInstanceAs (Decidable True)
  | c, e :: es =>
    haveI := decFeasible (e.apply c) es
    inferInstanceAs (Decidable (e.Possible c ∧ Feasible (e.apply c) es))

def apply_all (c : LockCf) (es : List LockEvent) : LockCf := es.foldl LockEvent.apply c

theorem Feasible.append {c : LockCf} {es es' : List LockEvent} (h : Feasible c (es ++ es')) :
    Feasible c es ∧ Feasible (apply_all c es) es' := by
  induction es generalizing c with
  | nil => exact ⟨trivial, h⟩
  | cons e es ih =>
    obtain ⟨he, hrest⟩ := h
    obtain ⟨h₁, h₂⟩ := ih hrest
    exact ⟨⟨he, h₁⟩, h₂⟩

theorem apply_all_append (c : LockCf) (es es' : List LockEvent) :
    apply_all c (es ++ es') = apply_all (apply_all c es) es' :=
  List.foldl_append

abbrev CallResult := Except MemoryQuotaExceeded (List LockModifiedCount)

def Delegate.feed (d : Delegate) : List LockEvent → Option (List CallResult × Delegate)
  | [] => some ([], d)
  | e :: es =>
    match e.feed_to d with
    | none => none
    | some (r, d') => (d'.feed es).map fun p => (r :: p.1, p.2)

def AllOk (rs : List CallResult) : Prop := ∀ r ∈ rs, ∃ ds, r = .ok ds

def deltas_at (ds : List LockModifiedCount) (t : UInt64) : Int :=
  ((ds.filter fun x => x.start_ts = t).map LockModifiedCount.count).sum

def results_at (rs : List CallResult) (t : UInt64) : Int :=
  (rs.map fun r => match r with
    | .ok ds => deltas_at ds t
    | .error _ => 0).sum

theorem Delegate.feed_cons {d : Delegate} {e : LockEvent} {es : List LockEvent}
    {rs : List CallResult} {d'' : Delegate} (h : d.feed (e :: es) = some (rs, d'')) :
    ∃ r d' rs', e.feed_to d = some (r, d') ∧ d'.feed es = some (rs', d'') ∧ rs = r :: rs' := by
  simp only [Delegate.feed] at h
  split at h
  · cases h
  · rename_i r d' he
    obtain ⟨⟨rs', d₂⟩, hf, hp⟩ := Option.map_eq_some_iff.mp h
    cases hp
    exact ⟨r, d', rs', he, hf, rfl⟩

theorem AllOk.cons {r : CallResult} {rs : List CallResult} (h : AllOk (r :: rs)) :
    (∃ ds, r = .ok ds) ∧ AllOk rs :=
  ⟨h r List.mem_cons_self, fun r' hr' => h r' (List.mem_cons_of_mem _ hr')⟩

/-! ### While the tracker prepares -/

/-- The deltas replay onto the scanned locks without a failed assertion, to the column family's
locks. -/
def Replays (L0 : LockMap) (c : LockCf) (ps : List PendingLock) : Prop :=
  ∃ m, ps.foldlM Delegate.replay L0 = some m ∧ m.locks = c

section Preparing

variable {L0 m : LockMap} {c : LockCf} {e : LockEvent} {ps : List PendingLock}

theorem replay_pending (hm : m.locks = c) (he : e.Possible c) :
    ∃ m', Delegate.replay m e.pending = some m' ∧ m'.locks = e.apply c := by
  cases e with
  | Track key lock =>
    rcases hget : m.get key.encoded with _ | ⟨cap, old⟩
    · refine ⟨m.insert key lock, by simp [Delegate.replay, LockEvent.pending, hget], ?_⟩
      rw [LockMap.locks_insert, hm]
      rfl
    · have hold : c key.encoded = some old := by rw [← hm]; exact LockMap.locks_of_get hget
      -- the column family holds the lock the event writes again
      obtain ⟨rfl, happ⟩ := LockEvent.track_of_locked he hold
      exact ⟨m, by simp [Delegate.replay, LockEvent.pending, hget], hm.trans happ.symm⟩
  | Untrack key start_ts =>
    rcases hget : m.get key.encoded with _ | ⟨cap, l⟩
    · have hnone : c key.encoded = none := by rw [← hm]; exact LockMap.locks_of_get_none hget
      refine ⟨m, by simp [Delegate.replay, LockEvent.pending, hget], ?_⟩
      simp [LockEvent.apply, hnone, hm]
    · have hl : c key.encoded = some l := by rw [← hm]; exact LockMap.locks_of_get hget
      by_cases hts : l.ts = start_ts
      · refine ⟨m.remove key, by simp [Delegate.replay, LockEvent.pending, hget, hts], ?_⟩
        rw [LockMap.locks_remove, hm]
        simp [LockEvent.apply, hl, hts]
      · refine ⟨m, by simp [Delegate.replay, LockEvent.pending, hget, hts], ?_⟩
        simp [LockEvent.apply, hl, hts, hm]

theorem Replays.scanned : Replays L0 L0.locks [] := ⟨L0, rfl, rfl⟩

theorem Replays.push (h : Replays L0 c ps) (he : e.Possible c) :
    Replays L0 (e.apply c) (ps ++ [e.pending]) := by
  obtain ⟨m, hf, hm⟩ := h
  obtain ⟨m', hr, hm'⟩ := replay_pending hm he
  exact ⟨m', by rw [List.foldlM_append, hf]; simpa using hr, hm'⟩

theorem feed_to_preparing {d d' : Delegate} {ds : List LockModifiedCount}
    (hd : d.lock_tracker = .Preparing ps) (h : e.feed_to d = some (.ok ds, d')) :
    d'.lock_tracker = .Preparing (ps ++ [e.pending]) ∧ ds = [] := by
  cases e with
  | Track key lock =>
    rcases Delegate.push_lock_preparing hd h with ⟨q, -, hr, rfl⟩ | ⟨-, hr, -⟩
    · exact ⟨rfl, by cases hr; rfl⟩
    · cases hr
  | Untrack key start_ts =>
    rcases Delegate.pop_lock_preparing hd h with ⟨q, -, hr, rfl⟩ | ⟨-, hr, -⟩
    · exact ⟨rfl, by cases hr; rfl⟩
    · cases hr

theorem Replays.feed {d d' : Delegate} {es : List LockEvent} {rs : List CallResult}
    (hd : d.lock_tracker = .Preparing ps) (hr : Replays L0 c ps) (hes : Feasible c es)
    (h : d.feed es = some (rs, d')) (hok : AllOk rs) :
    ∃ ps', d'.lock_tracker = .Preparing ps' ∧ Replays L0 (apply_all c es) ps' := by
  induction es generalizing d c ps rs with
  | nil =>
    cases h
    exact ⟨ps, hd, hr⟩
  | cons e es ih =>
    obtain ⟨r, d₁, rs', he, hf, rfl⟩ := Delegate.feed_cons h
    obtain ⟨⟨ds, rfl⟩, hok'⟩ := hok.cons
    obtain ⟨hd₁, -⟩ := feed_to_preparing hd he
    exact ih hd₁ (hr.push hes.1) hes.2 hf hok'

end Preparing

/-! ### Once the tracker is prepared -/

section Prepared

variable {m : LockMap} {c : LockCf} {e : LockEvent} {d d' : Delegate}

theorem feed_to_prepared {ds : List LockModifiedCount} (hd : d.lock_tracker = .Prepared m)
    (h : e.feed_to d = some (.ok ds, d')) :
    ∃ m', d'.lock_tracker = .Prepared m' ∧ (m.locks = c → e.Possible c → m'.locks = e.apply c) ∧
      ∀ t, (m'.tracked_at t : Int) = m.tracked_at t + deltas_at ds t := by
  cases e with
  | Track key lock =>
    rcases Delegate.push_lock_prepared hd h with
      ⟨cap, old, hget, hne, hr, rfl⟩ | ⟨cap, old, hget, heq, hr, rfl⟩ | ⟨hget, ⟨q, -, hr, rfl⟩ | ⟨-, hr, -⟩⟩
    · -- a new lock on a tracked key
      cases hr
      refine ⟨_, rfl, fun hm _ => by rw [LockMap.locks_set hget, hm]; rfl, fun t => ?_⟩
      have hcount := @LockMap.tracked_at_set _ _ lock _ _ hget t
      -- the pair moves one key from the old ts to the new one
      by_cases ho : old.ts = t
      · have hl : lock.ts ≠ t := fun h => hne (ho.trans h.symm)
        simp [deltas_at, ho, hl] at hcount ⊢
        omega
      · by_cases hl : lock.ts = t
        · simp [deltas_at, ho, hl] at hcount ⊢
          omega
        · simp [deltas_at, ho, hl] at hcount ⊢
          omega
    · -- the same ts: nothing changes
      cases hr
      refine ⟨m, hd, fun hm he => ?_, fun t => by simp [deltas_at]⟩
      have hold : c key.encoded = some old := by rw [← hm]; exact LockMap.locks_of_get hget
      exact hm.trans (LockEvent.track_of_locked he hold).2.symm
    · -- an untracked key, charged for
      cases hr
      refine ⟨_, rfl, fun hm _ => by rw [LockMap.locks_insert, hm]; rfl, fun t => ?_⟩
      rw [LockMap.tracked_at_insert hget]
      by_cases ht : lock.ts = t <;> simp [deltas_at, ht]
    · cases hr
  | Untrack key start_ts =>
    rcases Delegate.pop_lock_prepared hd h with ⟨cap, l, hget, hts, hr, rfl⟩ | ⟨hne, hr, rfl⟩
    · cases hr
      refine ⟨_, rfl, fun hm _ => ?_, fun t => ?_⟩
      · have hl : c key.encoded = some l := by rw [← hm]; exact LockMap.locks_of_get hget
        rw [LockMap.locks_remove, hm]
        simp [LockEvent.apply, hl, hts]
      · have hcount := LockMap.tracked_at_remove hget t
        subst hts
        by_cases ht : l.ts = t <;> simp [deltas_at, ht] at hcount ⊢ <;> omega
    · cases hr
      refine ⟨m, hd, fun hm _ => ?_, fun t => by simp [deltas_at]⟩
      rcases hget : m.get key.encoded with _ | ⟨cap, l⟩
      · have hnone : c key.encoded = none := by rw [← hm]; exact LockMap.locks_of_get_none hget
        simp [LockEvent.apply, hnone, hm]
      · have hl : c key.encoded = some l := by rw [← hm]; exact LockMap.locks_of_get hget
        simp [LockEvent.apply, hl, hne cap l hget, hm]

theorem feed_prepared {es : List LockEvent} {rs : List CallResult}
    (hd : d.lock_tracker = .Prepared m) (h : d.feed es = some (rs, d')) (hok : AllOk rs) :
    ∃ m', d'.lock_tracker = .Prepared m' ∧
      (m.locks = c → Feasible c es → m'.locks = apply_all c es) ∧
      ∀ t, (m'.tracked_at t : Int) = m.tracked_at t + results_at rs t := by
  induction es generalizing d m c rs with
  | nil =>
    cases h
    exact ⟨m, hd, fun hm _ => hm, fun t => by simp [results_at]⟩
  | cons e es ih =>
    obtain ⟨r, d₁, rs', he, hf, rfl⟩ := Delegate.feed_cons h
    obtain ⟨⟨ds, rfl⟩, hok'⟩ := hok.cons
    obtain ⟨m₁, hd₁, hlocks₁, hcount₁⟩ := feed_to_prepared (c := c) hd he
    obtain ⟨m', hd', hlocks', hcount'⟩ := ih (c := e.apply c) hd₁ hf hok'
    refine ⟨m', hd', fun hm hes => hlocks' (hlocks₁ hm hes.1) hes.2, fun t => ?_⟩
    rw [hcount', hcount₁]
    simp only [results_at, List.map_cons, List.sum_cons]
    omega

end Prepared


theorem Replays.finish {L0 : LockMap} {c : LockCf} {ps : List PendingLock} {d : Delegate}
    (hd : d.lock_tracker = .Preparing ps) (hr : Replays L0 c ps) :
    ∃ r d', d.finish_prepare_lock_tracker L0 = some (r, d') ∧
      (r = .ok () → ∃ m, d'.lock_tracker = .Prepared m ∧ m.locks = c) := by
  obtain ⟨m, hf, hm⟩ := hr
  rw [Delegate.finish_prepare_lock_tracker_of_replay hd hf]
  dsimp only
  split
  · exact ⟨_, _, rfl, fun h => by cases h⟩
  · exact ⟨_, _, rfl, fun _ => ⟨m, rfl, hm⟩⟩

/-- The lock tracker follows the lock column family: for scanned locks \x60L0\x60, events fed while
the tracker prepares and then once it is prepared, each possible in the column family and each
call succeeding, the finish never fails its assertion; once prepared, the tracked locks are the
column family's after every event, and the counts returned add up, per ts, to the change in the
number of tracked keys of that ts. -/
theorem lock_tracker_mirrors_lock_cf (q : MemoryQuota) (L0 : LockMap) (es₁ es₂ : List LockEvent)
    (hes : Feasible L0.locks (es₁ ++ es₂)) {rs₁ : List CallResult} {d₁ : Delegate}
    (h₁ : (Delegate.new q).init_lock_tracker.2.feed es₁ = some (rs₁, d₁)) (hok₁ : AllOk rs₁) :
    ∃ r d₂, d₁.finish_prepare_lock_tracker L0 = some (r, d₂) ∧
      (r = .ok () → ∃ m₂, d₂.lock_tracker = .Prepared m₂ ∧ m₂.locks = apply_all L0.locks es₁ ∧
        ∀ rs₂ d₃, d₂.feed es₂ = some (rs₂, d₃) → AllOk rs₂ →
          ∃ m₃, d₃.lock_tracker = .Prepared m₃ ∧ m₃.locks = apply_all L0.locks (es₁ ++ es₂) ∧
            ∀ t, (m₃.tracked_at t : Int) = m₂.tracked_at t + results_at rs₂ t) := by
  obtain ⟨hes₁, hes₂⟩ := hes.append
  obtain ⟨ps, hd₁, hr⟩ := Replays.scanned.feed rfl hes₁ h₁ hok₁
  obtain ⟨r, d₂, hfin, hprep⟩ := hr.finish hd₁
  refine ⟨r, d₂, hfin, fun hr => ?_⟩
  obtain ⟨m₂, hd₂, hm₂⟩ := hprep hr
  refine ⟨m₂, hd₂, hm₂, fun rs₂ d₃ h₂ hok₂ => ?_⟩
  obtain ⟨m₃, hd₃, hlocks, hcount⟩ := feed_prepared (c := apply_all L0.locks es₁) hd₂ h₂ hok₂
  exact ⟨m₃, hd₃, by rw [apply_all_append]; exact hlocks hm₂ hes₂, hcount⟩

/-- The source's own run: scanned locks on 1, 2 and 3 at ts 100, a Track of 1, an Untrack of 1
at 99 and at 100 and a Track of 2 while preparing, then an Untrack of 2 and a Track of 1 at
300 once prepared. -/
theorem lock_tracker_mirrors_lock_cf_test_run :
    Feasible (⟨[([1], 17, ⟨100, 0⟩), ([2], 17, ⟨100, 0⟩), ([3], 17, ⟨100, 0⟩)], by decide⟩ :
        LockMap).locks
      ([.Track ⟨[1], 100⟩ ⟨100, 0⟩, .Untrack ⟨[1], 17⟩ 99, .Untrack ⟨[1], 17⟩ 100,
        .Track ⟨[2], 200⟩ ⟨100, 0⟩] ++ [.Untrack ⟨[2], 17⟩ 100, .Track ⟨[1], 17⟩ ⟨300, 0⟩]) ∧
      ∃ rs₁ d₁, (Delegate.new ⟨0, 1000⟩).init_lock_tracker.2.feed
          [.Track ⟨[1], 100⟩ ⟨100, 0⟩, .Untrack ⟨[1], 17⟩ 99, .Untrack ⟨[1], 17⟩ 100,
            .Track ⟨[2], 200⟩ ⟨100, 0⟩] = some (rs₁, d₁) ∧ AllOk rs₁ ∧
        ∃ r d₂, d₁.finish_prepare_lock_tracker
            ⟨[([1], 17, ⟨100, 0⟩), ([2], 17, ⟨100, 0⟩), ([3], 17, ⟨100, 0⟩)], by decide⟩ =
            some (r, d₂) ∧
          (r = .ok () → ∃ m₂, d₂.lock_tracker = .Prepared m₂ ∧
            m₂.locks = apply_all (⟨[([1], 17, ⟨100, 0⟩), ([2], 17, ⟨100, 0⟩), ([3], 17, ⟨100, 0⟩)],
              by decide⟩ : LockMap).locks
              [.Track ⟨[1], 100⟩ ⟨100, 0⟩, .Untrack ⟨[1], 17⟩ 99, .Untrack ⟨[1], 17⟩ 100,
                .Track ⟨[2], 200⟩ ⟨100, 0⟩] ∧
            ∀ rs₂ d₃, d₂.feed [.Untrack ⟨[2], 17⟩ 100, .Track ⟨[1], 17⟩ ⟨300, 0⟩] = some (rs₂, d₃) →
              AllOk rs₂ → ∃ m₃, d₃.lock_tracker = .Prepared m₃ ∧
                m₃.locks = apply_all (⟨[([1], 17, ⟨100, 0⟩), ([2], 17, ⟨100, 0⟩),
                  ([3], 17, ⟨100, 0⟩)], by decide⟩ : LockMap).locks
                  ([.Track ⟨[1], 100⟩ ⟨100, 0⟩, .Untrack ⟨[1], 17⟩ 99, .Untrack ⟨[1], 17⟩ 100,
                    .Track ⟨[2], 200⟩ ⟨100, 0⟩] ++
                    [.Untrack ⟨[2], 17⟩ 100, .Track ⟨[1], 17⟩ ⟨300, 0⟩]) ∧
                ∀ t, (m₃.tracked_at t : Int) = m₂.tracked_at t + results_at rs₂ t) := by
  have hes : Feasible (⟨[([1], 17, ⟨100, 0⟩), ([2], 17, ⟨100, 0⟩), ([3], 17, ⟨100, 0⟩)],
      by decide⟩ : LockMap).locks
      ([.Track ⟨[1], 100⟩ ⟨100, 0⟩, .Untrack ⟨[1], 17⟩ 99, .Untrack ⟨[1], 17⟩ 100,
        .Track ⟨[2], 200⟩ ⟨100, 0⟩] ++ [.Untrack ⟨[2], 17⟩ 100, .Track ⟨[1], 17⟩ ⟨300, 0⟩]) := by
    decide
  have h₁ : (Delegate.new ⟨0, 1000⟩).init_lock_tracker.2.feed
      [.Track ⟨[1], 100⟩ ⟨100, 0⟩, .Untrack ⟨[1], 17⟩ 99, .Untrack ⟨[1], 17⟩ 100,
        .Track ⟨[2], 200⟩ ⟨100, 0⟩] =
      some ([.ok [], .ok [], .ok [], .ok []], ⟨⟨334, 1000⟩, .Preparing
        [.Track ⟨[1], 100⟩ ⟨100, 0⟩, .Untrack ⟨[1], 17⟩ 99, .Untrack ⟨[1], 17⟩ 100,
          .Track ⟨[2], 200⟩ ⟨100, 0⟩]⟩) := rfl
  have hok : AllOk [.ok [], .ok [], .ok [], .ok []] := by
    simp [AllOk]
  exact ⟨hes, _, _, h₁, hok, lock_tracker_mirrors_lock_cf _ _ _ _ hes h₁ hok⟩

/-! ### The memory quota -/

def LockTracker.held : LockTracker → Nat
  | .Pending => 0
  | .Preparing locks => (locks.map PendingLock.approximate_heap_size).sum
  | .Prepared locks => locks.heap_size

/-- The quota holds, above the bytes \x60base\x60 of its other users, exactly what the tracker
keeps, and the capacity is within the largest allocation, so that no free is ignored. -/
structure QuotaInv (base : Int) (d : Delegate) : Prop where
  base_nonneg : 0 ≤ base
  in_use : d.memory_quota.in_use = base + d.lock_tracker.held
  fits : d.memory_quota.in_use ≤ d.memory_quota.capacity
  capacity_le : d.memory_quota.capacity ≤ MAX_MEMORY_ALLOC_SIZE

namespace QuotaInv

variable {base : Int} {d d' : Delegate}

theorem free_in_use (hi : QuotaInv base d) {bytes : Nat} (hb : bytes ≤ d.lock_tracker.held) :
    (d.memory_quota.free bytes).in_use = d.memory_quota.in_use - bytes := by
  have hcap := hi.capacity_le
  have hfits := hi.fits
  have hin := hi.in_use
  have hbase := hi.base_nonneg
  apply MemoryQuota.free_in_use <;> omega

theorem of_free (hi : QuotaInv base d) {bytes : Nat} {t : LockTracker}
    (ht : t.held + bytes = d.lock_tracker.held) :
    QuotaInv base ⟨d.memory_quota.free bytes, t⟩ := by
  have hfree := hi.free_in_use (by omega : bytes ≤ d.lock_tracker.held)
  have hin := hi.in_use
  have hfits := hi.fits
  refine ⟨hi.base_nonneg, ?_, ?_, ?_⟩
  · simp only [hfree]
    omega
  · simp only [hfree, MemoryQuota.free_capacity]
    omega
  · simpa [MemoryQuota.free_capacity] using hi.capacity_le

theorem of_alloc (hi : QuotaInv base d) {bytes : Nat} {q : MemoryQuota}
    (ha : d.memory_quota.alloc bytes = .ok q) {t : LockTracker}
    (ht : t.held = d.lock_tracker.held + bytes) : QuotaInv base ⟨q, t⟩ := by
  obtain ⟨hroom, -, rfl⟩ := MemoryQuota.alloc_ok_iff.mp ha
  have hin := hi.in_use
  exact ⟨hi.base_nonneg, by simp only; push_cast [ht]; omega, by simp only; omega, hi.capacity_le⟩

theorem init (hi : QuotaInv base d) : QuotaInv base d.init_lock_tracker.2 := by
  unfold Delegate.init_lock_tracker
  split
  · rename_i hd
    exact ⟨hi.base_nonneg, by simpa [hd, LockTracker.held] using hi.in_use, hi.fits, hi.capacity_le⟩
  · exact hi

theorem pop_lock (hi : QuotaInv base d) {key : HeldKey} {start_ts : UInt64} {r : CallResult}
    (h : d.pop_lock key start_ts = some (r, d')) : QuotaInv base d' := by
  cases hd : d.lock_tracker with
  | Pending => simp [Delegate.pop_lock, hd] at h
  | Preparing ps =>
    rcases Delegate.pop_lock_preparing hd h with ⟨q, ha, -, rfl⟩ | ⟨-, -, rfl⟩
    · exact hi.of_alloc ha (by simp [LockTracker.held, hd, PendingLock.approximate_heap_size,
        HeldKey.approximate_heap_size])
    · exact hi
  | Prepared m =>
    rcases Delegate.pop_lock_prepared hd h with ⟨c, l, hget, -, -, rfl⟩ | ⟨-, -, rfl⟩
    · -- the bytes of the key the map held go back
      have hsize := LockMap.heap_size_remove hget
      have hheld : d.lock_tracker.held = m.heap_size := by rw [hd]; rfl
      exact hi.of_free (t := .Prepared (m.remove key)) (by
        rw [hheld]
        simp only [LockTracker.held]
        omega)
    · exact hi

theorem push_lock (hi : QuotaInv base d) {key : HeldKey} {lock : MiniLock} {r : CallResult}
    (h : d.push_lock key lock = some (r, d')) :
    QuotaInv base d' ∨
      ∃ m, d.lock_tracker = .Prepared m ∧ m.get key.encoded = none ∧ r = .error ⟨⟩ := by
  cases hd : d.lock_tracker with
  | Pending => simp [Delegate.push_lock, hd] at h
  | Preparing ps =>
    rcases Delegate.push_lock_preparing hd h with ⟨q, ha, -, rfl⟩ | ⟨-, -, rfl⟩
    · exact Or.inl (hi.of_alloc ha (by simp [LockTracker.held, hd,
        PendingLock.approximate_heap_size, HeldKey.approximate_heap_size]))
    · exact Or.inl hi
  | Prepared m =>
    rcases Delegate.push_lock_prepared hd h with
      ⟨-, -, -, -, -, rfl⟩ | ⟨-, -, -, -, -, rfl⟩ | ⟨hget, ⟨q, ha, -, rfl⟩ | ⟨-, hr, -⟩⟩
    · exact Or.inl ⟨hi.base_nonneg, by simpa [LockTracker.held, hd, LockMap.heap_size_set] using
        hi.in_use, hi.fits, hi.capacity_le⟩
    · exact Or.inl hi
    · exact Or.inl (hi.of_alloc ha (by simp [LockTracker.held, hd, LockMap.heap_size_insert hget]))
    · exact Or.inr ⟨m, rfl, hget, hr⟩

theorem finish (hi : QuotaInv base d) {L0 : LockMap} {r : Except MemoryQuotaExceeded Unit}
    (h : d.finish_prepare_lock_tracker L0 = some (r, d')) : QuotaInv base d' := by
  obtain ⟨ps, m, hd, hf⟩ := Delegate.finish_prepare_lock_tracker_replays h
  rw [Delegate.finish_prepare_lock_tracker_of_replay hd hf] at h
  dsimp only at h
  have hheld : d.lock_tracker.held = (ps.map PendingLock.approximate_heap_size).sum := by
    rw [hd]; rfl
  -- once the deltas' bytes are freed the quota holds the base alone
  have hpending : QuotaInv base ⟨d.memory_quota.free (ps.map PendingLock.approximate_heap_size).sum,
      .Pending⟩ := hi.of_free (by rw [hheld]; simp [LockTracker.held])
  split at h
  · cases h
    exact hpending
  · cases h
    exact hpending.of_alloc ‹_› (by simp [LockTracker.held])

theorem drop (hi : QuotaInv base d) : d.drop.in_use = base := by
  have hin := hi.in_use
  unfold Delegate.drop
  split
  · rename_i hd
    simpa [hd, LockTracker.held] using hin
  · rename_i ps hd
    rw [hi.free_in_use (by rw [hd]; exact Nat.le_refl _), hin, hd]
    simp [LockTracker.held]
  · rename_i m hd
    rw [hi.free_in_use (by rw [hd]; exact Nat.le_refl _), hin, hd]
    simp [LockTracker.held]

end QuotaInv

/-- The calls on a delegate, but for a push of an untracked key once prepared that the quota
refuses. -/
inductive QuotaStep : Delegate → Delegate → Prop
  | push {d d' : Delegate} {key : HeldKey} {lock : MiniLock} {r : CallResult}
      (h : d.push_lock key lock = some (r, d'))
      (hkept : ∀ m, d.lock_tracker = .Prepared m → m.get key.encoded = none → ∃ ds, r = .ok ds) :
      QuotaStep d d'
  | pop {d d' : Delegate} {key : HeldKey} {start_ts : UInt64} {r : CallResult}
      (h : d.pop_lock key start_ts = some (r, d')) : QuotaStep d d'
  | finish {d d' : Delegate} {L0 : LockMap} {r : Except MemoryQuotaExceeded Unit}
      (h : d.finish_prepare_lock_tracker L0 = some (r, d')) : QuotaStep d d'
  | init (d : Delegate) : QuotaStep d d.init_lock_tracker.2

theorem QuotaInv.step {base : Int} {d d' : Delegate} (hi : QuotaInv base d) (h : QuotaStep d d') :
    QuotaInv base d' := by
  cases h with
  | push h hkept =>
    rcases hi.push_lock h with hi' | ⟨m, hd, hget, rfl⟩
    · exact hi'
    · obtain ⟨ds, hds⟩ := hkept m hd hget
      cases hds
  | pop h => exact hi.pop_lock h
  | finish h => exact hi.finish h
  | init => exact hi.init

/-- Over every run of calls that has no refused push of an untracked key once prepared, the
quota holds exactly the heap sizes of what the tracker keeps above what it held before, failed
calls included, and Drop frees exactly that. -/
theorem quota_holds_tracked_bytes (q : MemoryQuota) (hq : 0 ≤ q.in_use)
    (hfits : q.in_use ≤ q.capacity) (hcap : q.capacity ≤ MAX_MEMORY_ALLOC_SIZE) {d : Delegate}
    (h : Relation.ReflTransGen QuotaStep (Delegate.new q) d) :
    d.memory_quota.in_use = q.in_use + d.lock_tracker.held ∧ d.drop.in_use = q.in_use := by
  have hinv : QuotaInv q.in_use d := by
    induction h with
    | refl => exact ⟨hq, by simp [Delegate.new, LockTracker.held], hfits, hcap⟩
    | tail _ hstep ih => exact ih.step hstep
  exact ⟨hinv.in_use, hinv.drop⟩

/-- A run on a quota with 5 of 100 bytes held by others: a push of a key of 10 bytes while
preparing, then the finish over no scanned lock, which tracks the key. -/
theorem quota_holds_tracked_bytes_after_finish :
    0 ≤ (⟨5, 100⟩ : MemoryQuota).in_use ∧
      (⟨5, 100⟩ : MemoryQuota).in_use ≤ (⟨5, 100⟩ : MemoryQuota).capacity ∧
      (⟨5, 100⟩ : MemoryQuota).capacity ≤ MAX_MEMORY_ALLOC_SIZE ∧
      Relation.ReflTransGen QuotaStep (Delegate.new ⟨5, 100⟩)
        ⟨⟨15, 100⟩, .Prepared ⟨[([1], 10, ⟨7, 0⟩)], by decide⟩⟩ ∧
      (15 : Int) = (⟨5, 100⟩ : MemoryQuota).in_use +
        LockTracker.held (.Prepared ⟨[([1], 10, ⟨7, 0⟩)], by decide⟩) ∧
      (Delegate.drop ⟨⟨15, 100⟩, .Prepared ⟨[([1], 10, ⟨7, 0⟩)], by decide⟩⟩).in_use = 5 := by
  have hpush : QuotaStep (Delegate.new ⟨5, 100⟩).init_lock_tracker.2
      ⟨⟨15, 100⟩, .Preparing [.Track ⟨[1], 10⟩ ⟨7, 0⟩]⟩ :=
    @QuotaStep.push _ _ ⟨[1], 10⟩ ⟨7, 0⟩ (.ok []) rfl
      (fun _ h => by simp [Delegate.init_lock_tracker, Delegate.new] at h)
  have hrun : Relation.ReflTransGen QuotaStep (Delegate.new ⟨5, 100⟩)
      ⟨⟨15, 100⟩, .Prepared ⟨[([1], 10, ⟨7, 0⟩)], by decide⟩⟩ :=
    ((Relation.ReflTransGen.single (QuotaStep.init _)).tail hpush).tail
      (@QuotaStep.finish _ _ LockMap.empty (.ok ()) rfl)
  obtain ⟨hin, hdrop⟩ := quota_holds_tracked_bytes _ (by decide) (by decide) (by decide) hrun
  exact ⟨by decide, by decide, by decide, hrun, hin, hdrop⟩

/-- A push of an untracked key once prepared that the quota refuses: with 20 of 30 bytes held by
others, the key of 17 bytes is tracked but not charged, no count is returned for it, and Drop
frees its 17 bytes, leaving 3 while the others still hold 20. -/
theorem push_lock_refused_leaves_key_uncharged :
    ∃ d₂ d₃, (Delegate.new ⟨20, 30⟩).init_lock_tracker.2.finish_prepare_lock_tracker
        LockMap.empty = some (.ok (), d₂) ∧
      d₂.push_lock ⟨[1], 17⟩ ⟨5, 0⟩ = some (.error ⟨⟩, d₃) ∧
      d₃.lock_tracker.held = 17 ∧ d₃.memory_quota.in_use = 20 ∧ d₃.drop.in_use = 3 :=
  ⟨_, _, rfl, rfl, rfl, rfl, rfl⟩

end Tikv.Cdc
