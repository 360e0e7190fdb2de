import Tikv.Lib.SortedList

/-!
The read progress of a region on a follower (src/components/raftstore/src/store/util.rs): the
`(apply_index, safe_ts)` items the leader publishes wait in `pending_items` until the peer has
applied their index; `read_state` is the newest one it has applied, and `safe_ts` the
timestamp published to stale reads.

A `VecDeque` is a list whose head is its front. Whether `push_back` finds the queue at its
capacity depends on how the deque has grown, so it is an argument here. The diagnostic
instants, the leader info and `read_index_safe_ts` are left out.
-/

namespace Tikv.ReadProgress

open Tikv.Lib.SortedList

structure ReadState where
  idx : Nat
  ts : Nat
  deriving DecidableEq, Repr

structure RegionReadProgressCore where
  applied_index : Nat
  read_state : ReadState
  pending_items : List ReadState
  last_merge_index : Nat
  pause : Bool
  discard : Bool
  deriving DecidableEq, Repr

/-- A witness peer never serves stale reads. -/
def RegionReadProgressCore.new (applied_index : Nat) (is_witness : Bool) :
    RegionReadProgressCore :=
  ⟨applied_index, ⟨0, 0⟩, [], 0, is_witness, is_witness⟩

def consume_pending (applied : Nat) : ReadState → List ReadState → ReadState × List ReadState
  | to_update, [] => (to_update, [])
  | to_update, item :: rest =>
    if applied < item.idx then (to_update, item :: rest)
    else consume_pending applied (if to_update.ts < item.ts then item else to_update) rest

/-- `none` where the source's `assert!(applied >= self.applied_index)` fails. -/
def RegionReadProgressCore.update_applied (c : RegionReadProgressCore) (applied : Nat) :
    Option (Option Nat × RegionReadProgressCore) :=
  if applied < c.applied_index then none
  else
    let r := consume_pending applied c.read_state c.pending_items
    let c := { c with applied_index := applied, pending_items := r.2 }
    if c.read_state.ts < r.1.ts then some (some r.1.ts, { c with read_state := r.1 })
    else some (none, c)

def RegionReadProgressCore.merge_safe_ts (c : RegionReadProgressCore)
    (source_safe_ts merge_index : Nat) : Option (Option Nat × RegionReadProgressCore) :=
  (c.update_applied merge_index).map fun (_, c) =>
    let c := { c with last_merge_index := merge_index }
    let target_safe_ts := c.read_state.ts
    let c := { c with read_state := { c.read_state with ts := min source_safe_ts target_safe_ts } }
    if c.read_state.ts ≠ target_safe_ts then (some c.read_state.ts, c) else (none, c)

def RegionReadProgressCore.push_back (c : RegionReadProgressCore) (item : ReadState)
    (at_capacity : Bool) : RegionReadProgressCore :=
  { c with pending_items :=
      (if at_capacity then everyOther c.pending_items else c.pending_items) ++ [item] }

def RegionReadProgressCore.update_safe_ts (c : RegionReadProgressCore) (idx ts : Nat)
    (at_capacity : Bool) : Option Nat × RegionReadProgressCore :=
  if idx < c.last_merge_index then (none, c)
  else if idx ≤ c.applied_index then
    if c.read_state.ts < ts then (some ts, { c with read_state := ⟨idx, ts⟩ }) else (none, c)
  else
    match c.pending_items.getLast? with
    | some prev_item =>
      if ts ≤ prev_item.ts then (none, c)
      else if idx ≤ prev_item.idx then
        (none, { c with pending_items := c.pending_items.dropLast ++ [{ prev_item with ts }] })
      else (none, c.push_back ⟨idx, ts⟩ at_capacity)
    | none => (none, c.push_back ⟨idx, ts⟩ at_capacity)

structure RegionReadProgress where
  core : RegionReadProgressCore
  safe_ts : Nat
  deriving DecidableEq, Repr

def RegionReadProgress.new (applied_index : Nat) (is_witness : Bool) : RegionReadProgress :=
  ⟨RegionReadProgressCore.new applied_index is_witness, 0⟩

def RegionReadProgress.store_updated (p : RegionReadProgress) (updated : Option Nat)
    (core : RegionReadProgressCore) : RegionReadProgress :=
  ⟨core, match updated with
    | some ts => if core.pause then p.safe_ts else ts
    | none => p.safe_ts⟩

def RegionReadProgress.update_applied (p : RegionReadProgress) (applied : Nat) :
    Option RegionReadProgress :=
  (p.core.update_applied applied).map fun r => p.store_updated r.1 r.2

def RegionReadProgress.update_safe_ts_with_time (p : RegionReadProgress) (apply_index ts : Nat)
    (at_capacity : Bool) : RegionReadProgress :=
  if apply_index = 0 ∨ ts = 0 then p
  else if p.core.discard then p
  else
    let r := p.core.update_safe_ts apply_index ts at_capacity
    p.store_updated r.1 r.2

def RegionReadProgress.merge_safe_ts (p : RegionReadProgress) (source_safe_ts merge_index : Nat) :
    Option RegionReadProgress :=
  (p.core.merge_safe_ts source_safe_ts merge_index).map fun r => p.store_updated r.1 r.2

def RegionReadProgress.consume_leader_info (p : RegionReadProgress)
    (read_state : Option ReadState) (at_capacity : Bool) : RegionReadProgress :=
  match read_state with
  | none => p
  | some rs =>
    if rs.idx ≠ 0 ∧ rs.ts ≠ 0 ∧ p.core.discard = false then
      let r := p.core.update_safe_ts rs.idx rs.ts at_capacity
      p.store_updated r.1 r.2
    else p

def RegionReadProgress.pause (p : RegionReadProgress) : RegionReadProgress :=
  ⟨{ p.core with pause := true }, 0⟩

def RegionReadProgress.discard (p : RegionReadProgress) : RegionReadProgress :=
  ⟨{ p.core with pause := true, discard := true }, p.safe_ts⟩

def RegionReadProgress.resume (p : RegionReadProgress) : RegionReadProgress :=
  ⟨{ p.core with pause := false, discard := false }, p.core.read_state.ts⟩

inductive Op
  | update_applied (applied : Nat)
  | update_safe_ts (apply_index ts : Nat) (at_capacity : Bool)
  | consume_leader_info (read_state : Option ReadState) (at_capacity : Bool)
  | merge_safe_ts (source_safe_ts merge_index : Nat)
  | pause
  | discard
  | resume
  deriving DecidableEq, Repr

def Op.is_merge : Op → Bool
  | .merge_safe_ts _ _ => true
  | _ => false

/-- `none` where a call panics. -/
def RegionReadProgress.step (p : RegionReadProgress) : Op → Option RegionReadProgress
  | .update_applied applied => p.update_applied applied
  | .update_safe_ts apply_index ts at_capacity =>
    some (p.update_safe_ts_with_time apply_index ts at_capacity)
  | .consume_leader_info read_state at_capacity =>
    some (p.consume_leader_info read_state at_capacity)
  | .merge_safe_ts source_safe_ts merge_index => p.merge_safe_ts source_safe_ts merge_index
  | .pause => some p.pause
  | .discard => some p.discard
  | .resume => some p.resume

section Spec

variable {c c' : RegionReadProgressCore} {r : Option Nat}

theorem consume_pending_split (applied : Nat) (acc : ReadState) (l : List ReadState) :
    ∃ pre, l = pre ++ (consume_pending applied acc l).2 ∧ ∀ x ∈ pre, x.idx ≤ applied := by
  induction l generalizing acc with
  | nil => exact ⟨[], rfl, by simp⟩
  | cons item rest ih =>
    rw [consume_pending]
    split
    · exact ⟨[], rfl, by simp⟩
    · rename_i hle
      obtain ⟨pre, hpre, hpre_le⟩ := ih (if acc.ts < item.ts then item else acc)
      refine ⟨item :: pre, by rw [List.cons_append, ← hpre], ?_⟩
      exact List.forall_mem_cons.mpr ⟨by omega, hpre_le⟩

theorem consume_pending_rest (applied : Nat) (acc : ReadState) (l : List ReadState) :
    ∀ x, (consume_pending applied acc l).2.head? = some x → applied < x.idx := by
  induction l generalizing acc with
  | nil => simp [consume_pending]
  | cons item rest ih =>
    rw [consume_pending]
    split
    · rename_i hlt
      intro x hx
      cases hx
      exact hlt
    · exact ih _

theorem consume_pending_best (applied : Nat) (acc : ReadState) (l : List ReadState) :
    (consume_pending applied acc l).1 = acc ∨
      ((consume_pending applied acc l).1 ∈ l ∧ (consume_pending applied acc l).1.idx ≤ applied) := by
  induction l generalizing acc with
  | nil => exact Or.inl rfl
  | cons item rest ih =>
    rw [consume_pending]
    split
    · exact Or.inl rfl
    · rename_i hle
      rcases ih (if acc.ts < item.ts then item else acc) with h | ⟨hm, hidx⟩
      · rw [h]
        split
        · exact Or.inr ⟨List.mem_cons_self, by omega⟩
        · exact Or.inl rfl
      · exact Or.inr ⟨List.mem_cons_of_mem _ hm, hidx⟩

theorem update_applied_eq_some {applied : Nat} (h : c.update_applied applied = some (r, c')) :
    c.applied_index ≤ applied ∧
      c' = { c with
        applied_index := applied
        pending_items := (consume_pending applied c.read_state c.pending_items).2
        read_state :=
          if c.read_state.ts < (consume_pending applied c.read_state c.pending_items).1.ts
          then (consume_pending applied c.read_state c.pending_items).1 else c.read_state } ∧
      r = if c.read_state.ts < (consume_pending applied c.read_state c.pending_items).1.ts
        then some (consume_pending applied c.read_state c.pending_items).1.ts else none := by
  dsimp only [RegionReadProgressCore.update_applied] at h
  split at h
  · cases h
  · rename_i hle
    refine ⟨by omega, ?_⟩
    split at h <;> (rename_i hlt; cases h; simp [hlt])

theorem merge_safe_ts_eq_some {source_safe_ts merge_index : Nat}
    (h : c.merge_safe_ts source_safe_ts merge_index = some (r, c')) :
    ∃ r1 c1, c.update_applied merge_index = some (r1, c1) ∧
      c' = { c1 with
        last_merge_index := merge_index
        read_state := ⟨c1.read_state.idx, min source_safe_ts c1.read_state.ts⟩ } ∧
      r = if min source_safe_ts c1.read_state.ts ≠ c1.read_state.ts
        then some (min source_safe_ts c1.read_state.ts) else none := by
  unfold RegionReadProgressCore.merge_safe_ts at h
  obtain ⟨⟨r1, c1⟩, hu, h⟩ := Option.map_eq_some_iff.mp h
  refine ⟨r1, c1, hu, ?_⟩
  dsimp only at h
  split at h <;> (rename_i hne; cases h; simp [hne])

theorem update_safe_ts_cases (idx ts : Nat) (at_capacity : Bool) :
    c.update_safe_ts idx ts at_capacity = (none, c) ∨
    (c.last_merge_index ≤ idx ∧ idx ≤ c.applied_index ∧ c.read_state.ts < ts ∧
      c.update_safe_ts idx ts at_capacity = (some ts, { c with read_state := ⟨idx, ts⟩ })) ∨
    (c.last_merge_index ≤ idx ∧ c.applied_index < idx ∧ ∃ prev, c.pending_items.getLast? = some prev ∧
      prev.ts < ts ∧ idx ≤ prev.idx ∧ c.update_safe_ts idx ts at_capacity =
        (none, { c with pending_items := c.pending_items.dropLast ++ [{ prev with ts }] })) ∨
    (c.last_merge_index ≤ idx ∧ c.applied_index < idx ∧
      (∀ prev, c.pending_items.getLast? = some prev → prev.ts < ts ∧ prev.idx < idx) ∧
      c.update_safe_ts idx ts at_capacity = (none, c.push_back ⟨idx, ts⟩ at_capacity)) := by
  unfold RegionReadProgressCore.update_safe_ts
  by_cases hm : idx < c.last_merge_index
  · simp [hm]
  by_cases ha : idx ≤ c.applied_index
  · by_cases hts : c.read_state.ts < ts
    · exact Or.inr (Or.inl ⟨by omega, ha, hts, by simp [hm, ha, hts]⟩)
    · simp [hm, ha, hts]
  cases hl : c.pending_items.getLast? with
  | none =>
    refine Or.inr (Or.inr (Or.inr ⟨by omega, by omega, by simp, by simp [hm, ha]⟩))
  | some prev =>
    by_cases hts : ts ≤ prev.ts
    · simp [hm, ha, hts]
    by_cases hidx : idx ≤ prev.idx
    · exact Or.inr (Or.inr (Or.inl ⟨by omega, by omega, prev, rfl, by omega, hidx,
        by simp [hm, ha, hts, hidx]⟩))
    · refine Or.inr (Or.inr (Or.inr ⟨by omega, by omega, ?_, by simp [hm, ha, hts, hidx]⟩))
      intro q hq
      cases hq
      omega

end Spec

end Tikv.ReadProgress
