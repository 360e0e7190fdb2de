import Tikv.Scheduler.Latches

/-!
The latches seen per key hash: `queue ls h` lists, in order, the commands of the live entries
of hash `h` in the slot of `h`. Holes and entries of other hashes sharing the slot do not
show, and every latch operation is specified by its effect on these queues.
-/

namespace Tikv.Scheduler

open Tikv.Lib.HoleQueue

def Latch.queue (l : Latch) (hash : Nat) : List Nat :=
  ((live l.waiting).filter (fun e => e.1 == hash)).map Prod.snd

theorem get_first_req_by_hash_eq (l : Latch) (hash : Nat) :
    l.get_first_req_by_hash hash = (l.queue hash).head? := by
  simp [Latch.get_first_req_by_hash, Latch.queue, List.head?_map]

theorem queue_wait_for_wake (l : Latch) (k c h : Nat) :
    (l.wait_for_wake k c).queue h = l.queue h ++ if k = h then [c] else [] := by
  by_cases hk : k = h <;> simp [Latch.wait_for_wake, Latch.queue, hk]

theorem queue_push_preemptive (l : Latch) (k c h : Nat) :
    (l.push_preemptive k c).queue h = if k = h then c :: l.queue h else l.queue h := by
  by_cases hk : k = h <;> simp [Latch.push_preemptive, Latch.queue, hk]

theorem pop_front_spec (l : Latch) (k : Nat) :
    (l.pop_front k).1 = (live l.waiting).find? (fun e => e.1 == k) ∧
      live (l.pop_front k).2.waiting = (live l.waiting).eraseP (fun e => e.1 == k) := by
  unfold Latch.pop_front
  split
  · rename_i h; simp [h]
  · rename_i rest h; simp [h, takeFirst_fst, live_takeFirst]
  · rename_i k' cid rest h
    by_cases hk : k' = k
    · simp [h, hk, Latch.maybe_shrink, live_dropWhile_isNone]
    · simp [h, hk, takeFirst_fst, live_takeFirst]

theorem pop_front_fst (l : Latch) (k : Nat) :
    (l.pop_front k).1 = (l.queue k).head?.map (fun c => (k, c)) := by
  rw [(pop_front_spec l k).1, Latch.queue, List.head?_map, List.head?_filter]
  cases hf : (live l.waiting).find? (fun e => e.1 == k) with
  | none => rfl
  | some e =>
    obtain ⟨k', c⟩ := e
    have he : k' = k := by simpa using List.find?_some hf
    simp [he]

theorem queue_pop_front (l : Latch) (k h : Nat) :
    (l.pop_front k).2.queue h = if h = k then (l.queue h).tail else l.queue h := by
  simp only [Latch.queue, (pop_front_spec l k).2]
  by_cases hk : h = k
  · subst hk
    rw [filter_eraseP_self]
    simp [List.map_tail]
  · rw [filter_eraseP_of_disjoint]
    · simp [hk]
    · intro e he
      simp only [beq_iff_eq] at he
      simp only [beq_eq_false_iff_ne, ne_eq, he]
      exact hk

def Latches.queue (ls : Latches) (hash : Nat) : List Nat := (ls.lock_latch hash).queue hash

theorem get_first_req_by_hash_lock_latch (ls : Latches) (k : Nat) :
    (ls.lock_latch k).get_first_req_by_hash k = (ls.queue k).head? :=
  get_first_req_by_hash_eq _ _

theorem pop_front_lock_latch (ls : Latches) (k : Nat) :
    ((ls.lock_latch k).pop_front k).1 = (ls.queue k).head?.map (fun c => (k, c)) :=
  pop_front_fst _ _

@[simp] theorem slot_set_latch (ls : Latches) (k h : Nat) (latch : Latch) :
    (ls.set_latch k latch).slot h = ls.slot h := rfl

theorem queue_set_latch (ls : Latches) (k h : Nat) (latch : Latch) :
    (ls.set_latch k latch).queue h =
      if ls.slot h = ls.slot k then latch.queue h else ls.queue h := by
  simp only [Latches.queue, Latches.lock_latch, slot_set_latch]
  by_cases hs : ls.slot h = ls.slot k
  · simp [Latches.set_latch, hs]
  · simp [Latches.set_latch, hs]

def HashLocal (k : Nat) (f : Latch → Latch) : Prop := ∀ l h, h ≠ k → (f l).queue h = l.queue h

theorem queue_update {ls : Latches} {k : Nat} {f : Latch → Latch} (hf : HashLocal k f) (h : Nat) :
    (ls.set_latch k (f (ls.lock_latch k))).queue h =
      if h = k then (f (ls.lock_latch k)).queue k else ls.queue h := by
  rw [queue_set_latch]
  by_cases hk : h = k
  · subst hk; simp
  · by_cases hs : ls.slot h = ls.slot k
    · have hl : ls.lock_latch k = ls.lock_latch h := by simp [Latches.lock_latch, hs]
      simp [hs, hk, hf _ _ hk, hl, Latches.queue]
    · simp [hs, hk]

theorem hashLocal_wait_for_wake (k c : Nat) : HashLocal k (fun l => l.wait_for_wake k c) := by
  intro l h hk
  simp [queue_wait_for_wake, Ne.symm hk]

theorem hashLocal_pop_front (k : Nat) : HashLocal k (fun l => (l.pop_front k).2) := by
  intro l h hk
  simp [queue_pop_front, hk]

theorem hashLocal_pop_push (k c : Nat) :
    HashLocal k (fun l => (l.pop_front k).2.push_preemptive k c) := by
  intro l h hk
  simp [queue_push_preemptive, queue_pop_front, hk, Ne.symm hk]

end Tikv.Scheduler
