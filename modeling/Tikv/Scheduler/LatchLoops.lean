import Tikv.Scheduler.LatchQueue

/-!
Specifications of the two loops of `Latches`, over the per-hash queues: `acquire_from`
appends the command to the queue of every hash it reaches and counts the ones it heads;
`release_from` pops the command from each hash it owns, hands kept hashes to the next
command and collects the new heads of the others.
-/

namespace Tikv.Scheduler

structure AcquireSpec (ls : Latches) (who : Nat) (hs : List Nat) (n : Nat) (ls' : Latches) :
    Prop where
  count_le : n ≤ hs.length
  queue_eq : ∀ h, ls'.queue h =
    ls.queue h ++ if h ∈ hs.take (n + 1) ∧ who ∉ ls.queue h then [who] else []
  head_acquired : ∀ h ∈ hs.take n, (ls'.queue h).head? = some who
  head_blocked : ∀ h, hs[n]? = some h → (ls'.queue h).head? ≠ some who

theorem queue_wait (ls : Latches) (k who h : Nat) :
    (ls.set_latch k ((ls.lock_latch k).wait_for_wake k who)).queue h =
      if h = k then ls.queue k ++ [who] else ls.queue h := by
  rw [queue_update (hashLocal_wait_for_wake k who)]
  by_cases hk : h = k <;> simp [hk, queue_wait_for_wake, Latches.queue]

theorem acquire_from_spec {who : Nat} : ∀ {hs : List Nat} {ls : Latches}, hs.Nodup →
    (∀ h ∈ hs, who ∈ ls.queue h → (ls.queue h).head? = some who) →
    AcquireSpec ls who hs (ls.acquire_from who hs).1 (ls.acquire_from who hs).2
  | [], ls, _, _ => ⟨by simp [Latches.acquire_from], by simp [Latches.acquire_from],
      by simp [Latches.acquire_from], by simp [Latches.acquire_from]⟩
  | k :: rest, ls, hnd, hwho => by
    obtain ⟨hk, hnd'⟩ := List.nodup_cons.mp hnd
    have hk' : ∀ h ∈ rest, h ≠ k := fun h hh hhk => hk (hhk ▸ hh)
    unfold Latches.acquire_from
    rw [get_first_req_by_hash_lock_latch]
    cases hq : (ls.queue k).head? with
    | some cid =>
      by_cases hc : cid = who
      · -- the command already heads `k`: it was woken up there
        subst hc
        have ih := acquire_from_spec hnd' (fun h hh => hwho h (List.mem_cons_of_mem _ hh))
        have hin : cid ∈ ls.queue k := List.mem_of_mem_head? hq
        simp only [if_true]
        refine ⟨by simpa using ih.count_le, fun h => ?_, fun h hh => ?_, fun h hh => ?_⟩
        · rw [ih.queue_eq h]
          by_cases hh : h = k
          · subst hh; simp [hin]
          · simp [hh]
        · rcases List.mem_cons.mp (by simpa using hh) with rfl | hh
          · rw [ih.queue_eq]; simp [hq]
          · exact ih.head_acquired h hh
        · exact ih.head_blocked h (by simpa using hh)
      · -- another command heads `k`: wait behind it and stop
        have hnot : who ∉ ls.queue k := fun hm => hc (by simpa [hq] using hwho k (by simp) hm)
        simp only [hc, if_false]
        refine ⟨by simp, fun h => ?_, by simp, fun h hh => ?_⟩
        · rw [queue_wait]
          by_cases hh : h = k
          · subst hh; simp [hnot]
          · simp [hh]
        · obtain rfl : k = h := by simpa using hh
          rw [queue_wait]
          have hne : ls.queue k ≠ [] := by intro he; simp [he] at hq
          simp [List.head?_append_of_ne_nil _ hne, hq, hc]
    | none =>
      -- nobody waits on `k`: the command is enqueued and heads it at once
      have he : ls.queue k = [] := List.head?_eq_none_iff.mp hq
      set ls1 := ls.set_latch k ((ls.lock_latch k).wait_for_wake k who)
      have h1 : ∀ h, ls1.queue h = if h = k then [who] else ls.queue h := by
        intro h; rw [queue_wait]; by_cases hh : h = k <;> simp [hh, he]
      have ih := @acquire_from_spec who rest ls1 hnd' (fun h hh hm => by
        rw [h1, if_neg (hk' h hh)] at hm ⊢; exact hwho h (List.mem_cons_of_mem _ hh) hm)
      refine ⟨by simpa using ih.count_le, fun h => ?_, fun h hh => ?_, fun h hh => ?_⟩
      · rw [ih.queue_eq h, h1]
        by_cases hh : h = k
        · subst hh; simp [he]
        · simp [hh]
      · rcases List.mem_cons.mp (by simpa using hh) with rfl | hh
        · rw [ih.queue_eq, h1]; simp
        · exact ih.head_acquired h hh
      · exact ih.head_blocked h (by simpa using hh)

structure ReleaseSpec (ls : Latches) (hs keep : List Nat) (keep_cid : Nat) (wakeup : List Nat)
    (ls' : Latches) : Prop where
  queue_eq : ∀ h, ls'.queue h =
    if h ∈ hs then (if h ∈ keep then keep_cid :: (ls.queue h).tail else (ls.queue h).tail)
    else ls.queue h
  wakeup_eq : wakeup = hs.filterMap (fun h => if h ∈ keep then none else (ls.queue h).tail.head?)

theorem queue_pop (ls : Latches) (k h : Nat) :
    (ls.set_latch k ((ls.lock_latch k).pop_front k).2).queue h =
      if h = k then (ls.queue k).tail else ls.queue h := by
  rw [queue_update (hashLocal_pop_front k)]
  by_cases hk : h = k <;> simp [hk, queue_pop_front, Latches.queue]

theorem queue_pop_push (ls : Latches) (k c h : Nat) :
    (ls.set_latch k (((ls.lock_latch k).pop_front k).2.push_preemptive k c)).queue h =
      if h = k then c :: (ls.queue k).tail else ls.queue h := by
  rw [queue_update (hashLocal_pop_push k c)]
  by_cases hk : h = k <;> simp [hk, queue_pop_front, queue_push_preemptive, Latches.queue]

theorem keep_step_of_subset {k : Nat} {rest keep : List Nat} (hs : (k :: rest).Pairwise (· < ·))
    (hkeep : keep.Pairwise (· < ·)) (hsub : ∀ h ∈ keep, h ∈ k :: rest) :
    ∃ b keep', keep_step k keep = some (b, keep') ∧ (b = true ↔ k ∈ keep) ∧
      keep'.Pairwise (· < ·) ∧ (∀ h ∈ keep', h ∈ rest) ∧ (∀ h, h ≠ k → (h ∈ keep' ↔ h ∈ keep)) := by
  have hlt : ∀ h ∈ rest, k < h := (List.pairwise_cons.mp hs).1
  cases keep with
  | nil => exact ⟨false, [], rfl, by simp, by simp, by simp, by simp⟩
  | cons next keep =>
    have hge : k ≤ next := by
      rcases List.mem_cons.mp (hsub next (by simp)) with h | h
      · omega
      · exact (hlt next h).le
    have hnext : ∀ h ∈ keep, next < h := (List.pairwise_cons.mp hkeep).1
    have hin : ∀ h ∈ keep, h ∈ rest := fun h hh => by
      rcases List.mem_cons.mp (hsub h (by simp [hh])) with rfl | h'
      · have := hnext h hh; omega
      · exact h'
    by_cases he : next = k
    · subst he
      refine ⟨true, keep, by simp [keep_step], by simp, (List.pairwise_cons.mp hkeep).2, hin, ?_⟩
      intro h hh; simp [hh]
    · have hk : k < next := lt_of_le_of_ne hge (Ne.symm he)
      refine ⟨false, next :: keep, by simp [keep_step, he, Nat.not_lt.mpr hge], ?_, hkeep, ?_,
        by simp⟩
      · simp only [Bool.false_eq_true, false_iff, List.mem_cons, not_or]
        exact ⟨fun h => he h.symm, fun h => by have := hnext k h; omega⟩
      · intro h hh
        rcases List.mem_cons.mp hh with rfl | hh
        · rcases List.mem_cons.mp (hsub h (by simp)) with h' | h'
          · omega
          · exact h'
        · exact hin h hh

theorem release_from_spec {who keep_cid : Nat} : ∀ {hs keep : List Nat} {ls : Latches},
    hs.Pairwise (· < ·) → keep.Pairwise (· < ·) → (∀ h ∈ keep, h ∈ hs) →
    (∀ h ∈ hs, (ls.queue h).head? = some who) →
    ∃ wakeup ls', ls.release_from who keep_cid hs keep = some (wakeup, [], ls') ∧
      ReleaseSpec ls hs keep keep_cid wakeup ls'
  | [], keep, ls, _, _, hsub, _ => by
    have hk : keep = [] := List.eq_nil_iff_forall_not_mem.mpr (fun h hh => by simpa using hsub h hh)
    subst hk
    exact ⟨[], ls, rfl, ⟨by simp, by simp⟩⟩
  | k :: rest, keep, ls, hs, hkeep, hsub, hwho => by
    have hlt : ∀ h ∈ rest, k < h := (List.pairwise_cons.mp hs).1
    have hk' : ∀ h ∈ rest, h ≠ k := fun h hh => Nat.ne_of_gt (hlt h hh)
    have hkr : k ∉ rest := fun hm => hk' k hm rfl
    have hpop : (ls.lock_latch k).pop_front k = (some (k, who), ((ls.lock_latch k).pop_front k).2) := by
      rw [Prod.ext_iff, pop_front_lock_latch, hwho k (by simp)]; simp
    obtain ⟨b, keep', hstep, hb, hkeep', hsub', hmem'⟩ := keep_step_of_subset hs hkeep hsub
    cases b with
    | true =>
      -- the latch of `k` is handed to the next command
      set ls1 := ls.set_latch k (((ls.lock_latch k).pop_front k).2.push_preemptive k keep_cid)
      obtain ⟨wakeup, ls', hrel, hspec⟩ := @release_from_spec who keep_cid rest keep' ls1
        (List.pairwise_cons.mp hs).2 hkeep' hsub' (fun h hh => by
          rw [queue_pop_push, if_neg (hk' h hh)]; exact hwho h (by simp [hh]))
      refine ⟨wakeup, ls', ?_, ⟨fun h => ?_, ?_⟩⟩
      · rw [Latches.release_from, hpop]; simp [hstep, hrel, ls1]
      · rw [hspec.queue_eq, queue_pop_push]
        by_cases hh : h = k
        · subst hh; simp [hb.mp rfl, hkr]
        · simp [hh, hmem' h hh]
      · rw [hspec.wakeup_eq, List.filterMap_cons, if_pos (hb.mp rfl)]
        apply List.filterMap_congr
        intro h hh
        simp [ls1, queue_pop_push, hk' h hh, hmem' h (hk' h hh)]
    | false =>
      -- the latch of `k` is released and its next waiter, if any, is woken up
      have hnk : k ∉ keep := fun hm => by simpa using hb.mpr hm
      set ls1 := ls.set_latch k ((ls.lock_latch k).pop_front k).2
      obtain ⟨wakeup, ls', hrel, hspec⟩ := @release_from_spec who keep_cid rest keep' ls1
        (List.pairwise_cons.mp hs).2 hkeep' hsub' (fun h hh => by
          rw [queue_pop, if_neg (hk' h hh)]; exact hwho h (by simp [hh]))
      refine ⟨((ls.queue k).tail.head?).toList ++ wakeup, ls', ?_, ⟨fun h => ?_, ?_⟩⟩
      · rw [Latches.release_from, hpop]
        simp [hstep, hrel, ls1, get_first_req_by_hash_eq, queue_pop_front, Latches.queue]
      · rw [hspec.queue_eq, queue_pop]
        by_cases hh : h = k
        · subst hh; simp [hnk, hkr]
        · simp [hh, hmem' h hh]
      · rw [hspec.wakeup_eq, List.filterMap_cons, if_neg hnk]
        have hrest : rest.filterMap (fun h => if h ∈ keep' then none else (ls1.queue h).tail.head?) =
            rest.filterMap (fun h => if h ∈ keep then none else (ls.queue h).tail.head?) := by
          apply List.filterMap_congr
          intro h hh
          simp [ls1, queue_pop, hk' h hh, hmem' h (hk' h hh)]
        rw [hrest]
        cases (ls.queue k).tail.head? <;> rfl

end Tikv.Scheduler
