import Tikv.Deadlock.Detector

/-!
The tables the detector's leader reaches from a fresh one through the `detect`,
`clean_up_wait_for`, `clean_up`, `clear` and `reset_ttl` requests it handles, with a clock that
never goes back; `lockOk` says which lock timestamps `detect` is called with.
-/

namespace Tikv.Deadlock

open Relation

inductive Reachable (lockOk : Nat → Prop) : DetectTable → Prop
  | new (ttl now : Nat) : Reachable lockOk (DetectTable.new ttl now)
  | detect {t t' : DetectTable} {now txn_ts lock_ts lock_hash : Nat} {key tag : List UInt8}
      {r : Option (Nat × List WaitForEntry)} : Reachable lockOk t → t.now ≤ now →
      txn_ts ≠ lock_ts → lockOk lock_ts →
      t.detect now txn_ts lock_ts lock_hash key tag = some (r, t') → Reachable lockOk t'
  | clean_up_wait_for {t : DetectTable} (txn_ts : Nat) (lock_digest : LockDigest) :
      Reachable lockOk t → Reachable lockOk (t.clean_up_wait_for txn_ts lock_digest)
  | clean_up {t : DetectTable} (txn_ts : Nat) :
      Reachable lockOk t → Reachable lockOk (t.clean_up txn_ts)
  | clear {t : DetectTable} : Reachable lockOk t → Reachable lockOk t.clear
  | reset_ttl {t : DetectTable} (ttl : Nat) :
      Reachable lockOk t → Reachable lockOk (t.reset_ttl ttl)

theorem inv_reachable {t : DetectTable} (hr : Reachable (· ≠ 0) t) : Inv t := by
  induction hr with
  | new ttl now => exact inv_new ttl now
  | detect _ hnow hne hlock hdet ih =>
    obtain ⟨r', t'', hdet', -, hinv⟩ := detect_spec ih hnow hne hlock
    rw [hdet, Option.some.injEq, Prod.mk.injEq] at hdet'
    rw [hdet'.2]
    exact hinv
  | clean_up_wait_for txn_ts lock_digest _ ih => exact inv_clean_up_wait_for ih txn_ts lock_digest
  | clean_up txn_ts _ ih => exact inv_clean_up ih txn_ts
  | clear _ ih => exact inv_clear ih
  | reset_ttl ttl _ ih => exact inv_reset_ttl ih ttl

/-- What holds at a table the detector reaches: at no time do the unexpired edges form a
cycle, and every `detect` call with a lock timestamp other than zero returns and does what
`DetectSpec` says. -/
structure DetectorSafe (t : DetectTable) : Prop where
  acyclic : ∀ now a, ¬ TransGen (Unexpired t now) a a
  detect : ∀ now txn_ts lock_ts lock_hash key tag, t.now ≤ now → txn_ts ≠ lock_ts →
    lock_ts ≠ 0 → ∃ r t', t.detect now txn_ts lock_ts lock_hash key tag = some (r, t') ∧
      DetectSpec t now txn_ts lock_ts lock_hash r t'

theorem detectorSafe_of_inv {t : DetectTable} (hs : Inv t) : DetectorSafe t where
  acyclic now a hc := hs.acyclic a (TransGen.mono (fun _ _ ⟨L, hL, _⟩ => ⟨L, hL⟩) _ _ hc)
  detect now txn_ts lock_ts lock_hash key tag hnow hne hlock := by
    obtain ⟨r, t', hdet, hspec, -⟩ := detect_spec hs hnow hne hlock
    exact ⟨r, t', hdet, hspec⟩

theorem detect_sound_complete {t : DetectTable} (hr : Reachable (· ≠ 0) t) : DetectorSafe t :=
  detectorSafe_of_inv (inv_reachable hr)

theorem detect_sound_complete_chain :
    let t : DetectTable :=
      ⟨[(1, [(2, Locks.new 2 2 [] [] 1)]), (2, [(3, Locks.new 3 3 [] [] 2)])], 10000, 0, 2⟩
    Reachable (· ≠ 0) t ∧ DetectorSafe t := by
  intro t
  have e1 : (DetectTable.new 10000 0).detect 1 1 2 2 [] [] =
      some (none, ⟨[(1, [(2, Locks.new 2 2 [] [] 1)])], 10000, 0, 1⟩) := by rfl
  have e2 : (⟨[(1, [(2, Locks.new 2 2 [] [] 1)])], 10000, 0, 1⟩ : DetectTable).detect 2 2 3 3 [] [] =
      some (none, t) := by rfl
  have ht : Reachable (· ≠ 0) t :=
    Reachable.detect (Reachable.new 10000 0 |>.detect (by decide) (by decide) (by decide) e1)
      (by decide) (by decide) (by decide) e2
  exact ⟨ht, detect_sound_complete ht⟩

/-- Timestamp zero is the search's mark for the start, so a waiter whose timestamp is zero
makes the walk back stop early: with the unexpired path `0 → 1 → 2`, asking whether `2` may wait
for `0` fails the assertion in `generate_wait_chain`. -/
theorem detect_zero_lock_panics :
    let t : DetectTable :=
      ⟨[(0, [(1, Locks.new 1 1 [] [] 1)]), (1, [(2, Locks.new 2 2 [] [] 2)])], 10000, 0, 2⟩
    Reachable (· ≠ 0) t ∧ t.now ≤ 3 ∧ TransGen (Unexpired t 3) 0 2 ∧
      t.detect 3 2 0 0 [] [] = none := by
  intro t
  have e1 : (DetectTable.new 10000 0).detect 1 0 1 1 [] [] =
      some (none, ⟨[(0, [(1, Locks.new 1 1 [] [] 1)])], 10000, 0, 1⟩) := by rfl
  have e2 : (⟨[(0, [(1, Locks.new 1 1 [] [] 1)])], 10000, 0, 1⟩ : DetectTable).detect 2 1 2 2 [] [] =
      some (none, t) := by rfl
  refine ⟨?_, by decide, ?_, by decide⟩
  · exact Reachable.detect (Reachable.new 10000 0 |>.detect (by decide) (by decide) (by decide) e1)
      (by decide) (by decide) (by decide) e2
  · exact TransGen.head (b := 1) ⟨Locks.new 1 1 [] [] 1, rfl, by decide⟩
      (TransGen.single ⟨Locks.new 2 2 [] [] 2, rfl, by decide⟩)

end Tikv.Deadlock
