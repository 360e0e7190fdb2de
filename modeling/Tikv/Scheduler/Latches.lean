import Tikv.Lib.HoleQueue
import Mathlib

/-!
The scheduler latches of `src/storage/txn/latch.rs`. A `Latch` is the waiting queue of one
slot; its entries are `(key hash, command id)` pairs, and a removed entry may stay behind
as a hole. Key hashes and command ids are `u64` in the source and `Nat` here: only their
equality and order are used.
-/

namespace Tikv.Scheduler

open Tikv.Lib.HoleQueue

structure Latch where
  waiting : List (Option (Nat × Nat))

def Latch.new : Latch := ⟨[]⟩

def Latch.get_first_req_by_hash (l : Latch) (hash : Nat) : Option Nat :=
  ((live l.waiting).find? (fun e => e.1 == hash)).map Prod.snd

/-- Drops the holes at the front; the capacity shrink of the `VecDeque` is not modelled. -/
def Latch.maybe_shrink (l : Latch) : Latch := ⟨l.waiting.dropWhile Option.isNone⟩

def Latch.pop_front (l : Latch) (key_hash : Nat) : Option (Nat × Nat) × Latch :=
  match l.waiting with
  | [] => (none, l)
  | none :: rest =>
    ((takeFirst (fun e => e.1 == key_hash) rest).1, ⟨(takeFirst (fun e => e.1 == key_hash) rest).2⟩)
  | some (k, cid) :: rest =>
    if k = key_hash then (some (k, cid), Latch.maybe_shrink ⟨rest⟩)
    else
      ((takeFirst (fun e => e.1 == key_hash) (some (k, cid) :: rest)).1,
        ⟨(takeFirst (fun e => e.1 == key_hash) (some (k, cid) :: rest)).2⟩)

def Latch.wait_for_wake (l : Latch) (key_hash cid : Nat) : Latch :=
  ⟨l.waiting ++ [some (key_hash, cid)]⟩

def Latch.push_preemptive (l : Latch) (key_hash cid : Nat) : Latch :=
  ⟨some (key_hash, cid) :: l.waiting⟩

structure Lock where
  required_hashes : List Nat
  owned_count : Nat
  sorted : required_hashes.Pairwise (· < ·)

theorem pairwise_lt_destutter {l : List Nat} (h : l.Pairwise (· ≤ ·)) :
    (l.destutter (· ≠ ·)).Pairwise (· < ·) := by
  have hle := (h.sublist (List.destutter_sublist (· ≠ ·) l)).isChain
  have hne := List.isChain_destutter (· ≠ ·) l
  have hlt : (l.destutter (· ≠ ·)).IsChain (· < ·) :=
    List.isChain_iff_getElem.mpr fun i hi => lt_of_le_of_ne (hle.getElem i hi) (hne.getElem i hi)
  exact hlt.pairwise

def Lock.new {K : Type*} (hash : K → Nat) (keys : List K) : Lock where
  required_hashes := ((keys.map hash).mergeSort (fun a b => decide (a ≤ b))).destutter (· ≠ ·)
  owned_count := 0
  sorted := by
    have hsorted : ((keys.map hash).mergeSort (fun a b => decide (a ≤ b))).Pairwise
        (fun a b => decide (a ≤ b) = true) :=
      List.pairwise_mergeSort (fun a b c hab hbc => by simp at *; omega)
        (fun a b => by simp; omega) (keys.map hash)
    exact pairwise_lt_destutter (by simpa using hsorted)

def Lock.acquired (lock : Lock) : Bool := lock.required_hashes.length == lock.owned_count

def Lock.force_assume_acquired (lock : Lock) : Lock :=
  { lock with owned_count := lock.required_hashes.length }

structure Latches where
  slots : Nat → Latch
  size : Nat

def Latches.new (size : Nat) : Latches := ⟨fun _ => Latch.new, size.nextPowerOfTwo⟩

def Latches.slot (ls : Latches) (hash : Nat) : Nat := hash &&& (ls.size - 1)

def Latches.lock_latch (ls : Latches) (hash : Nat) : Latch := ls.slots (ls.slot hash)

def Latches.set_latch (ls : Latches) (hash : Nat) (latch : Latch) : Latches :=
  { ls with slots := Function.update ls.slots (ls.slot hash) latch }

def Latches.acquire_from (ls : Latches) (who : Nat) : List Nat → Nat × Latches
  | [] => (0, ls)
  | key_hash :: rest =>
    match (ls.lock_latch key_hash).get_first_req_by_hash key_hash with
    | some cid =>
      if cid = who then ((ls.acquire_from who rest).1 + 1, (ls.acquire_from who rest).2)
      else (0, ls.set_latch key_hash ((ls.lock_latch key_hash).wait_for_wake key_hash who))
    | none =>
      let ls' := ls.set_latch key_hash ((ls.lock_latch key_hash).wait_for_wake key_hash who)
      ((ls'.acquire_from who rest).1 + 1, (ls'.acquire_from who rest).2)

def Latches.acquire (ls : Latches) (lock : Lock) (who : Nat) : Bool × Lock × Latches :=
  let r := ls.acquire_from who (lock.required_hashes.drop lock.owned_count)
  let lock' := { lock with owned_count := lock.owned_count + r.1 }
  (lock'.acquired, lock', r.2)

/-- One step of the `keep_latches_it` cursor at `key_hash`: whether the latch is kept for the
next command, and the rest of the cursor; `none` is the failed `assert!`. -/
def keep_step (key_hash : Nat) : List Nat → Option (Bool × List Nat)
  | [] => some (false, [])
  | next_keep_hash :: rest =>
    if next_keep_hash < key_hash then none
    else if next_keep_hash = key_hash then some (true, rest)
    else some (false, next_keep_hash :: rest)

/-- The loop of `Latches::release` over `required_hashes[..owned_count]`: the wakeup list, the
rest of the keep cursor and the latches; `none` is a failed `unwrap` or `assert!`. -/
def Latches.release_from (ls : Latches) (who keep_cid : Nat) :
    List Nat → List Nat → Option (List Nat × List Nat × Latches)
  | [], keep => some ([], keep, ls)
  | key_hash :: rest, keep =>
    match (ls.lock_latch key_hash).pop_front key_hash with
    | (some (v, front), latch) =>
      if front = who ∧ v = key_hash then
        match keep_step key_hash keep with
        | some (true, keep') =>
          (ls.set_latch key_hash (latch.push_preemptive key_hash keep_cid)).release_from who
            keep_cid rest keep'
        | some (false, keep') =>
          match (ls.set_latch key_hash latch).release_from who keep_cid rest keep' with
          | some (wakeup_list, keep'', ls') =>
            some ((latch.get_first_req_by_hash key_hash).toList ++ wakeup_list, keep'', ls')
          | none => none
        | none => none
      else none
    | (none, _) => none

def Latches.release (ls : Latches) (lock : Lock) (who : Nat)
    (keep_latches_for_next_cmd : Option (Nat × Lock)) : Option (List Nat × Latches) :=
  let keep_cid := (keep_latches_for_next_cmd.map Prod.fst).getD 0
  let keep := (keep_latches_for_next_cmd.map (·.2.required_hashes)).getD []
  match ls.release_from who keep_cid (lock.required_hashes.take lock.owned_count) keep with
  | some (wakeup_list, [], ls') => some (wakeup_list, ls')
  | _ => none

end Tikv.Scheduler
