import Tikv.Lib.AssocList
import Mathlib

/-!
The range latch of src/components/tikv_util/src/range_latch.rs, which keeps the compaction
filter's writes off the key range of an ingest. `acquire` locks the map of latched ranges,
collects those that overlap `[start_key, end_key)`, and when there is none inserts the range
under its start key and returns a guard; otherwise it waits on their mutexes and tries again.
Dropping the guard removes the entry of its start key.

Each of these runs under the map's mutex, so each is one atomic step; a thread that waits
changes nothing and is not a step. A guard records its range, the caller's arguments; the
source's guard keeps only the start key, which is all that `drop` reads.
-/

namespace Tikv.Util

open Tikv.Lib.AssocList (insert erase lookup_eq_lookup_decEq)

structure RangeLatchGuard where
  start_key : List UInt8
  end_key : List UInt8
  deriving DecidableEq, Repr

structure RangeLatch where
  range_latches : List (List UInt8 × RangeLatchGuard)
  guards : List RangeLatchGuard
  deriving DecidableEq, Repr

def RangeLatch.new : RangeLatch := ⟨[], []⟩

def overlapping_ranges (range_latches : List (List UInt8 × RangeLatchGuard))
    (start_key end_key : List UInt8) : List (List UInt8 × RangeLatchGuard) :=
  (range_latches.filter fun p => p.1 < end_key).filter fun p =>
    !(end_key ≤ p.2.start_key || start_key ≥ p.2.end_key)

/-- One turn of the loop of `acquire`: the guard, or `none` when the thread has to wait. -/
def RangeLatch.acquire (l : RangeLatch) (start_key end_key : List UInt8) :
    Option (RangeLatchGuard × RangeLatch) :=
  if (overlapping_ranges l.range_latches start_key end_key).isEmpty then
    let guard : RangeLatchGuard := ⟨start_key, end_key⟩
    some (guard, ⟨insert start_key guard l.range_latches, l.guards ++ [guard]⟩)
  else none

def RangeLatchGuard.drop (guard : RangeLatchGuard) (l : RangeLatch) : RangeLatch :=
  ⟨erase guard.start_key l.range_latches, l.guards.erase guard⟩

/-- A step of some thread: an `acquire` with arguments that `ok` admits, or the drop of a live
guard. -/
inductive Step (ok : List UInt8 → List UInt8 → Prop) : RangeLatch → RangeLatch → Prop
  | acquire {l l' : RangeLatch} {guard : RangeLatchGuard} (start_key end_key : List UInt8)
      (hok : ok start_key end_key) (h : l.acquire start_key end_key = some (guard, l')) :
      Step ok l l'
  | drop (l : RangeLatch) (guard : RangeLatchGuard) (hg : guard ∈ l.guards) :
      Step ok l (guard.drop l)

def Reachable (ok : List UInt8 → List UInt8 → Prop) (l : RangeLatch) : Prop :=
  Relation.ReflTransGen (Step ok) RangeLatch.new l

def RangeLatchGuard.Overlaps (a b : RangeLatchGuard) : Prop :=
  a.start_key < b.end_key ∧ b.start_key < a.end_key

def RangeLatchGuard.Nonempty (a : RangeLatchGuard) : Prop := a.start_key < a.end_key

instance (a b : RangeLatchGuard) : Decidable (a.Overlaps b) :=
  inferInstanceAs (Decidable (_ ∧ _))

instance (a : RangeLatchGuard) : Decidable a.Nonempty := inferInstanceAs (Decidable (_ < _))

theorem RangeLatchGuard.overlaps_comm {a b : RangeLatchGuard} : a.Overlaps b ↔ b.Overlaps a :=
  And.comm

theorem RangeLatchGuard.overlaps_of_start_key_eq {a b : RangeLatchGuard} (ha : a.Nonempty)
    (hb : b.Nonempty) (h : a.start_key = b.start_key) : a.Overlaps b :=
  ⟨h ▸ hb, h ▸ ha⟩

theorem overlapping_ranges_eq_nil {m : List (List UInt8 × RangeLatchGuard)}
    {start_key end_key : List UInt8}
    (h : (overlapping_ranges m start_key end_key).isEmpty = true) {g : RangeLatchGuard}
    (hg : (g.start_key, g) ∈ m) : ¬ g.Overlaps ⟨start_key, end_key⟩ := by
  rintro ⟨hlt, hlt'⟩
  have hnot := List.isEmpty_iff.mp h
  have hin : (g.start_key, g) ∈ overlapping_ranges m start_key end_key := by
    simp only [overlapping_ranges, List.mem_filter, decide_eq_true_eq]
    refine ⟨⟨hg, hlt⟩, ?_⟩
    simp only [Bool.not_eq_eq_eq_not, Bool.not_true, Bool.or_eq_false_iff, decide_eq_false_iff_not]
    exact ⟨Std.not_le.mpr hlt, Std.not_le.mpr hlt'⟩
  rw [hnot] at hin
  cases hin

/-- The latch's invariant when every range is non-empty: each live guard is in the map under its
start key, and no two live guards overlap. -/
structure LatchInv (l : RangeLatch) : Prop where
  nonempty : ∀ g ∈ l.guards, g.Nonempty
  recorded : ∀ g ∈ l.guards, l.range_latches.lookup g.start_key = some g
  exclusive : l.guards.Pairwise fun a b => ¬ a.Overlaps b

theorem latchInv_new : LatchInv RangeLatch.new where
  nonempty _ h := by cases h
  recorded _ h := by cases h
  exclusive := List.Pairwise.nil

theorem LatchInv.acquire {l l' : RangeLatch} {guard : RangeLatchGuard} {start_key end_key}
    (hi : LatchInv l) (hlt : start_key < end_key)
    (h : l.acquire start_key end_key = some (guard, l')) : LatchInv l' := by
  simp only [RangeLatch.acquire] at h
  split at h
  case isFalse => cases h
  case isTrue hfree =>
  cases h
  -- the new range meets no live guard, so it has a start key of its own
  have hfresh : ∀ g ∈ l.guards, ¬ g.Overlaps ⟨start_key, end_key⟩ := by
    intro g hg
    have hrec := hi.recorded g hg
    rw [lookup_eq_lookup_decEq] at hrec
    exact overlapping_ranges_eq_nil hfree (Tikv.Lib.AssocList.mem_of_lookup hrec)
  have hne : ∀ g ∈ l.guards, g.start_key ≠ start_key := fun g hg heq =>
    hfresh g hg (RangeLatchGuard.overlaps_of_start_key_eq (hi.nonempty g hg) hlt heq)
  refine ⟨?_, ?_, ?_⟩
  · intro g hg
    rcases List.mem_append.mp hg with hg | hg
    · exact hi.nonempty g hg
    · rw [List.mem_singleton.mp hg]; exact hlt
  · intro g hg
    rw [lookup_eq_lookup_decEq, Tikv.Lib.AssocList.lookup_insert]
    rcases List.mem_append.mp hg with hg | hg
    · rw [if_neg (hne g hg), ← lookup_eq_lookup_decEq]; exact hi.recorded g hg
    · rw [List.mem_singleton.mp hg, if_pos rfl]
  · refine List.pairwise_append.mpr ⟨hi.exclusive, List.pairwise_singleton _ _, ?_⟩
    intro g hg g' hg'
    rw [List.mem_singleton.mp hg']
    exact hfresh g hg

theorem LatchInv.drop {l : RangeLatch} {guard : RangeLatchGuard} (hi : LatchInv l)
    (hg : guard ∈ l.guards) : LatchInv (guard.drop l) := by
  -- the guard meets none of the others, so no other guard has its start key
  have hothers : ∀ g ∈ l.guards.erase guard, ¬ guard.Overlaps g := by
    have hp := (List.perm_cons_erase hg).pairwise_iff
      (fun h => mt RangeLatchGuard.overlaps_comm.mpr h) |>.mp hi.exclusive
    exact (List.pairwise_cons.mp hp).1
  refine ⟨fun g hg' => hi.nonempty g (List.mem_of_mem_erase hg'), ?_,
    hi.exclusive.sublist List.erase_sublist⟩
  intro g hg'
  have hne : g.start_key ≠ guard.start_key := fun heq =>
    hothers g hg' (RangeLatchGuard.overlaps_of_start_key_eq (hi.nonempty guard hg)
      (hi.nonempty g (List.mem_of_mem_erase hg')) heq.symm)
  simp only [RangeLatchGuard.drop]
  rw [lookup_eq_lookup_decEq, Tikv.Lib.AssocList.lookup_erase, if_neg hne,
    ← lookup_eq_lookup_decEq]
  exact hi.recorded g (List.mem_of_mem_erase hg')

theorem LatchInv.step {l l' : RangeLatch} (hi : LatchInv l) (h : Step (· < ·) l l') :
    LatchInv l' := by
  cases h with
  | acquire start_key end_key hok h => exact hi.acquire hok h
  | drop guard hg => exact hi.drop hg

theorem latchInv_reachable {l : RangeLatch} (h : Reachable (· < ·) l) : LatchInv l := by
  induction h with
  | refl => exact latchInv_new
  | tail _ hstep ih => exact ih.step hstep

/-- An empty range `[a, a)` sees no latch of a range `[a, b)`, which is not below its end, and its
insert takes that range's entry; its drop then removes the entry, and a second `[a, b)` is let
in beside the first. -/
theorem empty_range_latch_breaks_exclusion :
    (Reachable (· ≤ ·) ⟨[([1], ⟨[1], [1]⟩)], [⟨[1], [2]⟩, ⟨[1], [1]⟩]⟩ ∧
      ([([1], ⟨[1], [1]⟩)] : List (List UInt8 × RangeLatchGuard)).lookup [1] ≠
        some ⟨[1], [2]⟩) ∧
    Reachable (· ≤ ·) ⟨[([1], ⟨[1], [2]⟩)], [⟨[1], [2]⟩, ⟨[1], [2]⟩]⟩ ∧
      (⟨[1], [2]⟩ : RangeLatchGuard).Nonempty ∧
      (⟨[1], [2]⟩ : RangeLatchGuard).Overlaps ⟨[1], [2]⟩ := by
  have h1 : Step (· ≤ ·) RangeLatch.new ⟨[([1], ⟨[1], [2]⟩)], [⟨[1], [2]⟩]⟩ :=
    @Step.acquire _ _ _ ⟨[1], [2]⟩ [1] [2] (by decide) (by decide)
  have h2 : Step (· ≤ ·) ⟨[([1], ⟨[1], [2]⟩)], [⟨[1], [2]⟩]⟩
      ⟨[([1], ⟨[1], [1]⟩)], [⟨[1], [2]⟩, ⟨[1], [1]⟩]⟩ :=
    @Step.acquire _ _ _ ⟨[1], [1]⟩ [1] [1] (by decide) (by decide)
  have h3 : Step (· ≤ ·) ⟨[([1], ⟨[1], [1]⟩)], [⟨[1], [2]⟩, ⟨[1], [1]⟩]⟩ ⟨[], [⟨[1], [2]⟩]⟩ :=
    Step.drop _ ⟨[1], [1]⟩ (by decide)
  have h4 : Step (· ≤ ·) ⟨[], [⟨[1], [2]⟩]⟩ ⟨[([1], ⟨[1], [2]⟩)], [⟨[1], [2]⟩, ⟨[1], [2]⟩]⟩ :=
    @Step.acquire _ _ _ ⟨[1], [2]⟩ [1] [2] (by decide) (by decide)
  have hr2 : Reachable (· ≤ ·) ⟨[([1], ⟨[1], [1]⟩)], [⟨[1], [2]⟩, ⟨[1], [1]⟩]⟩ :=
    .tail (.tail .refl h1) h2
  exact ⟨⟨hr2, by decide⟩, .tail (.tail hr2 h3) h4, by decide, by decide, by decide⟩

end Tikv.Util
