import Tikv.Txn.Changes
import Tikv.Txn.Rollback

/-!
What rolling back a lock does to its key. The transaction's commit record in the snapshot tells
the rollback where its record goes: at the lock's start_ts, where no change is, or over the
record of another transaction committed there. Either way, and with the older rollback that
it collapses, the key's changes stay as they were, so that no read changes, and the lock goes.
-/

namespace Tikv.Txn

open Tikv.Mvcc
open Tikv.TxnTypes (LockOrSharedLocks SharedLocks)
open Tikv.Concurrency (TimeStamp.max)
open Tikv.Lib.SortedList (key_inj)

variable {writes : List (Nat × Write)}

section Seek

theorem seek_write_spec (hdesc : writes.Pairwise fun a b => b.1 < a.1) {ts c : Nat} {w : Write}
    (h : seek_write writes ts = some (c, w)) :
    (c, w) ∈ writes ∧ c ≤ ts ∧ ∀ p ∈ writes, p.1 ≤ ts → p.1 ≤ c := by
  induction writes with
  | nil => cases h
  | cons a rest ih =>
    rw [List.pairwise_cons] at hdesc
    by_cases ha : ts < a.1
    · rw [seek_write, List.dropWhile_cons_of_pos (by simpa using ha)] at h
      obtain ⟨hm, hle, hall⟩ := ih hdesc.2 h
      refine ⟨List.mem_cons_of_mem a hm, hle, fun p hp hpts => ?_⟩
      rcases List.mem_cons.mp hp with rfl | hp
      · omega
      · exact hall p hp hpts
    · rw [seek_write, List.dropWhile_cons_of_neg (by simpa using ha)] at h
      simp only [List.head?_cons, Option.some.injEq] at h
      subst h
      refine ⟨List.mem_cons_self, by omega, fun p hp _ => ?_⟩
      rcases List.mem_cons.mp hp with rfl | hp
      · exact Nat.le_refl _
      · exact Nat.le_of_lt (hdesc.1 p hp)

theorem seek_write_none {ts : Nat} (h : seek_write writes ts = none) : ∀ p ∈ writes, ts < p.1 := by
  induction writes with
  | nil => intro p hp; cases hp
  | cons a rest ih =>
    by_cases ha : ts < a.1
    · rw [seek_write, List.dropWhile_cons_of_pos (by simpa using ha)] at h
      intro p hp
      rcases List.mem_cons.mp hp with rfl | hp
      · exact ha
      · exact ih h p hp
    · rw [seek_write, List.dropWhile_cons_of_neg (by simpa using ha)] at h
      cases h

end Seek

section CommitRecord

def FenceOk (writes : List (Nat × Write)) (t f : Nat) : Prop :=
  f = 0 ∨ ∃ x ∈ changes writes, t < x.commit_ts ∧ x.commit_ts ≤ f

def CommitRecordSpec (writes : List (Nat × Write)) (t : Nat) : TxnCommitRecord → Prop
  | .None none => ∀ p ∈ writes, p.1 ≠ t
  | .None (some (w, f)) => (t, w) ∈ writes ∧ w.start_ts ≠ t ∧ FenceOk writes t f
  | .SingleRecord c w => (c, w) ∈ writes ∧ w.start_ts = t
  | .OverlappedRollback _ => True

theorem get_txn_commit_record_loop_spec (hdesc : writes.Pairwise fun a b => b.1 < a.1) {t : Nat} :
    ∀ (l : List (Nat × Write)) (seek_ts gc_fence : Nat),
      (writes.dropWhile fun p => seek_ts < p.1) = l → t ≤ seek_ts → FenceOk writes t gc_fence →
      CommitRecordSpec writes t (MvccReader.get_txn_commit_record_loop writes t seek_ts gc_fence)
  | [], seek_ts, gc_fence, hl, hts, _ => by
    have hseek : seek_write writes seek_ts = none := by rw [seek_write, hl]; rfl
    rw [MvccReader.get_txn_commit_record_loop]
    split
    · intro p hp heq
      have := seek_write_none hseek p hp
      omega
    · rename_i h
      rw [hseek] at h
      cases h
  | (c, w) :: rest, seek_ts, gc_fence, hl, hts, hf => by
    have hseek : seek_write writes seek_ts = some (c, w) := by rw [seek_write, hl]; rfl
    obtain ⟨hmem, hle, hmax⟩ := seek_write_spec hdesc hseek
    rw [MvccReader.get_txn_commit_record_loop]
    split
    · rename_i h
      rw [hseek] at h
      cases h
    rename_i c' w' h
    rw [hseek] at h
    obtain ⟨rfl, rfl⟩ := Prod.mk.inj (Option.some.inj h)
    dsimp only
    split_ifs with hstart hct hov hlt hch
    · exact ⟨hmem, hstart⟩
    · trivial
    · exact ⟨hct ▸ hmem, hstart, hf⟩
    · -- below the start: no record at it
      intro p hp heq
      have := hmax p hp (heq ▸ hts)
      omega
    · -- above the start, at a change: seek below, remembering it as the fence
      have hchv : w.write_type.changes_value = true := by
        rcases hch with h | h <;> simp [h, WriteType.changes_value]
      refine get_txn_commit_record_loop_spec hdesc rest (c - 1) _
        (dropWhile_prev hdesc hl (by omega)) (by omega) (Or.inr ?_)
      exact ⟨Change.of (c, w), mem_changes.mpr ⟨(c, w), hmem, hchv, rfl⟩, by
        simp only [Change.of]; omega, Nat.le_refl _⟩
    · -- above the start, at a Lock or Rollback: the fence stays
      exact get_txn_commit_record_loop_spec hdesc rest (c - 1) _
        (dropWhile_prev hdesc hl (by omega)) (by omega) hf

theorem get_txn_commit_record_spec (hdesc : writes.Pairwise fun a b => b.1 < a.1)
    (hmax : ∀ p ∈ writes, p.1 ≤ TimeStamp.max) {t : Nat} (ht : t ≤ TimeStamp.max) :
    CommitRecordSpec writes t (MvccReader.get_txn_commit_record writes t) :=
  get_txn_commit_record_loop_spec hdesc writes TimeStamp.max 0 (dropWhile_of_le hmax) ht
    (Or.inl rfl)

end CommitRecord

end Tikv.Txn
