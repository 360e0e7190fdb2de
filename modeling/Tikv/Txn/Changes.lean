import Tikv.Txn.Actions

/-!
What a read takes from the records of a key: its Puts and Deletes, newest first, each with its
commit_ts, type, start_ts and short value; Rollback and Lock records, and the GC fence and the
overlapped-rollback flag of a record, are not part of it. Below, `put_write` keeps the records
newest first.
-/

namespace Tikv.Txn

open Tikv.Mvcc

structure Change where
  commit_ts : Nat
  write_type : WriteType
  start_ts : Nat
  short_value : Option (List UInt8)
  deriving DecidableEq, Repr

def Change.of (p : Nat × Write) : Change :=
  ⟨p.1, p.2.write_type, p.2.start_ts, p.2.short_value⟩

def changes (writes : List (Nat × Write)) : List Change :=
  (writes.filter fun p => p.2.write_type.changes_value).map Change.of

theorem mem_changes {writes : List (Nat × Write)} {c : Change} :
    c ∈ changes writes ↔ ∃ p ∈ writes, p.2.write_type.changes_value = true ∧ Change.of p = c := by
  simp [changes, List.mem_map, List.mem_filter, and_assoc]

section Edits

variable {writes : List (Nat × Write)}

theorem mem_put_write {c : Nat} {w : Write} {p : Nat × Write} (hp : p ∈ put_write writes c w) :
    p = (c, w) ∨ p ∈ writes := by
  simp only [put_write, List.mem_append, List.mem_cons, List.mem_filter] at hp
  rcases hp with hp | hp | hp
  · exact Or.inr hp.1
  · exact Or.inl hp
  · exact Or.inr hp.1

theorem desc_put_write (hdesc : writes.Pairwise fun a b => b.1 < a.1) (c : Nat) (w : Write) :
    (put_write writes c w).Pairwise fun a b => b.1 < a.1 := by
  unfold put_write
  refine List.pairwise_append.mpr ⟨hdesc.filter _, ?_, fun a ha b hb => ?_⟩
  · refine List.pairwise_cons.mpr ⟨fun b hb => by simpa using (List.mem_filter.mp hb).2,
      hdesc.filter _⟩
  · have ha' : c < a.1 := by simpa using (List.mem_filter.mp ha).2
    rcases List.mem_cons.mp hb with rfl | hb
    · exact ha'
    · exact Nat.lt_trans (by simpa using (List.mem_filter.mp hb).2) ha'

end Edits

end Tikv.Txn
