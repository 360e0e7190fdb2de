import Tikv.Lib.SortedList

/-!
Write records (components/txn_types/src/write.rs) and the read at a timestamp that the readers
of src/src/storage/mvcc/reader answer. The write column family of one key is its list of
`(commit_ts, Write)` records in the order of the encoded keys `key{commit_ts}`, which is
newest first; `seek_write` (reader.rs) finds the first record at or below a timestamp.
-/

namespace Tikv.Mvcc

open Tikv.Lib.SortedList

inductive WriteType
  | Put
  | Delete
  | Lock
  | Rollback
  deriving DecidableEq, Repr

def WriteType.changes_value : WriteType → Bool
  | .Put | .Delete => true
  | .Lock | .Rollback => false

theorem WriteType.eq_of_changes_value {t : WriteType} (h : t.changes_value = true) :
    t = .Put ∨ t = .Delete := by
  cases t <;> simp_all [WriteType.changes_value]

theorem WriteType.eq_of_not_changes_value {t : WriteType} (h : t.changes_value = false) :
    t = .Lock ∨ t = .Rollback := by
  cases t <;> simp_all [WriteType.changes_value]

/-- Where a Lock or Rollback record says the newest Put or Delete below it is
(components/txn_types/src/types.rs). -/
inductive LastChange
  | Unknown
  | Exist (last_change_ts : Nat) (estimated_versions_to_last_change : Nat)
  | NotExist
  deriving DecidableEq, Repr

structure Write where
  write_type : WriteType
  start_ts : Nat
  short_value : Option (List UInt8)
  has_overlapped_rollback : Bool
  gc_fence : Option Nat
  last_change : LastChange
  deriving DecidableEq, Repr

def Write.check_gc_fence_as_latest_version (w : Write) (read_ts : Nat) : Bool :=
  match w.gc_fence with
  | some gc_fence_ts => !(gc_fence_ts ≠ 0 && gc_fence_ts ≤ read_ts)
  | none => true

structure Versions where
  writes : List (Nat × Write)
  desc : writes.Pairwise fun a b => b.1 < a.1

def seek_write (writes : List (Nat × Write)) (ts : Nat) : Option (Nat × Write) :=
  (writes.dropWhile fun p => ts < p.1).head?

def reference_read (writes : List (Nat × Write)) (ts : Nat) : Option Write :=
  match writes.find? fun p => decide (p.1 ≤ ts) && p.2.write_type.changes_value with
  | some (_, write) =>
    if write.write_type = .Put ∧ write.check_gc_fence_as_latest_version ts = true then some write
    else none
  | none => none

def Shadowed (sp : Nat) (writes : List (Nat × Write)) (p : Nat × Write) : Prop :=
  p.1 ≤ sp ∧ (p.2.write_type.changes_value = false ∨
    ∃ q ∈ writes, q.1 ≤ sp ∧ q.2.write_type.changes_value = true ∧ p.1 < q.1)

instance (sp : Nat) (writes : List (Nat × Write)) : DecidablePred (Shadowed sp writes) :=
  fun _ => inferInstanceAs (Decidable (_ ∧ _))

section SeekWrite

theorem seek_write_le {writes : List (Nat × Write)} {ts : Nat} {p : Nat × Write}
    (h : seek_write writes ts = some p) : p.1 ≤ ts := by
  have hp := List.head?_dropWhile_not (fun p : Nat × Write => decide (ts < p.1)) writes
  rw [seek_write] at h
  rw [h] at hp
  simpa using hp

theorem dropWhile_of_le {writes : List (Nat × Write)} {ts : Nat} (h : ∀ p ∈ writes, p.1 ≤ ts) :
    (writes.dropWhile fun p => ts < p.1) = writes := by
  cases writes with
  | nil => rfl
  | cons a rest =>
    have ha : ¬ts < a.1 := not_lt.mpr (h a List.mem_cons_self)
    simp [ha]

theorem dropWhile_prev {writes : List (Nat × Write)} (hw : writes.Pairwise fun a b => b.1 < a.1)
    {ts : Nat} {p : Nat × Write} {rest : List (Nat × Write)}
    (h : (writes.dropWhile fun q => ts < q.1) = p :: rest) (hp : 0 < p.1) :
    (writes.dropWhile fun q => p.1 - 1 < q.1) = rest := by
  induction writes with
  | nil => cases h
  | cons a writes ih =>
    rw [List.pairwise_cons] at hw
    by_cases ha : ts < a.1
    · have hp_le : p.1 ≤ ts := seek_write_le (by rw [seek_write, h]; rfl)
      rw [List.dropWhile_cons_of_pos (by simpa using ha)] at h
      rw [List.dropWhile_cons_of_pos (by simp; omega)]
      exact ih hw.2 h
    · rw [List.dropWhile_cons_of_neg (by simpa using ha)] at h
      obtain ⟨rfl, rfl⟩ := List.cons.inj h
      rw [List.dropWhile_cons_of_pos (by simp; omega)]
      exact dropWhile_of_le fun q hq => by have := hw.1 q hq; omega

end SeekWrite

section Read

variable {sp ts : Nat}

theorem reference_read_filter (v : Versions) (keep : Nat × Write → Bool) (hts : sp ≤ ts)
    (hkeep : ∀ p ∈ v.writes, keep p = false → Shadowed sp v.writes p ∨
      (p.2.write_type = .Delete ∧ ∀ q ∈ v.writes, q.1 ≤ p.1 →
        q.2.write_type.changes_value = true → keep q = false)) :
    reference_read (v.writes.filter keep) ts = reference_read v.writes ts := by
  set Q : Nat × Write → Bool := fun p => decide (p.1 ≤ ts) && p.2.write_type.changes_value
  -- the first change at or below ts is kept, or it is a Delete and nothing below it is
  have hfind : (v.writes.filter keep).find? Q = v.writes.find? Q ∨
      ∃ y, v.writes.find? Q = some y ∧ y.2.write_type = .Delete ∧
        (v.writes.filter keep).find? Q = none := by
    cases hy : v.writes.find? Q with
    | none =>
      left
      rw [List.find?_eq_none] at hy ⊢
      exact fun x hx => hy x (List.mem_filter.mp hx).1
    | some y =>
      have hQy : Q y = true := List.find?_some hy
      have hmem : y ∈ v.writes := List.mem_of_find?_eq_some hy
      cases hk : keep y
      · right
        rcases hkeep y hmem hk with ⟨hle, hnc | ⟨q, hq, hqsp, hqc, hlt⟩⟩ | ⟨hdel, hbelow⟩
        · simp [Q, hnc] at hQy
        · have hQq : Q q = true := by simp [Q, hqc]; omega
          exact absurd (find?_key_le v.desc hy hq hQq) (not_le.mpr hlt)
        · refine ⟨y, rfl, hdel, List.find?_eq_none.mpr fun x hx hQx => ?_⟩
          obtain ⟨hxw, hkx⟩ := List.mem_filter.mp hx
          have hxc : x.2.write_type.changes_value = true := by simp [Q] at hQx; exact hQx.2
          simp [hbelow x hxw (find?_key_le v.desc hy hxw hQx) hxc] at hkx
      · exact Or.inl (find?_filter_of_find? hy hk)
  rcases hfind with heq | ⟨y, hy, hdel, hnone⟩
  · simp only [reference_read, Q] at heq ⊢
    rw [heq]
  · simp only [reference_read, Q] at hy hnone ⊢
    rw [hy, hnone]
    simp [hdel]

theorem changes_of_not_shadowed {ws : List (Nat × Write)} {p : Nat × Write} (hsp : p.1 ≤ sp)
    (hn : ¬Shadowed sp ws p) : p.2.write_type.changes_value = true ∧
      ∀ q ∈ ws, q.1 ≤ sp → q.2.write_type.changes_value = true → q.1 ≤ p.1 := by
  simp only [Shadowed, hsp, true_and, not_or, not_exists, not_and, not_lt] at hn
  exact ⟨by simpa using hn.1, hn.2⟩

theorem find?_of_not_shadowed (v : Versions) {p : Nat × Write} (hp : p ∈ v.writes)
    (hsp : p.1 ≤ sp) (hn : ¬Shadowed sp v.writes p) :
    v.writes.find? (fun q => decide (q.1 ≤ sp) && q.2.write_type.changes_value) = some p := by
  obtain ⟨hc, hnewest⟩ := changes_of_not_shadowed hsp hn
  cases hy : v.writes.find? fun q => decide (q.1 ≤ sp) && q.2.write_type.changes_value with
  | none => exact absurd (List.find?_eq_none.mp hy p hp) (by simp [hsp, hc])
  | some y =>
    have hQy := List.find?_some hy
    have hy_mem := List.mem_of_find?_eq_some hy
    simp only [Bool.and_eq_true, decide_eq_true_eq] at hQy
    have hle : p.1 ≤ y.1 := find?_key_le v.desc hy hp (by simp [hsp, hc])
    have hge : y.1 ≤ p.1 := hnewest y hy_mem hQy.1 hQy.2
    rw [key_inj v.desc hy_mem hp (le_antisymm hge hle)]

end Read

end Tikv.Mvcc
