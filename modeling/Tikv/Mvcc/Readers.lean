import Tikv.Mvcc.Write
import Tikv.Concurrency.MaxTs
import Tikv.Lib.AssocList

/-!
The readers of one key's versions (src/src/storage/mvcc/reader), at snapshot isolation with no
lock in the way: `MvccReader::get` (reader.rs), `PointGetter::load_data` (point_getter.rs) and
the part of the `BackwardScanner` that reads one key (scanner/backward.rs). The point getter's
write cursor walks the records of the key by `next`, newest first; `MvccReader` seeks again
one below each record; the backward scanner comes to a key at its oldest record and walks it
by `prev`, at most `REVERSE_SEEK_BOUND` times, before it seeks.

An answer is `none` for an error or a panic (DefaultNotFound, a failed assert), `some none`
for no value and `some (some v)` for the value `v`.
-/

namespace Tikv.Mvcc

open Tikv.Concurrency (TimeStamp.max)
open Tikv.Lib.SortedList (find?_congr_of_mem)

def SEEK_BOUND : Nat := 8

def REVERSE_SEEK_BOUND : Nat := 16

abbrev Defaults := List (Nat × List UInt8)

/-- The value of a Put record, carried in it or in the default column family; `none` is
DefaultNotFound. The point getter and the backward scanner load it the same way. -/
def load_data (defaults : Defaults) (write : Write) : Option (List UInt8) :=
  match write.short_value with
  | some value => some value
  | none => List.lookup write.start_ts defaults

def reference_value (writes : List (Nat × Write)) (defaults : Defaults) (ts : Nat) :
    Option (List UInt8) :=
  (reference_read writes ts).bind (load_data defaults)

def last_change_ok (writes : List (Nat × Write)) (p : Nat × Write) : Bool :=
  let below := writes.find? fun q => decide (q.1 < p.1) && q.2.write_type.changes_value
  match p.2.write_type.changes_value, p.2.last_change with
  | false, .Exist last_change_ts _ => below.map (·.1) == some last_change_ts
  | false, .NotExist => below.all fun q => q.2.write_type == .Delete
  | _, _ => true

def LastChangeAccurate (writes : List (Nat × Write)) : Prop :=
  ∀ p ∈ writes, last_change_ok writes p = true

instance (writes : List (Nat × Write)) : Decidable (LastChangeAccurate writes) :=
  inferInstanceAs (Decidable (∀ p ∈ writes, _))

def DefaultsPresent (writes : List (Nat × Write)) (defaults : Defaults) : Prop :=
  ∀ p ∈ writes, p.2.write_type = .Put → p.2.short_value = none →
    (List.lookup p.2.start_ts defaults).isSome

instance (writes : List (Nat × Write)) (defaults : Defaults) :
    Decidable (DefaultsPresent writes defaults) :=
  inferInstanceAs (Decidable (∀ p ∈ writes, _))

section MvccReader

def MvccReader.fence_ok (gc_fence_limit : Option Nat) (write : Write) : Bool :=
  match gc_fence_limit with
  | some limit => write.check_gc_fence_as_latest_version limit
  | none => true

/-- The record that `last_change` points to, read with `get_cf`. The loop's next turn checks
its GC fence and answers, as it is a Put or a Delete; the assert stops anything else. -/
def MvccReader.follow (writes : List (Nat × Write)) (gc_fence_limit : Option Nat)
    (last_change_ts : Nat) : Option (Option (Write × Nat)) :=
  match List.lookup last_change_ts writes with
  | none => some none
  | some write =>
    if write.write_type = .Put ∨ write.write_type = .Delete then
      if !MvccReader.fence_ok gc_fence_limit write then some none
      else if write.write_type = .Put then some (some (write, last_change_ts)) else some none
    else none

def MvccReader.check_write (writes : List (Nat × Write)) (gc_fence_limit : Option Nat)
    (commit_ts : Nat) (write : Write) : Option (Option (Write × Nat)) ⊕ Unit :=
  if !MvccReader.fence_ok gc_fence_limit write then .inl (some none)
  else
    match write.write_type with
    | .Put => .inl (some (some (write, commit_ts)))
    | .Delete => .inl (some none)
    | .Lock | .Rollback =>
      match write.last_change with
      | .NotExist => .inl (some none)
      | .Exist last_change_ts estimated_versions_to_last_change =>
        if SEEK_BOUND ≤ estimated_versions_to_last_change then
          .inl (MvccReader.follow writes gc_fence_limit last_change_ts)
        else .inr ()
      | .Unknown => .inr ()

def MvccReader.get_write_with_commit_ts (writes : List (Nat × Write)) (ts : Nat)
    (gc_fence_limit : Option Nat) : Option (Option (Write × Nat)) :=
  match _h : seek_write writes ts with
  | none => some none
  | some (commit_ts, write) =>
    match MvccReader.check_write writes gc_fence_limit commit_ts write with
    | .inl r => r
    | .inr () =>
      -- "this should only happen in tests"
      if ts = 0 then some none
      -- commit_ts.prev() asserts that the timestamp is positive
      else if commit_ts = 0 then none
      else MvccReader.get_write_with_commit_ts writes (commit_ts - 1) gc_fence_limit
termination_by ts
decreasing_by
  have hle := seek_write_le ‹_›
  dsimp only at hle
  omega

def MvccReader.load_write (defaults : Defaults) : Option (Write × Nat) → Option (Option (List UInt8))
  | some (write, _) => (load_data defaults write).map some
  | none => some none

def MvccReader.get (writes : List (Nat × Write)) (defaults : Defaults) (ts : Nat)
    (gc_fence_limit : Option Nat) : Option (Option (List UInt8)) :=
  (MvccReader.get_write_with_commit_ts writes ts gc_fence_limit).bind
    (MvccReader.load_write defaults)

/-- A commit record of a transaction, found by its start_ts (reader/mod.rs). -/
inductive TxnCommitRecord
  | None (overlapped_write : Option (Write × Nat))
  | SingleRecord (commit_ts : Nat) (write : Write)
  | OverlappedRollback (commit_ts : Nat)
  deriving DecidableEq, Repr

def TxnCommitRecord.info : TxnCommitRecord → Option (Nat × WriteType)
  | .None _ => none
  | .SingleRecord commit_ts write => some (commit_ts, write.write_type)
  | .OverlappedRollback commit_ts => some (commit_ts, .Rollback)

def MvccReader.get_txn_commit_record_loop (writes : List (Nat × Write)) (start_ts : Nat)
    (seek_ts gc_fence : Nat) : TxnCommitRecord :=
  match h : seek_write writes seek_ts with
  | none => .None none
  | some (commit_ts, write) =>
    if write.start_ts = start_ts then .SingleRecord commit_ts write
    else if heq : commit_ts = start_ts then
      if write.has_overlapped_rollback then .OverlappedRollback commit_ts
      else .None (some (write, gc_fence))
    else
      let gc_fence := if write.write_type = .Put ∨ write.write_type = .Delete then commit_ts
        else gc_fence
      if hlt : commit_ts < start_ts then .None none
      else MvccReader.get_txn_commit_record_loop writes start_ts (commit_ts - 1) gc_fence
termination_by seek_ts
decreasing_by
  have hle := seek_write_le h
  dsimp only at hle
  omega

def MvccReader.get_txn_commit_record (writes : List (Nat × Write)) (start_ts : Nat) :
    TxnCommitRecord :=
  MvccReader.get_txn_commit_record_loop writes start_ts TimeStamp.max 0

end MvccReader

section PointGetter

def PointGetter.follow (writes : List (Nat × Write)) (defaults : Defaults) (ts : Nat)
    (last_change_ts : Nat) : Option (Option (List UInt8)) :=
  match List.lookup last_change_ts writes with
  | none => some none
  | some write =>
    if write.write_type = .Put ∨ write.write_type = .Delete then
      if !write.check_gc_fence_as_latest_version ts then some none
      else if write.write_type = .Put then (load_data defaults write).map some else some none
    else none

def PointGetter.check_write (writes : List (Nat × Write)) (defaults : Defaults) (ts : Nat)
    (write : Write) : Option (Option (List UInt8)) ⊕ Unit :=
  if !write.check_gc_fence_as_latest_version ts then .inl (some none)
  else
    match write.write_type with
    | .Put => .inl ((load_data defaults write).map some)
    | .Delete => .inl (some none)
    | .Lock | .Rollback =>
      match write.last_change with
      | .NotExist => .inl (some none)
      | .Exist last_change_ts estimated_versions_to_last_change =>
        if SEEK_BOUND ≤ estimated_versions_to_last_change then
          .inl (PointGetter.follow writes defaults ts last_change_ts)
        else .inr ()
      | .Unknown => .inr ()

def PointGetter.load_loop (writes : List (Nat × Write)) (defaults : Defaults) (ts : Nat) :
    List (Nat × Write) → Option (Option (List UInt8))
  | [] => some none
  | (_, write) :: rest =>
    match PointGetter.check_write writes defaults ts write with
    | .inl r => r
    | .inr () => PointGetter.load_loop writes defaults ts rest

def PointGetter.load_data (writes : List (Nat × Write)) (defaults : Defaults) (ts : Nat) :
    Option (Option (List UInt8)) :=
  match writes with
  | [] => some none
  | _ => PointGetter.load_loop writes defaults ts (writes.dropWhile fun p => ts < p.1)

end PointGetter

section BackwardScanner

def BackwardScanner.handle_last_version (defaults : Defaults) (ts : Nat)
    (some_write : Option Write) : Option (Option (List UInt8)) :=
  match some_write with
  | none => some none
  | some write =>
    if !write.check_gc_fence_as_latest_version ts then some none
    else
      match write.write_type with
      | .Put => (load_data defaults write).map some
      | .Delete => some none
      | .Lock | .Rollback => none

def BackwardScanner.reverse_prev (ts : Nat) :
    Nat → List (Nat × Write) → Option Write → Nat → Option Write ⊕ (Option Write × Nat)
  | 0, _, last_version, last_checked_commit_ts => .inr (last_version, last_checked_commit_ts)
  | _ + 1, [], last_version, _ => .inl last_version
  | i + 1, (commit_ts, write) :: newer, last_version, _ =>
    if ts < commit_ts then .inl last_version
    else
      BackwardScanner.reverse_prev ts i newer
        (if write.write_type.changes_value then some write else last_version) commit_ts

def BackwardScanner.reverse_seek (defaults : Defaults) (ts : Nat) (last_version : Option Write)
    (last_checked_commit_ts : Nat) : List (Nat × Write) → Option (Option (List UInt8))
  | [] => none
  | (current_ts, write) :: rest =>
    if current_ts ≤ last_checked_commit_ts then
      BackwardScanner.handle_last_version defaults ts last_version
    else if !write.check_gc_fence_as_latest_version ts then some none
    else
      match write.write_type with
      | .Put => (load_data defaults write).map some
      | .Delete => some none
      | .Lock | .Rollback =>
        BackwardScanner.reverse_seek defaults ts last_version last_checked_commit_ts rest

def BackwardScanner.reverse_get (writes : List (Nat × Write)) (defaults : Defaults) (ts : Nat) :
    Option (Option (List UInt8)) :=
  match BackwardScanner.reverse_prev ts REVERSE_SEEK_BOUND writes.reverse none 0 with
  | .inl last_version => BackwardScanner.handle_last_version defaults ts last_version
  | .inr (last_version, last_checked_commit_ts) =>
    if last_checked_commit_ts = ts then
      BackwardScanner.handle_last_version defaults ts last_version
    else
      BackwardScanner.reverse_seek defaults ts last_version last_checked_commit_ts
        (writes.dropWhile fun p => ts < p.1)

end BackwardScanner

section Agree

/-! `MvccReader::get` with the read timestamp as GC fence limit and the point getter meet the
same records in the same order, one by seeking below each, the other by `next`, and follow
`last_change` by the same `get_cf`: they answer alike on every key. -/

variable {writes : List (Nat × Write)} {defaults : Defaults} {ts : Nat}

theorem follow_agree (last_change_ts : Nat) :
    (MvccReader.follow writes (some ts) last_change_ts).bind (MvccReader.load_write defaults) =
      PointGetter.follow writes defaults ts last_change_ts := by
  unfold MvccReader.follow PointGetter.follow
  split
  · rfl
  · rename_i write _
    by_cases hpd : write.write_type = .Put ∨ write.write_type = .Delete
    · by_cases hf : write.check_gc_fence_as_latest_version ts = true
      · by_cases hput : write.write_type = .Put
        · simp [hf, hput, MvccReader.fence_ok, MvccReader.load_write]
        · have hdel : write.write_type = .Delete := hpd.resolve_left hput
          simp [hf, hdel, MvccReader.fence_ok, MvccReader.load_write]
      · simp [hpd, hf, MvccReader.fence_ok, MvccReader.load_write]
    · simp [hpd]

theorem check_write_agree (commit_ts : Nat) (write : Write) {α : Type} (k : α)
    (answer : α → Option (Option (List UInt8))) :
    (MvccReader.check_write writes (some ts) commit_ts write).elim
        (fun r => r.bind (MvccReader.load_write defaults)) (fun _ => answer k) =
      (PointGetter.check_write writes defaults ts write).elim id (fun _ => answer k) := by
  unfold MvccReader.check_write PointGetter.check_write
  by_cases hf : write.check_gc_fence_as_latest_version ts = true
  · simp only [MvccReader.fence_ok, hf, Bool.not_true, Bool.false_eq_true, if_false]
    split
    · rfl
    · rfl
    all_goals
      split
      · rfl
      · split
        · exact follow_agree _
        · rfl
      · rfl
  · simp [MvccReader.fence_ok, MvccReader.load_write, hf]

theorem get_write_loop_agree (hdesc : writes.Pairwise fun a b => b.1 < a.1)
    (hpos : ∀ p ∈ writes, 0 < p.1) :
    ∀ (l : List (Nat × Write)) (cur_ts : Nat), (writes.dropWhile fun p => cur_ts < p.1) = l →
      (MvccReader.get_write_with_commit_ts writes cur_ts (some ts)).bind
          (MvccReader.load_write defaults) =
        PointGetter.load_loop writes defaults ts l
  | [], cur_ts, hl => by
    have hseek : seek_write writes cur_ts = none := by rw [seek_write, hl]; rfl
    rw [MvccReader.get_write_with_commit_ts]
    split
    · rfl
    · rename_i h
      rw [hseek] at h
      cases h
  | (commit_ts, write) :: rest, cur_ts, hl => by
    have hseek : seek_write writes cur_ts = some (commit_ts, write) := by
      rw [seek_write, hl]; rfl
    have hc : 0 < commit_ts :=
      hpos _ ((List.dropWhile_sublist _).subset (by rw [hl]; exact List.mem_cons_self))
    have hcur : 0 < cur_ts := lt_of_lt_of_le hc (seek_write_le hseek)
    rw [MvccReader.get_write_with_commit_ts]
    split
    · rename_i h
      rw [hseek] at h
      cases h
    · rename_i commit_ts' write' h
      rw [hseek] at h
      obtain ⟨rfl, rfl⟩ := Prod.mk.inj (Option.some.inj h)
      rw [PointGetter.load_loop]
      -- the seek one below the record finds the rest of the records
      have hrest := get_write_loop_agree hdesc hpos rest (commit_ts - 1) (dropWhile_prev hdesc hl hc)
      have hagree := @check_write_agree writes defaults ts commit_ts write Unit ()
        fun _ => PointGetter.load_loop writes defaults ts rest
      cases hm : MvccReader.check_write writes (some ts) commit_ts write with
      | inl r =>
        rw [hm] at hagree
        cases hp : PointGetter.check_write writes defaults ts write <;> simp_all
      | inr u =>
        rw [hm] at hagree
        rw [if_neg (Nat.pos_iff_ne_zero.mp hcur), if_neg (Nat.pos_iff_ne_zero.mp hc), hrest]
        cases hp : PointGetter.check_write writes defaults ts write <;> simp_all

theorem get_eq_point_get (v : Versions) (hpos : ∀ p ∈ v.writes, 0 < p.1) :
    MvccReader.get v.writes defaults ts (some ts) = PointGetter.load_data v.writes defaults ts := by
  rw [MvccReader.get]
  cases hw : v.writes with
  | nil =>
    rw [MvccReader.get_write_with_commit_ts]
    split
    · rfl
    · rename_i h
      simp [seek_write] at h
  | cons p rest =>
    rw [PointGetter.load_data, ← hw]
    · exact get_write_loop_agree v.desc hpos _ ts rfl
    · exact List.cons_ne_nil p rest

end Agree

section Sound

/-! On a key whose `last_change` pointers lead to the newest change below them, and whose Lock
and Rollback records let a read pass their GC fence, the point getter answers the reference
read, and so does `MvccReader::get`. The fence of the Lock record in `fenced_lock_versions`
is what breaks this. -/

def pointer_sound (writes : List (Nat × Write)) (c : Nat) : LastChange → Bool
  | .Exist last_change_ts _ =>
    decide (last_change_ts < c) &&
      ((writes.find? fun q => decide (q.1 < c) && q.2.write_type.changes_value).all
        fun q => q.1 == last_change_ts) &&
      writes.all fun q => q.1 != last_change_ts || q.2.write_type.changes_value
  | .NotExist =>
    (writes.find? fun q => decide (q.1 < c) && q.2.write_type.changes_value).all
      fun q => q.2.write_type == .Delete
  | .Unknown => true

def LastChangeSound (writes : List (Nat × Write)) : Prop :=
  ∀ p ∈ writes, p.2.write_type.changes_value = false →
    pointer_sound writes p.1 p.2.last_change = true

def FencesClear (writes : List (Nat × Write)) (ts : Nat) : Prop :=
  ∀ p ∈ writes, p.1 ≤ ts → p.2.write_type.changes_value = false →
    p.2.check_gc_fence_as_latest_version ts = true

def answer_of (defaults : Defaults) (ts : Nat) : Option (Nat × Write) → Option (Option (List UInt8))
  | some (_, write) =>
    if write.write_type = .Put ∧ write.check_gc_fence_as_latest_version ts = true then
      (load_data defaults write).map some
    else some none
  | none => some none

variable {writes : List (Nat × Write)} {defaults : Defaults} {ts : Nat}

theorem keys_nodup (hdesc : writes.Pairwise fun a b => b.1 < a.1) :
    (Tikv.Lib.AssocList.keys writes).Nodup :=
  List.pairwise_map.mpr (hdesc.imp fun h => ne_of_gt h)

theorem lookup_of_mem (hdesc : writes.Pairwise fun a b => b.1 < a.1) {t : Nat} {w : Write}
    (h : (t, w) ∈ writes) : List.lookup t writes = some w :=
  (Tikv.Lib.AssocList.mem_iff_lookup (keys_nodup hdesc)).mp h

theorem load_data_of_present (hdef : DefaultsPresent writes defaults) {p : Nat × Write}
    (hp : p ∈ writes) (hput : p.2.write_type = .Put) : ∃ value, load_data defaults p.2 = some value := by
  unfold load_data
  cases hs : p.2.short_value with
  | some value => exact ⟨value, rfl⟩
  | none => exact Option.isSome_iff_exists.mp (hdef p hp hput hs)

theorem answer_of_reference (hdef : DefaultsPresent writes defaults) :
    answer_of defaults ts
        (writes.find? fun q => decide (q.1 ≤ ts) && q.2.write_type.changes_value) =
      some (reference_value writes defaults ts) := by
  unfold reference_value reference_read
  cases hf : writes.find? fun q => decide (q.1 ≤ ts) && q.2.write_type.changes_value with
  | none => rfl
  | some p =>
    obtain ⟨commit_ts, write⟩ := p
    by_cases hput : write.write_type = .Put ∧ write.check_gc_fence_as_latest_version ts = true
    · obtain ⟨value, hv⟩ := load_data_of_present hdef (List.mem_of_find?_eq_some hf) hput.1
      simp [answer_of, hput, hv]
    · simp [answer_of, hput]

theorem find?_below (hdesc : writes.Pairwise fun a b => b.1 < a.1) {pre rest : List (Nat × Write)}
    {c : Nat} {w : Write} (hws : writes = pre ++ (c, w) :: rest) :
    (writes.find? fun q => decide (q.1 < c) && q.2.write_type.changes_value) =
      rest.find? fun q => q.2.write_type.changes_value := by
  have hpre : ∀ q ∈ pre, c < q.1 := by
    subst hws
    exact fun q hq => (List.pairwise_append.mp hdesc).2.2 q hq _ List.mem_cons_self
  have hrest : ∀ q ∈ rest, q.1 < c := by
    subst hws
    exact (List.pairwise_cons.mp (List.pairwise_append.mp hdesc).2.1).1
  rw [hws, List.find?_append, List.find?_eq_none.mpr fun q hq => by simp [not_lt.mpr (le_of_lt (hpre q hq))],
    Option.none_or, List.find?_cons]
  simp only [lt_irrefl, decide_false, Bool.false_and]
  exact find?_congr_of_mem fun q hq => by simp [hrest q hq]

theorem changes_of_find?_below {c : Nat} {d : Nat × Write}
    (h : (writes.find? fun q => decide (q.1 < c) && q.2.write_type.changes_value) = some d) :
    d.2.write_type.changes_value = true := by
  have := List.find?_some h
  simp only [Bool.and_eq_true] at this
  exact this.2

theorem lookup_pointer (hdesc : writes.Pairwise fun a b => b.1 < a.1) {c last_change_ts n : Nat}
    (hsound : pointer_sound writes c (.Exist last_change_ts n) = true) :
    (List.lookup last_change_ts writes).map (Prod.mk last_change_ts) =
      writes.find? fun q => decide (q.1 < c) && q.2.write_type.changes_value := by
  simp only [pointer_sound, Bool.and_eq_true, decide_eq_true_eq, Option.all_eq_true,
    List.all_eq_true, beq_iff_eq, Bool.or_eq_true, bne_iff_ne, ne_eq] at hsound
  obtain ⟨⟨hlt, hat⟩, hchange⟩ := hsound
  cases hf : writes.find? fun q => decide (q.1 < c) && q.2.write_type.changes_value with
  | none =>
    -- nothing at the named timestamp: a change there would be below `c`
    cases hl : List.lookup last_change_ts writes with
    | none => rfl
    | some w =>
      have hmem := Tikv.Lib.AssocList.mem_of_lookup hl
      have hc : w.write_type.changes_value = true := (hchange _ hmem).resolve_left (by simp)
      have := List.find?_eq_none.mp hf _ hmem
      simp [hlt, hc] at this
  | some d =>
    rw [← hat d hf, lookup_of_mem hdesc (List.mem_of_find?_eq_some hf)]
    rfl

theorem PointGetter.follow_answer (hdesc : writes.Pairwise fun a b => b.1 < a.1)
    {c last_change_ts n : Nat} (hsound : pointer_sound writes c (.Exist last_change_ts n) = true) :
    PointGetter.follow writes defaults ts last_change_ts =
      answer_of defaults ts
        (writes.find? fun q => decide (q.1 < c) && q.2.write_type.changes_value) := by
  rw [← lookup_pointer hdesc hsound, PointGetter.follow]
  cases hl : List.lookup last_change_ts writes with
  | none => rfl
  | some w =>
    have hc : w.write_type.changes_value = true :=
      changes_of_find?_below (by rw [← lookup_pointer hdesc hsound, hl]; rfl)
    rcases WriteType.eq_of_changes_value hc with hput | hdel
    · by_cases hfence : w.check_gc_fence_as_latest_version ts = true <;>
        simp [answer_of, hput, hfence]
    · simp [answer_of, hdel]

theorem PointGetter.check_write_of_changes {w : Write} (c : Nat)
    (h : w.write_type.changes_value = true) :
    PointGetter.check_write writes defaults ts w = .inl (answer_of defaults ts (some (c, w))) := by
  rcases WriteType.eq_of_changes_value h with h | h <;>
    by_cases hf : w.check_gc_fence_as_latest_version ts = true <;>
    simp [PointGetter.check_write, answer_of, h, hf]

theorem PointGetter.load_loop_answer (hdesc : writes.Pairwise fun a b => b.1 < a.1)
    (hsound : LastChangeSound writes) (hfence : FencesClear writes ts) :
    ∀ (l pre : List (Nat × Write)), writes = pre ++ l → (∀ q ∈ l, q.1 ≤ ts) →
      PointGetter.load_loop writes defaults ts l =
        answer_of defaults ts (l.find? fun q => q.2.write_type.changes_value)
  | [], _, _, _ => rfl
  | (c, w) :: rest, pre, hws, hle => by
    rw [PointGetter.load_loop, List.find?_cons]
    by_cases hc : w.write_type.changes_value = true
    · rw [PointGetter.check_write_of_changes c hc, hc]
    -- a Lock or Rollback record: its fence lets the read pass, then its pointer is followed
    have hnc : w.write_type.changes_value = false := by simpa using hc
    have hlr := WriteType.eq_of_not_changes_value hnc
    have hmem : (c, w) ∈ writes := by rw [hws]; simp
    have hf : w.check_gc_fence_as_latest_version ts = true :=
      hfence _ hmem (hle _ List.mem_cons_self) hnc
    have hptr := hsound _ hmem hnc
    have hbelow := find?_below hdesc hws
    have ih := PointGetter.load_loop_answer hdesc hsound hfence rest (pre ++ [(c, w)]) (by simp [hws])
      fun q hq => hle q (List.mem_cons_of_mem _ hq)
    rw [hnc]
    dsimp only
    cases hlc : w.last_change with
    | Unknown =>
      rcases hlr with h | h <;> simp only [PointGetter.check_write, hf, h, hlc] <;> exact ih
    | NotExist =>
      rw [hlc] at hptr
      simp only [pointer_sound, hbelow, Option.all_eq_true, beq_iff_eq] at hptr
      have hans : answer_of defaults ts (rest.find? fun q => q.2.write_type.changes_value) =
          some none := by
        cases hr : rest.find? fun q => q.2.write_type.changes_value with
        | none => rfl
        | some d => simp [answer_of, hptr d hr]
      rw [hans]
      rcases hlr with h | h <;> simp [PointGetter.check_write, hf, h, hlc]
    | Exist last_change_ts n =>
      rw [hlc] at hptr
      by_cases hn : SEEK_BOUND ≤ n
      · rw [← hbelow, ← PointGetter.follow_answer hdesc hptr]
        rcases hlr with h | h <;> simp [PointGetter.check_write, hf, h, hlc, hn]
      · rcases hlr with h | h <;> simp only [PointGetter.check_write, hf, h, hlc, hn] <;> exact ih

theorem mem_dropWhile_le (hdesc : writes.Pairwise fun a b => b.1 < a.1) {q : Nat × Write}
    (hq : q ∈ writes.dropWhile fun p => ts < p.1) : q.1 ≤ ts := by
  induction writes with
  | nil => cases hq
  | cons a rest ih =>
    rw [List.pairwise_cons] at hdesc
    by_cases ha : ts < a.1
    · rw [List.dropWhile_cons_of_pos (by simpa using ha)] at hq
      exact ih hdesc.2 hq
    · rw [List.dropWhile_cons_of_neg (by simpa using ha)] at hq
      rcases List.mem_cons.mp hq with rfl | hq
      · exact not_lt.mp ha
      · exact le_of_lt (lt_of_lt_of_le (hdesc.1 q hq) (not_lt.mp ha))

theorem find?_dropWhile (hdesc : writes.Pairwise fun a b => b.1 < a.1) :
    (writes.find? fun q => decide (q.1 ≤ ts) && q.2.write_type.changes_value) =
      (writes.dropWhile fun p => ts < p.1).find? fun q => q.2.write_type.changes_value := by
  induction writes with
  | nil => rfl
  | cons a rest ih =>
    by_cases ha : ts < a.1
    · rw [List.dropWhile_cons_of_pos (by simpa using ha), List.find?_cons]
      simp only [not_le.mpr ha, decide_false, Bool.false_and]
      exact ih (List.pairwise_cons.mp hdesc).2
    · rw [List.dropWhile_cons_of_neg (by simpa using ha)]
      exact find?_congr_of_mem fun q hq => by
        simp [mem_dropWhile_le hdesc (by rw [List.dropWhile_cons_of_neg (by simpa using ha)]; exact hq)]

theorem point_get_eq_reference (v : Versions) (hsound : LastChangeSound v.writes)
    (hfence : FencesClear v.writes ts) (hdef : DefaultsPresent v.writes defaults) :
    PointGetter.load_data v.writes defaults ts = some (reference_value v.writes defaults ts) := by
  rw [← answer_of_reference hdef, find?_dropWhile v.desc]
  cases hw : v.writes with
  | nil => rfl
  | cons p rest =>
    rw [PointGetter.load_data, ← hw]
    · exact PointGetter.load_loop_answer v.desc hsound hfence _ _ List.takeWhile_append_dropWhile.symm
        fun q hq => mem_dropWhile_le v.desc hq
    · exact List.cons_ne_nil p rest

def put_of : Option (Nat × Write) → Option (Write × Nat)
  | some (commit_ts, write) => if write.write_type = .Put then some (write, commit_ts) else none
  | none => none

section GetWrite

variable {limit : Option Nat}

theorem MvccReader.follow_answer (hdesc : writes.Pairwise fun a b => b.1 < a.1)
    (hfence : ∀ p ∈ writes, MvccReader.fence_ok limit p.2 = true) {c last_change_ts n : Nat}
    (hsound : pointer_sound writes c (.Exist last_change_ts n) = true) :
    MvccReader.follow writes limit last_change_ts =
      some (put_of (writes.find? fun q => decide (q.1 < c) && q.2.write_type.changes_value)) := by
  rw [← lookup_pointer hdesc hsound, MvccReader.follow]
  cases hl : List.lookup last_change_ts writes with
  | none => rfl
  | some w =>
    have hc : w.write_type.changes_value = true :=
      changes_of_find?_below (by rw [← lookup_pointer hdesc hsound, hl]; rfl)
    have hf : MvccReader.fence_ok limit w = true := hfence _ (Tikv.Lib.AssocList.mem_of_lookup hl)
    rcases WriteType.eq_of_changes_value hc with h | h <;> simp [put_of, h, hf]

theorem MvccReader.check_write_of_changes {w : Write} (c : Nat)
    (hf : MvccReader.fence_ok limit w = true) (h : w.write_type.changes_value = true) :
    MvccReader.check_write writes limit c w = .inl (some (put_of (some (c, w)))) := by
  rcases WriteType.eq_of_changes_value h with h | h <;> simp [MvccReader.check_write, put_of, h, hf]

theorem MvccReader.get_write_loop_answer (hdesc : writes.Pairwise fun a b => b.1 < a.1)
    (hpos : ∀ p ∈ writes, 0 < p.1) (hsound : LastChangeSound writes)
    (hfence : ∀ p ∈ writes, MvccReader.fence_ok limit p.2 = true) :
    ∀ (l : List (Nat × Write)) (cur_ts : Nat), (writes.dropWhile fun p => cur_ts < p.1) = l →
      MvccReader.get_write_with_commit_ts writes cur_ts limit =
        some (put_of (l.find? fun q => q.2.write_type.changes_value))
  | [], cur_ts, hl => by
    have hseek : seek_write writes cur_ts = none := by rw [seek_write, hl]; rfl
    rw [MvccReader.get_write_with_commit_ts]
    split
    · rfl
    · rename_i h
      rw [hseek] at h
      cases h
  | (commit_ts, write) :: rest, cur_ts, hl => by
    have hseek : seek_write writes cur_ts = some (commit_ts, write) := by
      rw [seek_write, hl]; rfl
    have hmem : (commit_ts, write) ∈ writes :=
      (List.dropWhile_sublist _).subset (by rw [hl]; exact List.mem_cons_self)
    have hc : 0 < commit_ts := hpos _ hmem
    have hcur : 0 < cur_ts := lt_of_lt_of_le hc (seek_write_le hseek)
    rw [MvccReader.get_write_with_commit_ts]
    split
    · rename_i h
      rw [hseek] at h
      cases h
    rename_i commit_ts' write' h
    rw [hseek] at h
    obtain ⟨rfl, rfl⟩ := Prod.mk.inj (Option.some.inj h)
    rw [List.find?_cons]
    by_cases hch : write.write_type.changes_value = true
    · rw [MvccReader.check_write_of_changes commit_ts (hfence _ hmem) hch, hch]
    -- a Lock or Rollback record: the loop follows its pointer or seeks below it
    have hnc : write.write_type.changes_value = false := by simpa using hch
    have hlr := WriteType.eq_of_not_changes_value hnc
    have hws : writes = writes.takeWhile (fun p => cur_ts < p.1) ++ (commit_ts, write) :: rest := by
      rw [← hl, List.takeWhile_append_dropWhile]
    have hptr := hsound _ hmem hnc
    have hbelow := find?_below hdesc hws
    have hrest := MvccReader.get_write_loop_answer hdesc hpos hsound hfence rest (commit_ts - 1)
      (dropWhile_prev hdesc hl hc)
    have hf := hfence _ hmem
    rw [hnc]
    dsimp only
    cases hlc : write.last_change with
    | Unknown =>
      rcases hlr with h | h <;>
        simp only [MvccReader.check_write, hf, h, hlc, Bool.not_true, Bool.false_eq_true, if_false,
          if_neg (Nat.pos_iff_ne_zero.mp hcur), if_neg (Nat.pos_iff_ne_zero.mp hc), hrest]
    | NotExist =>
      rw [hlc] at hptr
      simp only [pointer_sound, hbelow, Option.all_eq_true, beq_iff_eq] at hptr
      have hnone : put_of (rest.find? fun q => q.2.write_type.changes_value) = none := by
        cases hr : rest.find? fun q => q.2.write_type.changes_value with
        | none => rfl
        | some d => simp [put_of, hptr d hr]
      rw [hnone]
      rcases hlr with h | h <;> simp [MvccReader.check_write, hf, h, hlc]
    | Exist last_change_ts n =>
      rw [hlc] at hptr
      by_cases hn : SEEK_BOUND ≤ n
      · rw [← hbelow, ← MvccReader.follow_answer hdesc hfence hptr]
        rcases hlr with h | h <;> simp [MvccReader.check_write, hf, h, hlc, hn]
      · rcases hlr with h | h <;>
          simp only [MvccReader.check_write, hf, h, hlc, hn, Bool.not_true, Bool.false_eq_true,
            if_false, if_neg (Nat.pos_iff_ne_zero.mp hcur), if_neg (Nat.pos_iff_ne_zero.mp hc), hrest]

theorem MvccReader.get_write_answer (v : Versions) (hpos : ∀ p ∈ v.writes, 0 < p.1)
    (hsound : LastChangeSound v.writes)
    (hfence : ∀ p ∈ v.writes, MvccReader.fence_ok limit p.2 = true) (ts : Nat) :
    MvccReader.get_write_with_commit_ts v.writes ts limit =
      some (put_of (v.writes.find? fun q => decide (q.1 ≤ ts) && q.2.write_type.changes_value)) := by
  rw [find?_dropWhile v.desc]
  exact MvccReader.get_write_loop_answer v.desc hpos hsound hfence _ ts rfl

end GetWrite

theorem mvcc_get_eq_reference (v : Versions) (hpos : ∀ p ∈ v.writes, 0 < p.1)
    (hsound : LastChangeSound v.writes) (hfence : FencesClear v.writes ts)
    (hdef : DefaultsPresent v.writes defaults) :
    MvccReader.get v.writes defaults ts (some ts) = some (reference_value v.writes defaults ts) := by
  rw [get_eq_point_get v hpos]
  exact point_get_eq_reference v hsound hfence hdef

end Sound

def fenced_lock_versions : Versions where
  writes := [(20, ⟨.Lock, 18, none, false, some 25, .Exist 10 1⟩),
    (10, ⟨.Put, 5, some [118], false, none, .Unknown⟩)]
  desc := by decide

theorem readers_disagree_on_fenced_lock :
    LastChangeAccurate fenced_lock_versions.writes ∧
      DefaultsPresent fenced_lock_versions.writes [] ∧
      reference_value fenced_lock_versions.writes [] 30 = some [118] ∧
      PointGetter.load_data fenced_lock_versions.writes [] 30 = some none ∧
      MvccReader.get fenced_lock_versions.writes [] 30 (some 30) = some none ∧
      BackwardScanner.reverse_get fenced_lock_versions.writes [] 30 = some (some [118]) := by
  refine ⟨by decide, by decide, by decide, by decide, ?_, by decide⟩
  -- the fence of the Lock answers at the first turn, before any seek below it
  rw [MvccReader.get, MvccReader.get_write_with_commit_ts]
  decide

end Tikv.Mvcc
