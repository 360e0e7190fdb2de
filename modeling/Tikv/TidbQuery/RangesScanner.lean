import Tikv.Lib.Lex
import Mathlib

/-!
The coprocessor's scan over several key ranges (src/components/tidb_query_common/src/storage:
range.rs, ranges_iter.rs, scanner.rs, test_fixture.rs), with the scanned range it reports for
paging. Keys are byte strings in lexicographic order. The storage is the fixture storage: the
data in key order, and the entries of the open interval scan that it has not returned yet,
taken from the front in a forward scan and from the back in a backward one. Storage errors,
statistics, the per-range row counts and the rescheduler are left out.
-/

namespace Tikv.TidbQuery

structure IntervalRange where
  lower_inclusive : List UInt8
  upper_exclusive : List UInt8
  deriving DecidableEq, Repr

structure PointRange where
  key : List UInt8
  deriving DecidableEq, Repr

inductive Range
  | Point (r : PointRange)
  | Interval (r : IntervalRange)
  deriving DecidableEq, Repr

inductive IterStatus
  | Drained
  | NewRange (r : Range)
  | Continue
  deriving DecidableEq, Repr

structure RangesIterator where
  in_range : Bool
  iter : List Range
  deriving DecidableEq, Repr

namespace RangesIterator

def new (user_key_ranges : List Range) : RangesIterator := ⟨false, user_key_ranges⟩

def next (it : RangesIterator) : IterStatus × RangesIterator :=
  if it.in_range then (.Continue, it)
  else
    match it.iter with
    | [] => (.Drained, it)
    | range :: rest => (.NewRange range, ⟨true, rest⟩)

def notify_drained (it : RangesIterator) : RangesIterator := { it with in_range := false }

def is_drained (it : RangesIterator) : Bool := it.iter.length == 0

end RangesIterator

structure OwnedKvPairEntry where
  key : List UInt8
  value : List UInt8
  deriving DecidableEq, Repr

/-- The \x60BTreeMap\x60 of the fixture as its entries in key order, and what is left of the
range of it that the open scan walks. -/
structure FixtureStorage where
  data : List (List UInt8 × List UInt8)
  data_view : List (List UInt8 × List UInt8)
  is_backward_scan : Bool
  deriving DecidableEq, Repr

namespace FixtureStorage

def new (data : List (List UInt8 × List UInt8)) : FixtureStorage := ⟨data, [], false⟩

/-- \x60data.range(lower_inclusive..upper_exclusive)\x60: the map panics on a range whose lower
bound lies above its upper one, where the model, as the storage over MVCC, finds nothing. -/
def begin_scan (st : FixtureStorage) (is_backward_scan : Bool) (range : IntervalRange) :
    FixtureStorage :=
  { st with
    data_view := st.data.filter fun p =>
      decide (range.lower_inclusive ≤ p.1) && decide (p.1 < range.upper_exclusive)
    is_backward_scan }

def scan_next_entry (st : FixtureStorage) : Option OwnedKvPairEntry × FixtureStorage :=
  if !st.is_backward_scan then
    match st.data_view with
    | [] => (none, st)
    | (k, v) :: rest => (some ⟨k, v⟩, { st with data_view := rest })
  else
    match st.data_view.getLast? with
    | none => (none, st)
    | some (k, v) => (some ⟨k, v⟩, { st with data_view := st.data_view.dropLast })

def get_entry (st : FixtureStorage) (range : PointRange) : Option OwnedKvPairEntry :=
  (st.data.lookup range.key).map fun v => ⟨range.key, v⟩

end FixtureStorage

structure RangesScanner where
  storage : FixtureStorage
  ranges_iter : RangesIterator
  scan_backward_in_range : Bool
  is_scanned_range_aware : Bool
  current_range : IntervalRange
  working_range_begin_key : List UInt8
  working_range_end_key : List UInt8
  deriving DecidableEq, Repr

inductive LoopStep
  | Return (row : Option OwnedKvPairEntry)
  | Again
  deriving DecidableEq, Repr

namespace RangesScanner

def new (storage : FixtureStorage) (ranges : List Range)
    (scan_backward_in_range is_scanned_range_aware : Bool) : RangesScanner :=
  ⟨storage, RangesIterator.new ranges, scan_backward_in_range, is_scanned_range_aware,
    ⟨[], []⟩, [], []⟩

def update_working_range_begin_key (s : RangesScanner) : RangesScanner :=
  if s.working_range_begin_key.isEmpty then
    { s with
      working_range_begin_key := s.working_range_begin_key ++
        if !s.scan_backward_in_range then s.current_range.lower_inclusive
        else s.current_range.upper_exclusive }
  else s

def update_working_range_end_key (s : RangesScanner) : RangesScanner :=
  { s with
    working_range_end_key :=
      if !s.scan_backward_in_range then s.current_range.upper_exclusive
      else s.current_range.lower_inclusive }

def update_scanned_range_from (s : RangesScanner) (range : IntervalRange) : RangesScanner :=
  let s :=
    if s.current_range.lower_inclusive.isEmpty || s.ranges_iter.is_drained then
      { s with current_range := ⟨range.lower_inclusive, range.upper_exclusive⟩ }
    else s
  s.update_working_range_begin_key

def update_scanned_range_from_new_point (s : RangesScanner) (point : PointRange) :
    RangesScanner :=
  s.update_scanned_range_from ⟨point.key, point.key ++ [0]⟩

def update_scanned_range_from_new_range (s : RangesScanner) (range : IntervalRange) :
    RangesScanner :=
  s.update_scanned_range_from range

def update_scanned_range_from_scanned_row (s : RangesScanner)
    (some_row : Option OwnedKvPairEntry) : RangesScanner :=
  match some_row with
  | some row =>
    { s with
      working_range_end_key := if !s.scan_backward_in_range then row.key ++ [0] else row.key }
  | none => s

/-- \x60none\x60 is the panic of the assertion on a scanner that is not scanned-range aware. -/
def take_scanned_range (s : RangesScanner) : Option (IntervalRange × RangesScanner) :=
  if !s.is_scanned_range_aware then none
  else if !s.scan_backward_in_range then
    some (⟨s.working_range_begin_key, s.working_range_end_key⟩,
      { s with working_range_begin_key := [] ++ s.working_range_end_key,
               working_range_end_key := [] })
  else
    some (⟨s.working_range_end_key, s.working_range_begin_key⟩,
      { s with working_range_begin_key := [] ++ s.working_range_end_key,
               working_range_end_key := [] })

def after_row (s : RangesScanner) (update_scanned_range : Bool)
    (some_row : Option OwnedKvPairEntry) : LoopStep × RangesScanner :=
  let s :=
    if s.is_scanned_range_aware && update_scanned_range then
      s.update_scanned_range_from_scanned_row some_row
    else s
  match some_row with
  | some row => (.Return (some row), s)
  | none => (.Again, { s with ranges_iter := s.ranges_iter.notify_drained })

def next_opt_body (s : RangesScanner) (update_scanned_range : Bool) :
    LoopStep × RangesScanner :=
  let (range, ranges_iter) := s.ranges_iter.next
  let s := { s with ranges_iter }
  match range with
  | .NewRange (.Point r) =>
    let s := if s.is_scanned_range_aware then s.update_scanned_range_from_new_point r else s
    let s := { s with ranges_iter := s.ranges_iter.notify_drained }
    s.after_row update_scanned_range (s.storage.get_entry r)
  | .NewRange (.Interval r) =>
    let s := if s.is_scanned_range_aware then s.update_scanned_range_from_new_range r else s
    let (some_row, storage) := (s.storage.begin_scan s.scan_backward_in_range r).scan_next_entry
    { s with storage }.after_row update_scanned_range some_row
  | .Continue =>
    let (some_row, storage) := s.storage.scan_next_entry
    { s with storage }.after_row update_scanned_range some_row
  | .Drained =>
    (.Return none, if s.is_scanned_range_aware then s.update_working_range_end_key else s)

def measure (s : RangesScanner) : Nat :=
  2 * s.ranges_iter.iter.length + if s.ranges_iter.in_range then 1 else 0

variable {s s' : RangesScanner} {u : Bool}

section Fields

variable (s)

@[simp] theorem update_working_range_begin_key_ranges_iter :
    s.update_working_range_begin_key.ranges_iter = s.ranges_iter := by
  unfold update_working_range_begin_key; split <;> rfl

@[simp] theorem update_working_range_begin_key_storage :
    s.update_working_range_begin_key.storage = s.storage := by
  unfold update_working_range_begin_key; split <;> rfl

@[simp] theorem update_working_range_begin_key_scan_backward_in_range :
    s.update_working_range_begin_key.scan_backward_in_range = s.scan_backward_in_range := by
  unfold update_working_range_begin_key; split <;> rfl

@[simp] theorem update_working_range_begin_key_is_scanned_range_aware :
    s.update_working_range_begin_key.is_scanned_range_aware = s.is_scanned_range_aware := by
  unfold update_working_range_begin_key; split <;> rfl

@[simp] theorem update_working_range_begin_key_current_range :
    s.update_working_range_begin_key.current_range = s.current_range := by
  unfold update_working_range_begin_key; split <;> rfl

@[simp] theorem update_working_range_begin_key_end_key :
    s.update_working_range_begin_key.working_range_end_key = s.working_range_end_key := by
  unfold update_working_range_begin_key; split <;> rfl

theorem update_working_range_begin_key_begin_key :
    s.update_working_range_begin_key.working_range_begin_key =
      if s.working_range_begin_key.isEmpty then
        if !s.scan_backward_in_range then s.current_range.lower_inclusive
        else s.current_range.upper_exclusive
      else s.working_range_begin_key := by
  unfold update_working_range_begin_key
  split
  · rename_i h
    simp only [List.isEmpty_iff] at h
    simp [h]
  · simp [*]

@[simp] theorem update_scanned_range_from_ranges_iter (r : IntervalRange) :
    (s.update_scanned_range_from r).ranges_iter = s.ranges_iter := by
  unfold update_scanned_range_from; split <;> simp

@[simp] theorem update_scanned_range_from_storage (r : IntervalRange) :
    (s.update_scanned_range_from r).storage = s.storage := by
  unfold update_scanned_range_from; split <;> simp

@[simp] theorem update_scanned_range_from_scan_backward_in_range (r : IntervalRange) :
    (s.update_scanned_range_from r).scan_backward_in_range = s.scan_backward_in_range := by
  unfold update_scanned_range_from; split <;> simp

@[simp] theorem update_scanned_range_from_is_scanned_range_aware (r : IntervalRange) :
    (s.update_scanned_range_from r).is_scanned_range_aware = s.is_scanned_range_aware := by
  unfold update_scanned_range_from; split <;> simp

@[simp] theorem update_scanned_range_from_end_key (r : IntervalRange) :
    (s.update_scanned_range_from r).working_range_end_key = s.working_range_end_key := by
  unfold update_scanned_range_from; split <;> simp

end Fields

theorem after_row_some (row : OwnedKvPairEntry) :
    s.after_row u (some row) =
      (.Return (some row),
        if s.is_scanned_range_aware && u then s.update_scanned_range_from_scanned_row (some row)
        else s) := rfl

theorem after_row_none :
    s.after_row u none = (.Again, { s with ranges_iter := s.ranges_iter.notify_drained }) := by
  unfold after_row
  split <;> rfl

theorem next_opt_body_continue (h : s.ranges_iter.in_range = true) :
    s.next_opt_body u =
      { s with storage := s.storage.scan_next_entry.2 }.after_row u
        s.storage.scan_next_entry.1 := by
  simp [next_opt_body, RangesIterator.next, h]

theorem next_opt_body_drained (h : s.ranges_iter.in_range = false) (h' : s.ranges_iter.iter = []) :
    s.next_opt_body u =
      (.Return none, if s.is_scanned_range_aware then s.update_working_range_end_key else s) := by
  simp [next_opt_body, RangesIterator.next, h, h']

theorem next_opt_body_point {point : PointRange} {rest : List Range}
    (h : s.ranges_iter.in_range = false) (h' : s.ranges_iter.iter = .Point point :: rest) :
    s.next_opt_body u =
      let s₁ : RangesScanner := { s with ranges_iter := ⟨true, rest⟩ }
      let s₂ := if s.is_scanned_range_aware then s₁.update_scanned_range_from_new_point point
        else s₁
      let s₃ := { s₂ with ranges_iter := s₂.ranges_iter.notify_drained }
      s₃.after_row u (s₃.storage.get_entry point) := by
  simp [next_opt_body, RangesIterator.next, h, h']

theorem next_opt_body_interval {range : IntervalRange} {rest : List Range}
    (h : s.ranges_iter.in_range = false) (h' : s.ranges_iter.iter = .Interval range :: rest) :
    s.next_opt_body u =
      let s₁ : RangesScanner := { s with ranges_iter := ⟨true, rest⟩ }
      let s₂ := if s.is_scanned_range_aware then s₁.update_scanned_range_from_new_range range
        else s₁
      let st := (s₂.storage.begin_scan s₂.scan_backward_in_range range).scan_next_entry
      { s₂ with storage := st.2 }.after_row u st.1 := by
  simp [next_opt_body, RangesIterator.next, h, h']

theorem after_row_again {row : Option OwnedKvPairEntry} (h : s.after_row u row = (.Again, s')) :
    row = none ∧ s' = { s with ranges_iter := s.ranges_iter.notify_drained } := by
  cases row with
  | none =>
    rw [after_row_none] at h
    cases h
    exact ⟨rfl, rfl⟩
  | some row =>
    rw [after_row_some] at h
    cases h

theorem measure_next_opt_body_again (h : s.next_opt_body u = (.Again, s')) :
    s'.measure < s.measure := by
  cases hin : s.ranges_iter.in_range with
  | true =>
    rw [next_opt_body_continue hin] at h
    obtain ⟨-, rfl⟩ := after_row_again h
    simp [measure, RangesIterator.notify_drained, hin]
  | false =>
    cases hiter : s.ranges_iter.iter with
    | nil =>
      rw [next_opt_body_drained hin hiter] at h
      cases h
    | cons range rest =>
      -- a new range is used up, whatever the storage answers
      cases range with
      | Point point =>
        rw [next_opt_body_point hin hiter] at h
        obtain ⟨-, rfl⟩ := after_row_again h
        split <;> simp [measure, RangesIterator.notify_drained, hiter, hin,
          update_scanned_range_from_new_point]
      | Interval range =>
        rw [next_opt_body_interval hin hiter] at h
        obtain ⟨-, rfl⟩ := after_row_again h
        split <;> simp [measure, RangesIterator.notify_drained, hiter, hin,
          update_scanned_range_from_new_range]

/-- Fetches the next row: the loop of the source, which ends since each pass that goes round
again uses up a range or leaves the one it was in. -/
def next_opt (s : RangesScanner) (update_scanned_range : Bool) :
    Option OwnedKvPairEntry × RangesScanner :=
  match _hbody : s.next_opt_body update_scanned_range with
  | (.Return row, s') => (row, s')
  | (.Again, s') => next_opt s' update_scanned_range
termination_by s.measure
decreasing_by exact measure_next_opt_body_again _hbody

def next (s : RangesScanner) : Option OwnedKvPairEntry × RangesScanner := s.next_opt true

theorem next_opt_of_return {row : Option OwnedKvPairEntry}
    (h : s.next_opt_body u = (.Return row, s')) : s.next_opt u = (row, s') := by
  rw [next_opt]
  split <;> rename_i heq <;> rw [h] at heq <;> cases heq
  rfl

theorem next_opt_of_again (h : s.next_opt_body u = (.Again, s')) :
    s.next_opt u = s'.next_opt u := by
  rw [next_opt]
  split <;> rename_i heq <;> rw [h] at heq <;> cases heq
  rfl

theorem next_opt_rec {P : RangesScanner → Prop}
    {Q : Option OwnedKvPairEntry × RangesScanner → Prop}
    (hagain : ∀ s s', P s → s.next_opt_body u = (.Again, s') → P s')
    (hret : ∀ s row s', P s → s.next_opt_body u = (.Return row, s') → Q (row, s'))
    (s : RangesScanner) (hs : P s) : Q (s.next_opt u) := by
  induction hm : s.measure using Nat.strongRecOn generalizing s with
  | _ m ih =>
    rcases hb : s.next_opt_body u with ⟨step, s'⟩
    cases step with
    | Return row =>
      rw [next_opt_of_return hb]
      exact hret s row s' hs hb
    | Again =>
      rw [next_opt_of_again hb]
      exact ih _ (hm ▸ measure_next_opt_body_again hb) s' (hagain s s' hs hb) rfl

end RangesScanner

end Tikv.TidbQuery
