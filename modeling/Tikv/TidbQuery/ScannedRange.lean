import Tikv.TidbQuery.RangesScanner
import Mathlib

/-!
The scanned range that a scanned-range-aware \x60RangesScanner\x60 reports between two calls of
\x60take_scanned_range\x60, over every interleaving of \x60next\x60 and \x60take_scanned_range\x60. An
observer records the keys returned since the last take, where the last taken range ended, and
whether the scan has reported Drained; a take is observed once a \x60next\x60 has run since the
previous one.
-/

namespace Tikv.TidbQuery

open Tikv.Lib.Lex (lt_append_singleton append_singleton_le_of_lt)

def Range.bounds : Range → IntervalRange
  | .Point r => ⟨r.key, r.key ++ [0]⟩
  | .Interval r => r

@[simp] theorem Range.bounds_point (r : PointRange) :
    (Range.Point r).bounds = ⟨r.key, r.key ++ [0]⟩ := rfl

@[simp] theorem Range.bounds_interval (r : IntervalRange) : (Range.Interval r).bounds = r := rfl

def first_lower (ranges : List Range) : List UInt8 :=
  (ranges.head?.map fun r => r.bounds.lower_inclusive).getD []

def first_upper (ranges : List Range) : List UInt8 :=
  (ranges.head?.map fun r => r.bounds.upper_exclusive).getD []

def last_bounds (ranges : List Range) : IntervalRange :=
  (ranges.getLast?.map Range.bounds).getD ⟨[], []⟩

def Ascending (ranges : List Range) : Prop :=
  (∀ r ∈ ranges, r.bounds.lower_inclusive ≤ r.bounds.upper_exclusive) ∧
    ranges.Pairwise fun r r' => r.bounds.upper_exclusive ≤ r'.bounds.lower_inclusive

def Descending (ranges : List Range) : Prop :=
  (∀ r ∈ ranges, r.bounds.lower_inclusive < r.bounds.upper_exclusive) ∧
    ranges.Pairwise fun r r' => r'.bounds.upper_exclusive ≤ r.bounds.lower_inclusive

def KeysAscending (data : List (List UInt8 × List UInt8)) : Prop :=
  data.Pairwise fun a b => a.1 < b.1

instance : DecidablePred Ascending := fun ranges =>
  inferInstanceAs (Decidable ((∀ r ∈ ranges, r.bounds.lower_inclusive ≤ r.bounds.upper_exclusive) ∧
    ranges.Pairwise fun r r' => r.bounds.upper_exclusive ≤ r'.bounds.lower_inclusive))

instance : DecidablePred Descending := fun ranges =>
  inferInstanceAs (Decidable ((∀ r ∈ ranges, r.bounds.lower_inclusive < r.bounds.upper_exclusive) ∧
    ranges.Pairwise fun r r' => r'.bounds.upper_exclusive ≤ r.bounds.lower_inclusive))

instance : DecidablePred KeysAscending := fun data =>
  inferInstanceAs (Decidable (data.Pairwise fun a b => a.1 < b.1))

/-- What is seen of a scan: the scanner, the keys returned since the last take, the end (in the
direction of the scan) of the last taken range, whether Drained was reported, and whether
\x60next\x60 ran since the last take. -/
structure ScanObserver where
  scanner : RangesScanner
  rows : List (List UInt8)
  taken : Option (List UInt8)
  drained : Bool
  fresh : Bool

namespace ScanObserver

def init (s : RangesScanner) : ScanObserver := ⟨s, [], none, false, false⟩

def after_next (o : ScanObserver) (row : Option OwnedKvPairEntry) (s' : RangesScanner) :
    ScanObserver :=
  ⟨s', o.rows ++ (row.map fun e => e.key).toList, o.taken, o.drained || row.isNone, true⟩

def after_take (o : ScanObserver) (r : IntervalRange) (s' : RangesScanner) : ScanObserver :=
  ⟨s', [], some (if o.scanner.scan_backward_in_range then r.lower_inclusive
    else r.upper_exclusive), o.drained, false⟩

section Fields

variable (o : ScanObserver) (row : Option OwnedKvPairEntry) (r : IntervalRange) (s' : RangesScanner)

@[simp] theorem after_next_scanner : (o.after_next row s').scanner = s' := rfl
@[simp] theorem after_next_rows :
    (o.after_next row s').rows = o.rows ++ (row.map fun e => e.key).toList := rfl
@[simp] theorem after_next_taken : (o.after_next row s').taken = o.taken := rfl
@[simp] theorem after_next_drained : (o.after_next row s').drained = (o.drained || row.isNone) :=
  rfl
@[simp] theorem after_next_fresh : (o.after_next row s').fresh = true := rfl
@[simp] theorem after_take_scanner : (o.after_take r s').scanner = s' := rfl
@[simp] theorem after_take_rows : (o.after_take r s').rows = [] := rfl
@[simp] theorem after_take_taken :
    (o.after_take r s').taken = some (if o.scanner.scan_backward_in_range then r.lower_inclusive
      else r.upper_exclusive) := rfl
@[simp] theorem after_take_drained : (o.after_take r s').drained = o.drained := rfl
@[simp] theorem after_take_fresh : (o.after_take r s').fresh = false := rfl

end Fields

end ScanObserver

/-- The interleavings: \x60next\x60 at any time, \x60take_scanned_range\x60 once \x60next\x60 has run
since the previous take. -/
inductive ScanStep : ScanObserver → ScanObserver → Prop
  | next (o : ScanObserver) : ScanStep o (o.after_next o.scanner.next.1 o.scanner.next.2)
  | take {o : ScanObserver} {r : IntervalRange} {s' : RangesScanner} (hfresh : o.fresh = true)
      (h : o.scanner.take_scanned_range = some (r, s')) : ScanStep o (o.after_take r s')

theorem ScanStep.next_of_eq {o : ScanObserver} {row : Option OwnedKvPairEntry} {s' : RangesScanner}
    (h : o.scanner.next = (row, s')) : ScanStep o (o.after_next row s') := by
  have hstep := ScanStep.next o
  rwa [h] at hstep

section Order

variable {ranges rest : List Range} {R : Range}

theorem Ascending.of_suffix (h : Ascending ranges) (hs : R :: rest <:+ ranges) :
    R.bounds.lower_inclusive ≤ R.bounds.upper_exclusive ∧
      ∀ R' ∈ rest, R.bounds.upper_exclusive ≤ R'.bounds.lower_inclusive :=
  ⟨h.1 R (hs.subset (List.mem_cons_self ..)), (List.pairwise_cons.mp (h.2.sublist hs.sublist)).1⟩

theorem Descending.of_suffix (h : Descending ranges) (hs : R :: rest <:+ ranges) :
    R.bounds.lower_inclusive < R.bounds.upper_exclusive ∧
      ∀ R' ∈ rest, R'.bounds.upper_exclusive ≤ R.bounds.lower_inclusive :=
  ⟨h.1 R (hs.subset (List.mem_cons_self ..)), (List.pairwise_cons.mp (h.2.sublist hs.sublist)).1⟩

theorem last_bounds_append (pre : List Range) (R : Range) : last_bounds (pre ++ [R]) = R.bounds := by
  simp [last_bounds]

theorem last_bounds_of_suffix (hs : [R] <:+ ranges) : last_bounds ranges = R.bounds := by
  obtain ⟨pre, rfl⟩ := hs
  exact last_bounds_append pre R

theorem Ascending.upper_le_last (h : Ascending ranges) (hR : R ∈ ranges) :
    R.bounds.upper_exclusive ≤ (last_bounds ranges).upper_exclusive := by
  rcases List.eq_nil_or_concat' ranges with rfl | ⟨pre, L, rfl⟩
  · cases hR
  rw [last_bounds_append]
  rcases List.mem_append.mp hR with hpre | hL
  · have hlt := (List.pairwise_append.mp h.2).2.2 R hpre L (List.mem_singleton_self L)
    exact List.le_trans hlt (h.1 L (by simp))
  · rw [List.mem_singleton.mp hL]
    exact List.le_refl _

theorem Descending.last_le_lower (h : Descending ranges) (hR : R ∈ ranges) :
    (last_bounds ranges).lower_inclusive ≤ R.bounds.lower_inclusive := by
  rcases List.eq_nil_or_concat' ranges with rfl | ⟨pre, L, rfl⟩
  · cases hR
  rw [last_bounds_append]
  rcases List.mem_append.mp hR with hpre | hL
  · have hle := (List.pairwise_append.mp h.2).2.2 R hpre L (List.mem_singleton_self L)
    exact List.le_of_lt (Std.lt_of_lt_of_le (h.1 L (by simp)) hle)
  · rw [List.mem_singleton.mp hL]
    exact List.le_refl _

theorem succ_key_le {k k' : List UInt8} (h : k < k') : k ++ [0] ≤ k' :=
  append_singleton_le_of_lt (fun _ => UInt8.not_lt_zero) h

end Order

namespace FixtureStorage

variable {st : FixtureStorage}

@[simp] theorem begin_scan_data (b : Bool) (r : IntervalRange) :
    (st.begin_scan b r).data = st.data := rfl

@[simp] theorem begin_scan_is_backward_scan (b : Bool) (r : IntervalRange) :
    (st.begin_scan b r).is_backward_scan = b := rfl

theorem mem_begin_scan {b : Bool} {r : IntervalRange} {x : List UInt8 × List UInt8} :
    x ∈ (st.begin_scan b r).data_view ↔
      x ∈ st.data ∧ r.lower_inclusive ≤ x.1 ∧ x.1 < r.upper_exclusive := by
  simp [begin_scan]

theorem begin_scan_keysAscending (h : KeysAscending st.data) (b : Bool) (r : IntervalRange) :
    KeysAscending (st.begin_scan b r).data_view :=
  h.filter _

theorem scan_next_entry_of_forward (h : st.is_backward_scan = false) :
    (st.data_view = [] ∧ st.scan_next_entry = (none, st)) ∨
      ∃ k v rest, st.data_view = (k, v) :: rest ∧
        st.scan_next_entry = (some ⟨k, v⟩, { st with data_view := rest }) := by
  rcases hv : st.data_view with _ | ⟨⟨k, v⟩, rest⟩
  · exact Or.inl ⟨rfl, by simp [scan_next_entry, h, hv]⟩
  · exact Or.inr ⟨k, v, rest, rfl, by simp [scan_next_entry, h, hv]⟩

theorem scan_next_entry_of_backward (h : st.is_backward_scan = true) :
    (st.data_view = [] ∧ st.scan_next_entry = (none, st)) ∨
      ∃ k v pre, st.data_view = pre ++ [(k, v)] ∧
        st.scan_next_entry = (some ⟨k, v⟩, { st with data_view := pre }) := by
  rcases List.eq_nil_or_concat' st.data_view with hv | ⟨pre, ⟨k, v⟩, hv⟩
  · exact Or.inl ⟨hv, by simp [scan_next_entry, h, hv]⟩
  · exact Or.inr ⟨k, v, pre, hv, by simp [scan_next_entry, h, hv]⟩

theorem scan_next_entry_shape :
    st.scan_next_entry.2.data = st.data ∧
      st.scan_next_entry.2.is_backward_scan = st.is_backward_scan ∧
      st.scan_next_entry.2.data_view.Sublist st.data_view := by
  cases hb : st.is_backward_scan with
  | false =>
    rcases scan_next_entry_of_forward hb with ⟨-, h⟩ | ⟨k, v, rest, hv, h⟩
    · rw [h]
      exact ⟨rfl, hb, List.Sublist.refl _⟩
    · rw [h, hv]
      exact ⟨rfl, hb, List.sublist_cons_self _ _⟩
  | true =>
    rcases scan_next_entry_of_backward hb with ⟨-, h⟩ | ⟨k, v, pre, hv, h⟩
    · rw [h]
      exact ⟨rfl, hb, List.Sublist.refl _⟩
    · rw [h, hv]
      exact ⟨rfl, hb, List.sublist_append_left _ _⟩

theorem get_entry_key {p : PointRange} {e : OwnedKvPairEntry} (h : st.get_entry p = some e) :
    e.key = p.key := by
  simp only [get_entry, Option.map_eq_some_iff] at h
  obtain ⟨v, -, rfl⟩ := h
  rfl

end FixtureStorage

namespace RangesScanner

variable {s : RangesScanner} {u : Bool}

def enter (s : RangesScanner) (range : Range) (rest : List Range) : RangesScanner :=
  ({ s with ranges_iter := ⟨true, rest⟩ }).update_scanned_range_from range.bounds

section Fields

variable (s) (range : Range) (rest : List Range)

@[simp] theorem enter_ranges_iter : (s.enter range rest).ranges_iter = ⟨true, rest⟩ := by
  simp [enter]

@[simp] theorem enter_storage : (s.enter range rest).storage = s.storage := by
  simp [enter]

@[simp] theorem enter_scan_backward_in_range :
    (s.enter range rest).scan_backward_in_range = s.scan_backward_in_range := by
  simp [enter]

@[simp] theorem enter_is_scanned_range_aware :
    (s.enter range rest).is_scanned_range_aware = s.is_scanned_range_aware := by
  simp [enter]

@[simp] theorem enter_end_key :
    (s.enter range rest).working_range_end_key = s.working_range_end_key := by
  simp [enter]

theorem enter_current_range :
    (s.enter range rest).current_range =
      if s.current_range.lower_inclusive.isEmpty || rest.length == 0 then range.bounds
      else s.current_range := by
  unfold enter update_scanned_range_from
  split <;> simp_all [RangesIterator.is_drained]

theorem enter_begin_key_of_ne (h : s.working_range_begin_key ≠ []) :
    (s.enter range rest).working_range_begin_key = s.working_range_begin_key := by
  unfold enter update_scanned_range_from
  split <;> simp [update_working_range_begin_key_begin_key, h]

theorem enter_begin_key_first (h : s.working_range_begin_key = [])
    (hc : s.current_range.lower_inclusive = []) :
    (s.enter range rest).working_range_begin_key =
      if !s.scan_backward_in_range then range.bounds.lower_inclusive
      else range.bounds.upper_exclusive := by
  unfold enter update_scanned_range_from
  simp [update_working_range_begin_key_begin_key, h, hc]

@[simp] theorem scanned_row_ranges_iter (e : OwnedKvPairEntry) :
    (s.update_scanned_range_from_scanned_row (some e)).ranges_iter = s.ranges_iter := rfl

@[simp] theorem scanned_row_storage (e : OwnedKvPairEntry) :
    (s.update_scanned_range_from_scanned_row (some e)).storage = s.storage := rfl

@[simp] theorem scanned_row_scan_backward_in_range (e : OwnedKvPairEntry) :
    (s.update_scanned_range_from_scanned_row (some e)).scan_backward_in_range =
      s.scan_backward_in_range := rfl

@[simp] theorem scanned_row_is_scanned_range_aware (e : OwnedKvPairEntry) :
    (s.update_scanned_range_from_scanned_row (some e)).is_scanned_range_aware =
      s.is_scanned_range_aware := rfl

@[simp] theorem scanned_row_current_range (e : OwnedKvPairEntry) :
    (s.update_scanned_range_from_scanned_row (some e)).current_range = s.current_range := rfl

@[simp] theorem scanned_row_begin_key (e : OwnedKvPairEntry) :
    (s.update_scanned_range_from_scanned_row (some e)).working_range_begin_key =
      s.working_range_begin_key := rfl

@[simp] theorem scanned_row_end_key (e : OwnedKvPairEntry) :
    (s.update_scanned_range_from_scanned_row (some e)).working_range_end_key =
      if !s.scan_backward_in_range then e.key ++ [0] else e.key := rfl

end Fields

theorem next_opt_body_point_of_aware {point : PointRange} {rest : List Range}
    (ha : s.is_scanned_range_aware = true) (h : s.ranges_iter.in_range = false)
    (h' : s.ranges_iter.iter = .Point point :: rest) :
    s.next_opt_body u =
      { s.enter (.Point point) rest with ranges_iter := ⟨false, rest⟩ }.after_row u
        (s.storage.get_entry point) := by
  rw [next_opt_body_point h h']
  simp [ha, enter, update_scanned_range_from_new_point, Range.bounds,
    RangesIterator.notify_drained]

theorem next_opt_body_interval_of_aware {range : IntervalRange} {rest : List Range}
    (ha : s.is_scanned_range_aware = true) (h : s.ranges_iter.in_range = false)
    (h' : s.ranges_iter.iter = .Interval range :: rest) :
    s.next_opt_body u =
      { s.enter (.Interval range) rest with
        storage := s.storage.begin_scan s.scan_backward_in_range range }.next_opt_body u := by
  rw [next_opt_body_interval h h', next_opt_body_continue (by simp)]
  simp [ha, enter, update_scanned_range_from_new_range, Range.bounds]

end RangesScanner

def PassOk (I : ScanObserver → Prop) (o : ScanObserver) : LoopStep × RangesScanner → Prop
  | (.Again, s') => I { o with scanner := s' }
  | (.Return row, s') => I (o.after_next row s')

theorem PassOk.imp {I J : ScanObserver → Prop} (h : ∀ o, I o → J o) {o : ScanObserver}
    {p : LoopStep × RangesScanner} (hp : PassOk I o p) : PassOk J o p := by
  obtain ⟨_ | _, _⟩ := p <;> exact h _ hp

theorem PassOk.and {I J : ScanObserver → Prop} {o : ScanObserver} {p : LoopStep × RangesScanner}
    (hI : PassOk I o p) (hJ : PassOk J o p) : PassOk (fun o => I o ∧ J o) o p := by
  obtain ⟨_ | _, _⟩ := p <;> exact ⟨hI, hJ⟩

section Runs

variable {I : ScanObserver → Prop} {o o' : ScanObserver}

theorem PassOk.of_scanner {t : RangesScanner} {p : LoopStep × RangesScanner}
    (h : PassOk I { o with scanner := t } p) : PassOk I o p := by
  obtain ⟨_ | _, _⟩ := p <;> exact h

theorem PassOk.after_row {t : RangesScanner} (ha : t.is_scanned_range_aware = true)
    {row : Option OwnedKvPairEntry}
    (hnone : row = none → I { o with scanner := { t with ranges_iter := t.ranges_iter.notify_drained } })
    (hsome : ∀ e, row = some e →
      I (o.after_next (some e) (t.update_scanned_range_from_scanned_row (some e)))) :
    PassOk I o (t.after_row true row) := by
  cases row with
  | none =>
    rw [RangesScanner.after_row_none]
    exact hnone rfl
  | some e =>
    rw [RangesScanner.after_row_some, ha]
    exact hsome e rfl

theorem after_next_of_pass (hpass : ∀ o, I o → PassOk I o (o.scanner.next_opt_body true))
    (hi : I o) : I (o.after_next o.scanner.next.1 o.scanner.next.2) := by
  refine RangesScanner.next_opt_rec (P := fun s => I { o with scanner := s })
    (Q := fun p => I (o.after_next p.1 p.2)) ?_ ?_ o.scanner hi
  · intro s s' hs hb
    have hok := hpass _ hs
    rw [hb] at hok
    exact hok
  · intro s row s' hs hb
    have hok := hpass _ hs
    rw [hb] at hok
    exact hok

theorem ScanStep.invariant (hpass : ∀ o, I o → PassOk I o (o.scanner.next_opt_body true))
    (htake : ∀ o r s', I o → o.fresh = true → o.scanner.take_scanned_range = some (r, s') →
      I (o.after_take r s'))
    (h : Relation.ReflTransGen ScanStep o o') (hi : I o) : I o' := by
  induction h with
  | refl => exact hi
  | tail _ hstep ih =>
    cases hstep with
    | next => exact after_next_of_pass hpass ih
    | take hfresh htk => exact htake _ _ _ ih hfresh htk

end Runs

/-- What holds of the scanner in either direction: its flags and data, the ranges still to come
as a suffix of the given ones, and inside an interval the entries left to scan, in key order,
inside the interval, and taken from the end the scan goes towards. -/
structure ShapeInv (backward : Bool) (ranges : List Range)
    (data : List (List UInt8 × List UInt8)) (s : RangesScanner) : Prop where
  aware : s.is_scanned_range_aware = true
  direction : s.scan_backward_in_range = backward
  storage_data : s.storage.data = data
  suffix : s.ranges_iter.iter <:+ ranges
  view : s.ranges_iter.in_range = true → ∃ pre r,
    ranges = pre ++ .Interval r :: s.ranges_iter.iter ∧ s.storage.is_backward_scan = backward ∧
      KeysAscending s.storage.data_view ∧
      ∀ x ∈ s.storage.data_view, r.lower_inclusive ≤ x.1 ∧ x.1 < r.upper_exclusive

namespace ShapeInv

variable {backward : Bool} {ranges : List Range} {data : List (List UInt8 × List UInt8)}
  {s t : RangesScanner} {o : ScanObserver}

theorem of_view (hi : ShapeInv backward ranges data s)
    (haware : t.is_scanned_range_aware = s.is_scanned_range_aware)
    (hdir : t.scan_backward_in_range = s.scan_backward_in_range)
    (hdata : t.storage.data = s.storage.data) (hiter : t.ranges_iter.iter = s.ranges_iter.iter)
    (hview : t.ranges_iter.in_range = true → s.ranges_iter.in_range = true ∧
      t.storage.is_backward_scan = s.storage.is_backward_scan ∧
      t.storage.data_view.Sublist s.storage.data_view) :
    ShapeInv backward ranges data t where
  aware := haware.trans hi.aware
  direction := hdir.trans hi.direction
  storage_data := hdata.trans hi.storage_data
  suffix := hiter ▸ hi.suffix
  view := by
    intro hin
    obtain ⟨hin', hback, hsub⟩ := hview hin
    obtain ⟨pre, r, hpre, hb, hsorted, hbounds⟩ := hi.view hin'
    exact ⟨pre, r, hiter ▸ hpre, hback.trans hb, hsorted.sublist hsub,
      fun x hx => hbounds x (hsub.subset hx)⟩

theorem scanned_row (hi : ShapeInv backward ranges data s) (e : OwnedKvPairEntry) :
    ShapeInv backward ranges data (s.update_scanned_range_from_scanned_row (some e)) :=
  hi.of_view rfl rfl rfl rfl fun hin => ⟨hin, rfl, List.Sublist.refl _⟩

theorem leave (hi : ShapeInv backward ranges data s) :
    ShapeInv backward ranges data { s with ranges_iter := s.ranges_iter.notify_drained } :=
  hi.of_view rfl rfl rfl rfl fun hin => by simp [RangesIterator.notify_drained] at hin

theorem suffix_rest (hi : ShapeInv backward ranges data s) {R : Range} {rest : List Range}
    (hiter : s.ranges_iter.iter = R :: rest) : rest <:+ ranges :=
  (List.suffix_cons R rest).trans (hiter ▸ hi.suffix)

theorem pass_continue (hi : ShapeInv backward ranges data o.scanner)
    (hin : o.scanner.ranges_iter.in_range = true) :
    PassOk (fun o => ShapeInv backward ranges data o.scanner) o (o.scanner.next_opt_body true) := by
  rw [RangesScanner.next_opt_body_continue hin]
  obtain ⟨hdata, hback, hsub⟩ := o.scanner.storage.scan_next_entry_shape
  have hnext : ShapeInv backward ranges data
      { o.scanner with storage := o.scanner.storage.scan_next_entry.2 } :=
    hi.of_view rfl rfl hdata rfl fun _ => ⟨hin, hback, hsub⟩
  exact PassOk.after_row (t := { o.scanner with storage := o.scanner.storage.scan_next_entry.2 })
    hi.aware (fun _ => hnext.leave) (fun e _ => hnext.scanned_row e)

theorem open_interval (hdata : KeysAscending data) (hi : ShapeInv backward ranges data s)
    {r : IntervalRange} {rest : List Range} (hiter : s.ranges_iter.iter = .Interval r :: rest) :
    ShapeInv backward ranges data
      { s.enter (.Interval r) rest with
        storage := s.storage.begin_scan s.scan_backward_in_range r } where
  aware := by simpa using hi.aware
  direction := by simpa using hi.direction
  storage_data := by simpa using hi.storage_data
  suffix := by simpa using hi.suffix_rest hiter
  view := by
    intro _
    obtain ⟨pre, hpre⟩ := hi.suffix
    refine ⟨pre, r, by simpa [hiter] using hpre.symm, by simpa using hi.direction, ?_, ?_⟩
    · exact FixtureStorage.begin_scan_keysAscending (hi.storage_data ▸ hdata) _ _
    · intro x hx
      exact (FixtureStorage.mem_begin_scan.mp hx).2

theorem pass (hdata : KeysAscending data) (hi : ShapeInv backward ranges data o.scanner) :
    PassOk (fun o => ShapeInv backward ranges data o.scanner) o (o.scanner.next_opt_body true) := by
  cases hin : o.scanner.ranges_iter.in_range with
  | true => exact hi.pass_continue hin
  | false =>
    cases hiter : o.scanner.ranges_iter.iter with
    | nil =>
      rw [RangesScanner.next_opt_body_drained hin hiter, if_pos hi.aware]
      exact hi.of_view rfl rfl rfl rfl fun h => absurd (hin ▸ h) (by simp)
    | cons R rest =>
      have hsuf := hi.suffix_rest hiter
      cases R with
      | Point p =>
        rw [RangesScanner.next_opt_body_point_of_aware hi.aware hin hiter]
        have hleft : ShapeInv backward ranges data
            { o.scanner.enter (.Point p) rest with ranges_iter := ⟨false, rest⟩ } :=
          { aware := by simpa using hi.aware
            direction := by simpa using hi.direction
            storage_data := by simpa using hi.storage_data
            suffix := by simpa using hsuf
            view := fun h => by simp at h }
        exact PassOk.after_row (t := { o.scanner.enter (.Point p) rest with ranges_iter := ⟨false, rest⟩ })
          (by simpa using hi.aware) (fun _ => hleft.leave)
          (fun e _ => hleft.scanned_row e)
      | Interval r =>
        rw [RangesScanner.next_opt_body_interval_of_aware hi.aware hin hiter]
        exact PassOk.of_scanner ((hi.open_interval hdata hiter).pass_continue (by simp))

end ShapeInv

namespace RangesScanner

variable {s : RangesScanner}

@[simp] theorem update_working_range_end_key_ranges_iter :
    s.update_working_range_end_key.ranges_iter = s.ranges_iter := rfl

@[simp] theorem update_working_range_end_key_storage :
    s.update_working_range_end_key.storage = s.storage := rfl

@[simp] theorem update_working_range_end_key_begin_key :
    s.update_working_range_end_key.working_range_begin_key = s.working_range_begin_key := rfl

@[simp] theorem update_working_range_end_key_current_range :
    s.update_working_range_end_key.current_range = s.current_range := rfl

@[simp] theorem update_working_range_end_key_end_key :
    s.update_working_range_end_key.working_range_end_key =
      if !s.scan_backward_in_range then s.current_range.upper_exclusive
      else s.current_range.lower_inclusive := rfl

theorem take_scanned_range_of_forward (ha : s.is_scanned_range_aware = true)
    (hb : s.scan_backward_in_range = false) :
    s.take_scanned_range =
      some (⟨s.working_range_begin_key, s.working_range_end_key⟩,
        { s with working_range_begin_key := s.working_range_end_key,
                 working_range_end_key := [] }) := by
  simp [take_scanned_range, ha, hb]

theorem take_scanned_range_of_backward (ha : s.is_scanned_range_aware = true)
    (hb : s.scan_backward_in_range = true) :
    s.take_scanned_range =
      some (⟨s.working_range_end_key, s.working_range_begin_key⟩,
        { s with working_range_begin_key := s.working_range_end_key,
                 working_range_end_key := [] }) := by
  simp [take_scanned_range, ha, hb]

end RangesScanner

/-! ### The forward scan -/

structure Unstarted (ranges : List Range) (o : ScanObserver) : Prop where
  ranges_ne : ranges ≠ []
  iter : o.scanner.ranges_iter = ⟨false, ranges⟩
  begin_key : o.scanner.working_range_begin_key = []
  end_key : o.scanner.working_range_end_key = []
  current : o.scanner.current_range = ⟨[], []⟩
  taken : o.taken = none
  rows : o.rows = []
  fresh : o.fresh = false
  drained : o.drained = false

/-- The forward scan once a range is entered: the begin key is where the last taken range ended
(the first range's lower bound before any take), the end key lies just past the last key
returned, and everything still to be scanned lies at or above both. -/
structure FwdStarted (ranges : List Range) (o : ScanObserver) : Prop where
  begin : o.scanner.working_range_begin_key = o.taken.getD (first_lower ranges)
  begin_ne : o.scanner.working_range_begin_key ≠ [] ∨ o.scanner.ranges_iter.iter = []
  current : o.scanner.ranges_iter.iter = [] → o.scanner.current_range = last_bounds ranges
  rows : ∀ k ∈ o.rows,
    o.scanner.working_range_begin_key ≤ k ∧ k < o.scanner.working_range_end_key
  end_le : o.scanner.working_range_end_key ≤ (last_bounds ranges).upper_exclusive
  ahead_view : o.scanner.ranges_iter.in_range = true → ∀ y ∈ o.scanner.storage.data_view,
    o.scanner.working_range_end_key ≤ y.1 ∧ o.scanner.working_range_begin_key ≤ y.1
  ahead_ranges : ∀ R ∈ o.scanner.ranges_iter.iter,
    o.scanner.working_range_end_key ≤ R.bounds.lower_inclusive ∧
      o.scanner.working_range_begin_key ≤ R.bounds.lower_inclusive
  fresh_end : o.fresh = true →
    o.scanner.working_range_end_key ≠ [] ∨ o.scanner.ranges_iter.iter = []
  drained : o.drained = true → o.scanner.ranges_iter.iter = [] ∧
    o.scanner.ranges_iter.in_range = false ∧
    (o.fresh = true → o.scanner.working_range_end_key = (last_bounds ranges).upper_exclusive)

def FwdInv (ranges : List Range) (data : List (List UInt8 × List UInt8)) (o : ScanObserver) :
    Prop :=
  ShapeInv false ranges data o.scanner ∧ (Unstarted ranges o ∨ FwdStarted ranges o)

namespace FwdStarted

variable {ranges : List Range} {data : List (List UInt8 × List UInt8)} {o : ScanObserver}

theorem of_view (hi : FwdStarted ranges o) (hd : o.drained = false) {t : RangesScanner}
    (hB : t.working_range_begin_key = o.scanner.working_range_begin_key)
    (hE : t.working_range_end_key = o.scanner.working_range_end_key)
    (hcur : t.current_range = o.scanner.current_range)
    (hiter : t.ranges_iter.iter = o.scanner.ranges_iter.iter)
    (hview : t.ranges_iter.in_range = true → ∀ y ∈ t.storage.data_view,
      o.scanner.working_range_end_key ≤ y.1 ∧ o.scanner.working_range_begin_key ≤ y.1) :
    FwdStarted ranges { o with scanner := t } where
  begin := hB.trans hi.begin
  begin_ne := by
    dsimp only
    rw [hB, hiter]
    exact hi.begin_ne
  current := by
    dsimp only
    rw [hiter, hcur]
    exact hi.current
  rows := by
    dsimp only
    rw [hB, hE]
    exact hi.rows
  end_le := hE ▸ hi.end_le
  ahead_view := by
    dsimp only
    rw [hB, hE]
    exact hview
  ahead_ranges := by
    dsimp only
    rw [hB, hE, hiter]
    exact hi.ahead_ranges
  fresh_end := by
    dsimp only
    rw [hE, hiter]
    exact hi.fresh_end
  drained := fun h => absurd (hd ▸ h) (by simp)

theorem not_drained (hi : FwdStarted ranges o)
    (h : o.scanner.ranges_iter.iter ≠ [] ∨ o.scanner.ranges_iter.in_range = true) :
    o.drained = false := by
  cases hd : o.drained
  · rfl
  · obtain ⟨hiter, hin, -⟩ := hi.drained hd
    rcases h with h | h
    · exact absurd hiter h
    · simp [hin] at h

theorem scanned_row (hi : FwdStarted ranges o) (hd : o.drained = false)
    (hdir : o.scanner.scan_backward_in_range = false) (e : OwnedKvPairEntry)
    (hB : o.scanner.working_range_begin_key ≤ e.key) (hE : o.scanner.working_range_end_key ≤ e.key)
    (hview : o.scanner.ranges_iter.in_range = true → ∀ y ∈ o.scanner.storage.data_view, e.key < y.1)
    (hranges : ∀ R ∈ o.scanner.ranges_iter.iter, e.key < R.bounds.lower_inclusive)
    (hlast : e.key < (last_bounds ranges).upper_exclusive) :
    FwdStarted ranges
      (o.after_next (some e) (o.scanner.update_scanned_range_from_scanned_row (some e))) where
  begin := by simpa [ScanObserver.after_next] using hi.begin
  begin_ne := by simpa [ScanObserver.after_next] using hi.begin_ne
  current := by simpa [ScanObserver.after_next] using hi.current
  rows := by
    simp only [ScanObserver.after_next, RangesScanner.scanned_row_begin_key,
      RangesScanner.scanned_row_end_key, hdir, Bool.not_false, if_true, Option.map_some,
      Option.toList_some, List.mem_append, List.mem_singleton]
    rintro k (hk | rfl)
    · obtain ⟨hBk, hkE⟩ := hi.rows k hk
      exact ⟨hBk, Std.lt_of_lt_of_le hkE (List.le_trans hE (List.le_of_lt (lt_append_singleton _ _)))⟩
    · exact ⟨hB, lt_append_singleton _ _⟩
  end_le := by
    simpa [ScanObserver.after_next, hdir] using succ_key_le hlast
  ahead_view := by
    simp only [ScanObserver.after_next, RangesScanner.scanned_row_ranges_iter,
      RangesScanner.scanned_row_storage, RangesScanner.scanned_row_begin_key,
      RangesScanner.scanned_row_end_key, hdir, Bool.not_false, if_true]
    intro hin y hy
    exact ⟨succ_key_le (hview hin y hy), (hi.ahead_view hin y hy).2⟩
  ahead_ranges := by
    simp only [ScanObserver.after_next, RangesScanner.scanned_row_ranges_iter,
      RangesScanner.scanned_row_begin_key, RangesScanner.scanned_row_end_key, hdir,
      Bool.not_false, if_true]
    intro R hR
    exact ⟨succ_key_le (hranges R hR), (hi.ahead_ranges R hR).2⟩
  fresh_end := by simp [ScanObserver.after_next, hdir]
  drained := by simp [ScanObserver.after_next, hd]

end FwdStarted

section Forward

variable {ranges : List Range} {data : List (List UInt8 × List UInt8)} {o : ScanObserver}
  {R : Range} {rest : List Range}

theorem fwd_enter (hasc : Ascending ranges) (hL : first_lower ranges ≠ [])
    (hs : ShapeInv false ranges data o.scanner) (hp : Unstarted ranges o ∨ FwdStarted ranges o)
    (hiter : o.scanner.ranges_iter.iter = R :: rest) :
    FwdStarted ranges
        { o with scanner := { o.scanner.enter R rest with ranges_iter := ⟨false, rest⟩ } } ∧
      o.drained = false ∧ o.scanner.working_range_end_key ≤ R.bounds.lower_inclusive ∧
      (o.scanner.enter R rest).working_range_begin_key ≤ R.bounds.lower_inclusive := by
  have hsuf : R :: rest <:+ ranges := hiter ▸ hs.suffix
  have hlast : rest = [] → (o.scanner.enter R rest).current_range = last_bounds ranges := by
    rintro rfl
    rw [RangesScanner.enter_current_range, last_bounds_of_suffix hsuf]
    simp
  obtain ⟨hRle, hRrest⟩ := hasc.of_suffix hsuf
  rcases hp with hu | hi
  · -- the first range: the begin key is set at its lower bound
    have hranges : ranges = R :: rest := by
      rw [← hiter, hu.iter]
    have hB : (o.scanner.enter R rest).working_range_begin_key = R.bounds.lower_inclusive := by
      rw [RangesScanner.enter_begin_key_first _ _ _ hu.begin_key (by rw [hu.current]), hs.direction]
      rfl
    have hfirst : first_lower ranges = R.bounds.lower_inclusive := by
      rw [hranges]
      rfl
    refine ⟨⟨?_, ?_, hlast, ?_, ?_, ?_, ?_, ?_, ?_⟩, hu.drained, ?_, ?_⟩
    · simp [hB, hu.taken, hfirst]
    · exact Or.inl (hB ▸ hfirst ▸ hL)
    · simp [hu.rows]
    · simp [hu.end_key, List.nil_le]
    · simp
    · intro R' hR'
      simp only [RangesScanner.enter_end_key, hu.end_key, hB]
      exact ⟨List.nil_le _, List.le_trans hRle (hRrest R' hR')⟩
    · simp [hu.fresh]
    · simp [hu.drained]
    · simp [hu.end_key, List.nil_le]
    · exact hB ▸ List.le_refl _
  · -- a later range: the begin key stays
    have hBne : o.scanner.working_range_begin_key ≠ [] :=
      hi.begin_ne.resolve_right (by simp [hiter])
    have hB := RangesScanner.enter_begin_key_of_ne o.scanner R rest hBne
    have hd := hi.not_drained (Or.inl (by simp [hiter]))
    have hR := hi.ahead_ranges R (by simp [hiter])
    refine ⟨⟨?_, ?_, hlast, ?_, ?_, ?_, ?_, ?_, ?_⟩, hd, hR.1, hB ▸ hR.2⟩
    · simpa [hB] using hi.begin
    · simp [hB, hBne]
    · simpa [hB] using hi.rows
    · simpa using hi.end_le
    · simp
    · intro R' hR'
      simpa [hB] using hi.ahead_ranges R' (by simp [hiter, hR'])
    · intro hf
      exact Or.inl (by simpa [hiter] using hi.fresh_end hf)
    · simp [hd]

theorem FwdStarted.pass_continue (hasc : Ascending ranges)
    (hs : ShapeInv false ranges data o.scanner) (hi : FwdStarted ranges o)
    (hin : o.scanner.ranges_iter.in_range = true) :
    PassOk (FwdStarted ranges) o (o.scanner.next_opt_body true) := by
  rw [RangesScanner.next_opt_body_continue hin]
  have hd := hi.not_drained (Or.inr hin)
  obtain ⟨pre, r, hpre, hback, hsorted, hbounds⟩ := hs.view hin
  rcases FixtureStorage.scan_next_entry_of_forward hback with ⟨-, h⟩ | ⟨k, v, rest, hv, h⟩
  · rw [h]
    refine PassOk.after_row (t := { o.scanner with storage := o.scanner.storage }) hs.aware ?_ ?_
    · intro _
      exact hi.of_view hd rfl rfl rfl rfl fun h => by simp [RangesIterator.notify_drained] at h
    · intro e he
      cases he
  · rw [h]
    have hmem : (k, v) ∈ o.scanner.storage.data_view := by simp [hv]
    have hahead := hi.ahead_view hin (k, v) hmem
    have hkr : k < r.upper_exclusive := (hbounds (k, v) hmem).2
    have hrest : ∀ R ∈ o.scanner.ranges_iter.iter, r.upper_exclusive ≤ R.bounds.lower_inclusive :=
      (hasc.of_suffix (R := .Interval r) ⟨pre, hpre.symm⟩).2
    have hlast : r.upper_exclusive ≤ (last_bounds ranges).upper_exclusive :=
      hasc.upper_le_last (R := .Interval r) (by simp [hpre])
    have hleft : FwdStarted ranges
        { o with scanner := { o.scanner with storage := { o.scanner.storage with data_view := rest } } } :=
      hi.of_view hd rfl rfl rfl rfl fun _ y hy => hi.ahead_view hin y (by simp [hv, hy])
    refine PassOk.after_row (t := { o.scanner with storage := { o.scanner.storage with data_view := rest } })
      hs.aware ?_ ?_
    · intro he
      cases he
    · intro e he
      cases he
      refine hleft.scanned_row hd hs.direction ⟨k, v⟩ hahead.2 hahead.1 ?_ ?_ ?_
      · intro _ y hy
        rw [hv] at hsorted
        exact (List.pairwise_cons.mp hsorted).1 y hy
      · intro R hR
        exact Std.lt_of_lt_of_le hkr (hrest R hR)
      · exact Std.lt_of_lt_of_le hkr hlast

theorem FwdStarted.drained_pass (hi : FwdStarted ranges o)
    (hdir : o.scanner.scan_backward_in_range = false)
    (hin : o.scanner.ranges_iter.in_range = false) (hiter : o.scanner.ranges_iter.iter = []) :
    FwdStarted ranges (o.after_next none o.scanner.update_working_range_end_key) := by
  have hcur := hi.current hiter
  have hE : o.scanner.update_working_range_end_key.working_range_end_key =
      (last_bounds ranges).upper_exclusive := by
    simp [hdir, hcur]
  refine ⟨?_, ?_, ?_, ?_, ?_, ?_, ?_, ?_, ?_⟩
  · simpa [ScanObserver.after_next] using hi.begin
  · simp [hiter]
  · simpa [ScanObserver.after_next] using hi.current
  · intro k hk
    obtain ⟨hBk, hkE⟩ := hi.rows k (by simpa using hk)
    simp only [ScanObserver.after_next_scanner, RangesScanner.update_working_range_end_key_begin_key,
      hE]
    exact ⟨hBk, Std.lt_of_lt_of_le hkE hi.end_le⟩
  · exact hE ▸ List.le_refl _
  · simp [hin]
  · simp [hiter]
  · simp [hiter]
  · intro _
    exact ⟨by simpa using hiter, by simpa using hin, fun _ => hE⟩

theorem fwd_pass (hasc : Ascending ranges) (hL : first_lower ranges ≠ [])
    (hdata : KeysAscending data) (hs : ShapeInv false ranges data o.scanner)
    (hp : Unstarted ranges o ∨ FwdStarted ranges o) :
    PassOk (FwdStarted ranges) o (o.scanner.next_opt_body true) := by
  cases hin : o.scanner.ranges_iter.in_range with
  | true =>
    have hi : FwdStarted ranges o := hp.resolve_left fun hu => by simp [hu.iter] at hin
    exact hi.pass_continue hasc hs hin
  | false =>
    cases hiter : o.scanner.ranges_iter.iter with
    | nil =>
      have hi : FwdStarted ranges o :=
        hp.resolve_left fun hu => hu.ranges_ne (by simpa [hu.iter] using hiter)
      rw [RangesScanner.next_opt_body_drained hin hiter, if_pos hs.aware]
      exact hi.drained_pass hs.direction hin hiter
    | cons R rest =>
      obtain ⟨hst, hd, hE, hB⟩ := fwd_enter hasc hL hs hp hiter
      obtain ⟨-, hRrest⟩ := hasc.of_suffix (hiter ▸ hs.suffix)
      have hRlast := hasc.upper_le_last (R := R) (hs.suffix.subset (by simp [hiter]))
      cases R with
      | Point p =>
        -- the point is the one key of its range
        rw [RangesScanner.next_opt_body_point_of_aware hs.aware hin hiter]
        refine PassOk.after_row
          (t := { o.scanner.enter (.Point p) rest with ranges_iter := ⟨false, rest⟩ })
          (by simpa using hs.aware) ?_ ?_
        · intro _
          exact hst.of_view hd rfl rfl rfl rfl fun h => by
            simp [RangesIterator.notify_drained] at h
        · intro e he
          have hkey : e.key = p.key := FixtureStorage.get_entry_key he
          have hup : p.key < (Range.Point p).bounds.upper_exclusive := lt_append_singleton _ _
          refine hst.scanned_row hd (by simpa using hs.direction) e ?_ ?_ (fun h => by simp at h)
            ?_ ?_
          · rw [hkey]
            exact hB
          · simpa [hkey] using hE
          · intro R' hR'
            rw [hkey]
            exact Std.lt_of_lt_of_le hup (hRrest R' hR')
          · rw [hkey]
            exact Std.lt_of_lt_of_le hup hRlast
      | Interval r =>
        -- opening the interval, then scanning it as inside a range
        rw [RangesScanner.next_opt_body_interval_of_aware hs.aware hin hiter]
        have hopen : FwdStarted ranges
            { o with scanner := { o.scanner.enter (.Interval r) rest with
                storage := o.scanner.storage.begin_scan o.scanner.scan_backward_in_range r } } := by
          refine hst.of_view hd rfl rfl rfl (by simp) fun _ y hy => ?_
          have hy' := (FixtureStorage.mem_begin_scan.mp hy).2.1
          simp only [RangesScanner.enter_end_key]
          exact ⟨List.le_trans hE hy', List.le_trans hB hy'⟩
        exact PassOk.of_scanner (hopen.pass_continue hasc (hs.open_interval hdata hiter) (by simp))

theorem FwdStarted.take (hi : FwdStarted ranges o) (hdir : o.scanner.scan_backward_in_range = false)
    (hfresh : o.fresh = true) :
    FwdStarted ranges
      (o.after_take ⟨o.scanner.working_range_begin_key, o.scanner.working_range_end_key⟩
        { o.scanner with working_range_begin_key := o.scanner.working_range_end_key,
                         working_range_end_key := [] }) := by
  refine ⟨?_, ?_, ?_, ?_, ?_, ?_, ?_, ?_, ?_⟩
  · simp [ScanObserver.after_take, hdir]
  · exact hi.fresh_end hfresh
  · exact hi.current
  · simp [ScanObserver.after_take]
  · exact List.nil_le _
  · intro hin y hy
    exact ⟨List.nil_le _, (hi.ahead_view hin y hy).1⟩
  · intro R hR
    exact ⟨List.nil_le _, (hi.ahead_ranges R hR).1⟩
  · simp [ScanObserver.after_take]
  · intro hd
    obtain ⟨hiter, hin, -⟩ := hi.drained hd
    exact ⟨hiter, hin, by simp [ScanObserver.after_take]⟩

namespace FwdInv

theorem init (ranges : List Range) (data : List (List UInt8 × List UInt8)) :
    FwdInv ranges data
      (ScanObserver.init (RangesScanner.new (FixtureStorage.new data) ranges false true)) := by
  refine ⟨⟨rfl, rfl, rfl, List.suffix_refl _, fun h => by cases h⟩, ?_⟩
  cases ranges with
  | nil =>
    refine Or.inr ⟨rfl, Or.inr rfl, fun _ => rfl, ?_, List.nil_le _, ?_, ?_, ?_, ?_⟩ <;>
      simp [ScanObserver.init, RangesScanner.new, RangesIterator.new]
  | cons R rest => exact Or.inl ⟨List.cons_ne_nil R rest, rfl, rfl, rfl, rfl, rfl, rfl, rfl, rfl⟩

theorem pass (hasc : Ascending ranges) (hL : first_lower ranges ≠ [])
    (hdata : KeysAscending data) (hi : FwdInv ranges data o) :
    PassOk (FwdInv ranges data) o (o.scanner.next_opt_body true) :=
  ((hi.1.pass hdata).and (fwd_pass hasc hL hdata hi.1 hi.2)).imp fun _ h => ⟨h.1, Or.inr h.2⟩

theorem take (hi : FwdInv ranges data o) (hfresh : o.fresh = true) {r : IntervalRange}
    {s' : RangesScanner} (h : o.scanner.take_scanned_range = some (r, s')) :
    FwdInv ranges data (o.after_take r s') := by
  obtain ⟨hs, hu | hst⟩ := hi
  · simp [hu.fresh] at hfresh
  rw [RangesScanner.take_scanned_range_of_forward hs.aware hs.direction] at h
  obtain ⟨rfl, rfl⟩ := Prod.mk.inj (Option.some.inj h).symm
  exact ⟨hs.of_view rfl rfl rfl rfl fun hin => ⟨hin, rfl, List.Sublist.refl _⟩,
    Or.inr (hst.take hs.direction hfresh)⟩

theorem reachable (hasc : Ascending ranges) (hL : first_lower ranges ≠ [])
    (hdata : KeysAscending data) {o : ScanObserver}
    (h : Relation.ReflTransGen ScanStep
      (ScanObserver.init (RangesScanner.new (FixtureStorage.new data) ranges false true)) o) :
    FwdInv ranges data o :=
  ScanStep.invariant (fun _ hi => hi.pass hasc hL hdata) (fun _ _ _ hi hf ht => hi.take hf ht) h
    (init ranges data)

theorem taken_range (hi : FwdInv ranges data o) (hfresh : o.fresh = true) {r : IntervalRange}
    {s' : RangesScanner} (h : o.scanner.take_scanned_range = some (r, s')) :
    (∀ k ∈ o.rows, r.lower_inclusive ≤ k ∧ k < r.upper_exclusive) ∧
      r.lower_inclusive = o.taken.getD (first_lower ranges) ∧
      (o.drained = true → r.upper_exclusive = (last_bounds ranges).upper_exclusive) := by
  obtain ⟨hs, hu | hst⟩ := hi
  · simp [hu.fresh] at hfresh
  rw [RangesScanner.take_scanned_range_of_forward hs.aware hs.direction] at h
  obtain ⟨rfl, rfl⟩ := Prod.mk.inj (Option.some.inj h).symm
  exact ⟨hst.rows, hst.begin, fun hd => (hst.drained hd).2.2 hfresh⟩

end FwdInv

end Forward


/-! ### The backward scan -/

/-- The backward scan once a range is entered: the begin key is where the last taken range
started (the first range's upper bound before any take), the end key is the last key returned,
and everything still to be scanned lies below both. -/
structure BwdStarted (ranges : List Range) (o : ScanObserver) : Prop where
  begin : o.scanner.working_range_begin_key = o.taken.getD (first_upper ranges)
  begin_ne : o.scanner.working_range_begin_key ≠ [] ∨ o.scanner.ranges_iter.iter = []
  current : o.scanner.ranges_iter.iter = [] → o.scanner.current_range = last_bounds ranges
  rows : ∀ k ∈ o.rows, o.scanner.working_range_end_key ≤ k ∧
    k < o.scanner.working_range_begin_key ∧ (last_bounds ranges).lower_inclusive ≤ k
  fresh_rows : o.fresh = false → o.rows = []
  below_view : o.scanner.ranges_iter.in_range = true → ∀ y ∈ o.scanner.storage.data_view,
    y.1 < o.scanner.working_range_begin_key ∧ (o.fresh = true → y.1 < o.scanner.working_range_end_key)
  below_ranges : ∀ R ∈ o.scanner.ranges_iter.iter,
    R.bounds.upper_exclusive ≤ o.scanner.working_range_begin_key ∧
      (o.fresh = true → R.bounds.upper_exclusive ≤ o.scanner.working_range_end_key)
  drained : o.drained = true → o.scanner.ranges_iter.iter = [] ∧
    o.scanner.ranges_iter.in_range = false ∧
    (o.fresh = true → o.scanner.working_range_end_key = (last_bounds ranges).lower_inclusive)

def BwdInv (ranges : List Range) (data : List (List UInt8 × List UInt8)) (o : ScanObserver) :
    Prop :=
  ShapeInv true ranges data o.scanner ∧ (Unstarted ranges o ∨ BwdStarted ranges o)

namespace BwdStarted

variable {ranges : List Range} {data : List (List UInt8 × List UInt8)} {o : ScanObserver}

theorem of_view (hi : BwdStarted ranges o) (hd : o.drained = false) {t : RangesScanner}
    (hB : t.working_range_begin_key = o.scanner.working_range_begin_key)
    (hE : t.working_range_end_key = o.scanner.working_range_end_key)
    (hcur : t.current_range = o.scanner.current_range)
    (hiter : t.ranges_iter.iter = o.scanner.ranges_iter.iter)
    (hview : t.ranges_iter.in_range = true → ∀ y ∈ t.storage.data_view,
      y.1 < o.scanner.working_range_begin_key ∧
        (o.fresh = true → y.1 < o.scanner.working_range_end_key)) :
    BwdStarted ranges { o with scanner := t } where
  begin := hB.trans hi.begin
  begin_ne := by
    dsimp only
    rw [hB, hiter]
    exact hi.begin_ne
  current := by
    dsimp only
    rw [hiter, hcur]
    exact hi.current
  rows := by
    dsimp only
    rw [hB, hE]
    exact hi.rows
  fresh_rows := hi.fresh_rows
  below_view := by
    dsimp only
    rw [hB, hE]
    exact hview
  below_ranges := by
    dsimp only
    rw [hB, hE, hiter]
    exact hi.below_ranges
  drained := fun h => absurd (hd ▸ h) (by simp)

theorem not_drained (hi : BwdStarted ranges o)
    (h : o.scanner.ranges_iter.iter ≠ [] ∨ o.scanner.ranges_iter.in_range = true) :
    o.drained = false := by
  cases hd : o.drained
  · rfl
  · obtain ⟨hiter, hin, -⟩ := hi.drained hd
    rcases h with h | h
    · exact absurd hiter h
    · simp [hin] at h

theorem scanned_row (hi : BwdStarted ranges o) (hd : o.drained = false)
    (hdir : o.scanner.scan_backward_in_range = true) (e : OwnedKvPairEntry)
    (hB : e.key < o.scanner.working_range_begin_key)
    (hE : o.fresh = true → e.key ≤ o.scanner.working_range_end_key)
    (hlast : (last_bounds ranges).lower_inclusive ≤ e.key)
    (hview : o.scanner.ranges_iter.in_range = true → ∀ y ∈ o.scanner.storage.data_view, y.1 < e.key)
    (hranges : ∀ R ∈ o.scanner.ranges_iter.iter, R.bounds.upper_exclusive ≤ e.key) :
    BwdStarted ranges
      (o.after_next (some e) (o.scanner.update_scanned_range_from_scanned_row (some e))) where
  begin := by simpa using hi.begin
  begin_ne := by simpa using hi.begin_ne
  current := by simpa using hi.current
  rows := by
    simp only [ScanObserver.after_next_scanner, ScanObserver.after_next_rows,
      RangesScanner.scanned_row_begin_key, RangesScanner.scanned_row_end_key, hdir,
      Bool.not_true, Bool.false_eq_true, if_false, Option.map_some, Option.toList_some,
      List.mem_append, List.mem_singleton]
    rintro k (hk | rfl)
    · obtain ⟨hEk, hkB, hlk⟩ := hi.rows k hk
      -- rows only come after a next, which sets the end key
      cases hf : o.fresh
      · simp [hi.fresh_rows hf] at hk
      · exact ⟨List.le_trans (hE hf) hEk, hkB, hlk⟩
    · exact ⟨List.le_refl _, hB, hlast⟩
  fresh_rows := by simp
  below_view := by
    simp only [ScanObserver.after_next_scanner, ScanObserver.after_next_fresh,
      RangesScanner.scanned_row_ranges_iter, RangesScanner.scanned_row_storage,
      RangesScanner.scanned_row_begin_key, RangesScanner.scanned_row_end_key, hdir,
      Bool.not_true, Bool.false_eq_true, if_false]
    intro hin y hy
    exact ⟨(hi.below_view hin y hy).1, fun _ => hview hin y hy⟩
  below_ranges := by
    simp only [ScanObserver.after_next_scanner, ScanObserver.after_next_fresh,
      RangesScanner.scanned_row_ranges_iter, RangesScanner.scanned_row_begin_key,
      RangesScanner.scanned_row_end_key, hdir, Bool.not_true, Bool.false_eq_true, if_false]
    intro R hR
    exact ⟨(hi.below_ranges R hR).1, fun _ => hranges R hR⟩
  drained := by simp [hd]

end BwdStarted

section Backward

variable {ranges : List Range} {data : List (List UInt8 × List UInt8)} {o : ScanObserver}
  {R : Range} {rest : List Range}

theorem bwd_enter (hdesc : Descending ranges) (hs : ShapeInv true ranges data o.scanner)
    (hp : Unstarted ranges o ∨ BwdStarted ranges o)
    (hiter : o.scanner.ranges_iter.iter = R :: rest) :
    BwdStarted ranges
        { o with scanner := { o.scanner.enter R rest with ranges_iter := ⟨false, rest⟩ } } ∧
      o.drained = false ∧
      R.bounds.upper_exclusive ≤ (o.scanner.enter R rest).working_range_begin_key ∧
      (o.fresh = true → R.bounds.upper_exclusive ≤ o.scanner.working_range_end_key) := by
  have hsuf : R :: rest <:+ ranges := hiter ▸ hs.suffix
  have hlast : rest = [] → (o.scanner.enter R rest).current_range = last_bounds ranges := by
    rintro rfl
    rw [RangesScanner.enter_current_range, last_bounds_of_suffix hsuf]
    simp
  obtain ⟨hRlt, hRrest⟩ := hdesc.of_suffix hsuf
  rcases hp with hu | hi
  · -- the first range: the begin key is set at its upper bound
    have hranges : ranges = R :: rest := by
      rw [← hiter, hu.iter]
    have hB : (o.scanner.enter R rest).working_range_begin_key = R.bounds.upper_exclusive := by
      rw [RangesScanner.enter_begin_key_first _ _ _ hu.begin_key (by rw [hu.current]), hs.direction]
      rfl
    have hfirst : first_upper ranges = R.bounds.upper_exclusive := by
      rw [hranges]
      rfl
    refine ⟨⟨?_, ?_, hlast, ?_, ?_, ?_, ?_, ?_⟩, hu.drained, hB ▸ List.le_refl _, ?_⟩
    · simp [hB, hu.taken, hfirst]
    · refine Or.inl (hB ▸ fun h => ?_)
      exact List.not_lt_nil _ (h ▸ hRlt)
    · simp [hu.rows]
    · intro _
      exact hu.rows
    · simp
    · intro R' hR'
      simp only [hB, hu.fresh, Bool.false_eq_true, false_implies, and_true]
      exact List.le_of_lt (Std.lt_of_le_of_lt (hRrest R' hR') hRlt)
    · simp [hu.drained]
    · simp [hu.fresh]
  · -- a later range: the begin key stays
    have hBne : o.scanner.working_range_begin_key ≠ [] :=
      hi.begin_ne.resolve_right (by simp [hiter])
    have hB := RangesScanner.enter_begin_key_of_ne o.scanner R rest hBne
    have hd := hi.not_drained (Or.inl (by simp [hiter]))
    have hR := hi.below_ranges R (by simp [hiter])
    refine ⟨⟨?_, ?_, hlast, ?_, hi.fresh_rows, ?_, ?_, ?_⟩, hd, hB ▸ hR.1, hR.2⟩
    · simpa [hB] using hi.begin
    · simp [hB, hBne]
    · simpa [hB] using hi.rows
    · simp
    · intro R' hR'
      simpa [hB] using hi.below_ranges R' (by simp [hiter, hR'])
    · simp [hd]

theorem BwdStarted.pass_continue (hdesc : Descending ranges)
    (hs : ShapeInv true ranges data o.scanner) (hi : BwdStarted ranges o)
    (hin : o.scanner.ranges_iter.in_range = true) :
    PassOk (BwdStarted ranges) o (o.scanner.next_opt_body true) := by
  rw [RangesScanner.next_opt_body_continue hin]
  have hd := hi.not_drained (Or.inr hin)
  obtain ⟨pre, r, hpre, hback, hsorted, hbounds⟩ := hs.view hin
  rcases FixtureStorage.scan_next_entry_of_backward hback with ⟨-, h⟩ | ⟨k, v, left, hv, h⟩
  · rw [h]
    refine PassOk.after_row (t := { o.scanner with storage := o.scanner.storage }) hs.aware ?_ ?_
    · intro _
      exact hi.of_view hd rfl rfl rfl rfl fun h => by simp [RangesIterator.notify_drained] at h
    · intro e he
      cases he
  · rw [h]
    have hmem : (k, v) ∈ o.scanner.storage.data_view := by simp [hv]
    have hbelow := hi.below_view hin (k, v) hmem
    have hrk : r.lower_inclusive ≤ k := (hbounds (k, v) hmem).1
    have hrest : ∀ R ∈ o.scanner.ranges_iter.iter, R.bounds.upper_exclusive ≤ r.lower_inclusive :=
      (hdesc.of_suffix (R := .Interval r) ⟨pre, hpre.symm⟩).2
    have hlast : (last_bounds ranges).lower_inclusive ≤ r.lower_inclusive :=
      hdesc.last_le_lower (R := .Interval r) (by simp [hpre])
    have hleft : BwdStarted ranges
        { o with scanner := { o.scanner with storage := { o.scanner.storage with data_view := left } } } :=
      hi.of_view hd rfl rfl rfl rfl fun _ y hy => hi.below_view hin y (by simp [hv, hy])
    refine PassOk.after_row (t := { o.scanner with storage := { o.scanner.storage with data_view := left } })
      hs.aware ?_ ?_
    · intro he
      cases he
    · intro e he
      cases he
      refine hleft.scanned_row hd hs.direction ⟨k, v⟩ hbelow.1 (fun hf => List.le_of_lt (hbelow.2 hf))
        (List.le_trans hlast hrk) ?_ ?_
      · intro _ y hy
        rw [hv] at hsorted
        exact (List.pairwise_append.mp hsorted).2.2 y hy (k, v) (List.mem_singleton_self _)
      · intro R hR
        exact List.le_trans (hrest R hR) hrk

theorem BwdStarted.drained_pass (hi : BwdStarted ranges o)
    (hdir : o.scanner.scan_backward_in_range = true)
    (hin : o.scanner.ranges_iter.in_range = false) (hiter : o.scanner.ranges_iter.iter = []) :
    BwdStarted ranges (o.after_next none o.scanner.update_working_range_end_key) := by
  have hcur := hi.current hiter
  have hE : o.scanner.update_working_range_end_key.working_range_end_key =
      (last_bounds ranges).lower_inclusive := by
    simp [hdir, hcur]
  refine ⟨?_, ?_, ?_, ?_, ?_, ?_, ?_, ?_⟩
  · simpa using hi.begin
  · simp [hiter]
  · simpa using hi.current
  · intro k hk
    obtain ⟨-, hkB, hlk⟩ := hi.rows k (by simpa using hk)
    simp only [ScanObserver.after_next_scanner, RangesScanner.update_working_range_end_key_begin_key,
      hE]
    exact ⟨hlk, hkB, hlk⟩
  · simp
  · simp [hin]
  · simp [hiter]
  · intro _
    exact ⟨by simpa using hiter, by simpa using hin, fun _ => hE⟩

theorem bwd_pass (hdesc : Descending ranges) (hdata : KeysAscending data)
    (hs : ShapeInv true ranges data o.scanner) (hp : Unstarted ranges o ∨ BwdStarted ranges o) :
    PassOk (BwdStarted ranges) o (o.scanner.next_opt_body true) := by
  cases hin : o.scanner.ranges_iter.in_range with
  | true =>
    have hi : BwdStarted ranges o := hp.resolve_left fun hu => by simp [hu.iter] at hin
    exact hi.pass_continue hdesc hs hin
  | false =>
    cases hiter : o.scanner.ranges_iter.iter with
    | nil =>
      have hi : BwdStarted ranges o :=
        hp.resolve_left fun hu => hu.ranges_ne (by simpa [hu.iter] using hiter)
      rw [RangesScanner.next_opt_body_drained hin hiter, if_pos hs.aware]
      exact hi.drained_pass hs.direction hin hiter
    | cons R rest =>
      obtain ⟨hst, hd, hB, hE⟩ := bwd_enter hdesc hs hp hiter
      obtain ⟨-, hRrest⟩ := hdesc.of_suffix (hiter ▸ hs.suffix)
      have hRlast := hdesc.last_le_lower (R := R) (hs.suffix.subset (by simp [hiter]))
      cases R with
      | Point p =>
        -- the point is the one key of its range
        rw [RangesScanner.next_opt_body_point_of_aware hs.aware hin hiter]
        refine PassOk.after_row
          (t := { o.scanner.enter (.Point p) rest with ranges_iter := ⟨false, rest⟩ })
          (by simpa using hs.aware) ?_ ?_
        · intro _
          exact hst.of_view hd rfl rfl rfl rfl fun h => by
            simp [RangesIterator.notify_drained] at h
        · intro e he
          have hkey : e.key = p.key := FixtureStorage.get_entry_key he
          have hup : p.key < (Range.Point p).bounds.upper_exclusive := lt_append_singleton _ _
          refine hst.scanned_row hd (by simpa using hs.direction) e ?_ ?_ ?_ (fun h => by simp at h) ?_
          · rw [hkey]
            exact Std.lt_of_lt_of_le hup hB
          · intro hf
            rw [hkey]
            simpa using List.le_of_lt (Std.lt_of_lt_of_le hup (hE hf))
          · rw [hkey]
            exact hRlast
          · intro R' hR'
            rw [hkey]
            exact hRrest R' hR'
      | Interval r =>
        -- opening the interval, then scanning it as inside a range
        rw [RangesScanner.next_opt_body_interval_of_aware hs.aware hin hiter]
        have hopen : BwdStarted ranges
            { o with scanner := { o.scanner.enter (.Interval r) rest with
                storage := o.scanner.storage.begin_scan o.scanner.scan_backward_in_range r } } := by
          refine hst.of_view hd rfl rfl rfl (by simp) fun _ y hy => ?_
          have hy' := (FixtureStorage.mem_begin_scan.mp hy).2.2
          simp only [RangesScanner.enter_end_key]
          exact ⟨Std.lt_of_lt_of_le hy' hB, fun hf => Std.lt_of_lt_of_le hy' (hE hf)⟩
        exact PassOk.of_scanner (hopen.pass_continue hdesc (hs.open_interval hdata hiter) (by simp))

theorem BwdStarted.take (hdesc : Descending ranges) (hsuf : o.scanner.ranges_iter.iter <:+ ranges)
    (hi : BwdStarted ranges o) (hdir : o.scanner.scan_backward_in_range = true)
    (hfresh : o.fresh = true) :
    BwdStarted ranges
      (o.after_take ⟨o.scanner.working_range_end_key, o.scanner.working_range_begin_key⟩
        { o.scanner with working_range_begin_key := o.scanner.working_range_end_key,
                         working_range_end_key := [] }) := by
  refine ⟨?_, ?_, ?_, ?_, ?_, ?_, ?_, ?_⟩
  · simp [hdir]
  · -- a range still to come lies below the last key, which is then not empty
    rcases hiter : o.scanner.ranges_iter.iter with _ | ⟨R, rest⟩
    · exact Or.inr hiter
    · refine Or.inl fun hE => ?_
      have hR := (hi.below_ranges R (by simp [hiter])).2 hfresh
      have hlt := (hdesc.of_suffix (hiter ▸ hsuf)).1
      exact List.not_lt_nil _ (Std.lt_of_lt_of_le hlt (hE ▸ hR))
  · exact hi.current
  · simp
  · simp
  · intro hin y hy
    exact ⟨(hi.below_view hin y hy).2 hfresh, by simp⟩
  · intro R hR
    exact ⟨(hi.below_ranges R hR).2 hfresh, by simp⟩
  · intro hd
    obtain ⟨hiter, hin, -⟩ := hi.drained hd
    exact ⟨hiter, hin, by simp⟩

namespace BwdInv

theorem init (ranges : List Range) (data : List (List UInt8 × List UInt8)) :
    BwdInv ranges data
      (ScanObserver.init (RangesScanner.new (FixtureStorage.new data) ranges true true)) := by
  refine ⟨⟨rfl, rfl, rfl, List.suffix_refl _, fun h => by cases h⟩, ?_⟩
  cases ranges with
  | nil =>
    refine Or.inr ⟨rfl, Or.inr rfl, fun _ => rfl, ?_, fun _ => rfl, ?_, ?_, ?_⟩ <;>
      simp [ScanObserver.init, RangesScanner.new, RangesIterator.new]
  | cons R rest => exact Or.inl ⟨List.cons_ne_nil R rest, rfl, rfl, rfl, rfl, rfl, rfl, rfl, rfl⟩

theorem pass (hdesc : Descending ranges) (hdata : KeysAscending data) (hi : BwdInv ranges data o) :
    PassOk (BwdInv ranges data) o (o.scanner.next_opt_body true) :=
  ((hi.1.pass hdata).and (bwd_pass hdesc hdata hi.1 hi.2)).imp fun _ h => ⟨h.1, Or.inr h.2⟩

theorem take (hdesc : Descending ranges) (hi : BwdInv ranges data o) (hfresh : o.fresh = true)
    {r : IntervalRange} {s' : RangesScanner} (h : o.scanner.take_scanned_range = some (r, s')) :
    BwdInv ranges data (o.after_take r s') := by
  obtain ⟨hs, hu | hst⟩ := hi
  · simp [hu.fresh] at hfresh
  rw [RangesScanner.take_scanned_range_of_backward hs.aware hs.direction] at h
  obtain ⟨rfl, rfl⟩ := Prod.mk.inj (Option.some.inj h).symm
  exact ⟨hs.of_view rfl rfl rfl rfl fun hin => ⟨hin, rfl, List.Sublist.refl _⟩,
    Or.inr (hst.take hdesc hs.suffix hs.direction hfresh)⟩

theorem reachable (hdesc : Descending ranges) (hdata : KeysAscending data) {o : ScanObserver}
    (h : Relation.ReflTransGen ScanStep
      (ScanObserver.init (RangesScanner.new (FixtureStorage.new data) ranges true true)) o) :
    BwdInv ranges data o :=
  ScanStep.invariant (fun _ hi => hi.pass hdesc hdata) (fun _ _ _ hi hf ht => hi.take hdesc hf ht)
    h (init ranges data)

theorem taken_range (hi : BwdInv ranges data o) (hfresh : o.fresh = true) {r : IntervalRange}
    {s' : RangesScanner} (h : o.scanner.take_scanned_range = some (r, s')) :
    (∀ k ∈ o.rows, r.lower_inclusive ≤ k ∧ k < r.upper_exclusive) ∧
      r.upper_exclusive = o.taken.getD (first_upper ranges) ∧
      (o.drained = true → r.lower_inclusive = (last_bounds ranges).lower_inclusive) := by
  obtain ⟨hs, hu | hst⟩ := hi
  · simp [hu.fresh] at hfresh
  rw [RangesScanner.take_scanned_range_of_backward hs.aware hs.direction] at h
  obtain ⟨rfl, rfl⟩ := Prod.mk.inj (Option.some.inj h).symm
  exact ⟨fun k hk => ⟨(hst.rows k hk).1, (hst.rows k hk).2.1⟩, hst.begin,
    fun hd => (hst.drained hd).2.2 hfresh⟩

end BwdInv

end Backward


/-- The scanned ranges of an aware scanner over a sorted map tile the scan, in every
interleaving of \x60next\x60 and \x60take_scanned_range\x60 where a \x60next\x60 runs before each take:
forward over ascending ranges whose first lower bound is not empty, the rows since the last
take lie in the range taken, which starts where the last one ended (the first at the first
range's lower bound) and, once Drained is reported, ends at the last range's upper bound;
backward over descending nonempty ranges, the same with the bounds swapped. -/
theorem scanned_ranges_tile (data : List (List UInt8 × List UInt8)) (hdata : KeysAscending data) :
    (∀ ranges, Ascending ranges → first_lower ranges ≠ [] → ∀ o r s',
      Relation.ReflTransGen ScanStep
        (ScanObserver.init (RangesScanner.new (FixtureStorage.new data) ranges false true)) o →
      o.fresh = true → o.scanner.take_scanned_range = some (r, s') →
      (∀ k ∈ o.rows, r.lower_inclusive ≤ k ∧ k < r.upper_exclusive) ∧
        r.lower_inclusive = o.taken.getD (first_lower ranges) ∧
        (o.drained = true → r.upper_exclusive = (last_bounds ranges).upper_exclusive)) ∧
    (∀ ranges, Descending ranges → ∀ o r s',
      Relation.ReflTransGen ScanStep
        (ScanObserver.init (RangesScanner.new (FixtureStorage.new data) ranges true true)) o →
      o.fresh = true → o.scanner.take_scanned_range = some (r, s') →
      (∀ k ∈ o.rows, r.lower_inclusive ≤ k ∧ k < r.upper_exclusive) ∧
        r.upper_exclusive = o.taken.getD (first_upper ranges) ∧
        (o.drained = true → r.lower_inclusive = (last_bounds ranges).lower_inclusive)) :=
  ⟨fun _ hasc hL _ _ _ hrun hfresh h =>
      (FwdInv.reachable hasc hL hdata hrun).taken_range hfresh h,
    fun _ hdesc _ _ _ hrun hfresh h => (BwdInv.reachable hdesc hdata hrun).taken_range hfresh h⟩

def fwd_scanner (data : List (List UInt8 × List UInt8)) (rest : List Range)
    (current : IntervalRange) (begin_key end_key : List UInt8) : RangesScanner :=
  ⟨FixtureStorage.new data, ⟨true, rest⟩, false, true, current, begin_key, end_key⟩

def page_data : List (List UInt8 × List UInt8) := [([2], [9]), ([7], [9])]

def page_ranges : List Range := [.Interval ⟨[1], [5]⟩, .Point ⟨[7]⟩]

/-- A forward page: an interval and a point, one \x60next\x60 returning the key 2, and the take
that reports [1, 2 ++ [0]). -/
theorem scanned_ranges_tile_one_page :
    KeysAscending page_data ∧ Ascending page_ranges ∧ first_lower page_ranges ≠ [] ∧
      ∃ o r s', Relation.ReflTransGen ScanStep
          (ScanObserver.init (RangesScanner.new (FixtureStorage.new page_data) page_ranges false
            true)) o ∧
        o.fresh = true ∧ o.scanner.take_scanned_range = some (r, s') ∧ o.rows = [[2]] ∧
        r = ⟨[1], [2, 0]⟩ ∧ (∀ k ∈ o.rows, r.lower_inclusive ≤ k ∧ k < r.upper_exclusive) ∧
        r.lower_inclusive = o.taken.getD (first_lower page_ranges) := by
  have hdata : KeysAscending page_data := by decide
  have hasc : Ascending page_ranges := by decide
  have hL : first_lower page_ranges ≠ [] := by decide
  have h₁ : (ScanObserver.init (RangesScanner.new (FixtureStorage.new page_data) page_ranges false
      true)).scanner.next = (some ⟨[2], [9]⟩, fwd_scanner page_data [.Point ⟨[7]⟩] ⟨[1], [5]⟩ [1] [2, 0]) :=
    RangesScanner.next_opt_of_return rfl
  have hrun := Relation.ReflTransGen.single (ScanStep.next_of_eq h₁)
  have htake : (fwd_scanner page_data [.Point ⟨[7]⟩] ⟨[1], [5]⟩ [1] [2, 0]).take_scanned_range =
      some (⟨[1], [2, 0]⟩, fwd_scanner page_data [.Point ⟨[7]⟩] ⟨[1], [5]⟩ [2, 0] []) := rfl
  obtain ⟨hrows, hbegin, -⟩ := (scanned_ranges_tile _ hdata).1 _ hasc hL _ _ _ hrun rfl htake
  exact ⟨hdata, hasc, hL, _, _, _, hrun, rfl, htake, rfl, rfl, hrows, hbegin⟩

def two_row_data : List (List UInt8 × List UInt8) := [([97], [1]), ([99, 49], [1])]

def empty_lower_ranges : List Range := [.Interval ⟨[], [98]⟩, .Interval ⟨[99], [100]⟩]

/-- An empty lower bound on the first range, as in a scan from the start of the key space, is
also the scanner's mark of no range yet: the begin key stays empty, the next range sets it at
its own lower bound, and the take after two rows reports [99, 99 49 0), without the first row
97 and not from the first range's lower bound. -/
theorem scanned_range_drops_rows_of_empty_first_lower :
    ∃ o r s', Relation.ReflTransGen ScanStep
        (ScanObserver.init (RangesScanner.new (FixtureStorage.new two_row_data) empty_lower_ranges
          false true)) o ∧
      o.fresh = true ∧ o.scanner.take_scanned_range = some (r, s') ∧ o.taken = none ∧
      o.rows = [[97], [99, 49]] ∧ r = ⟨[99], [99, 49, 0]⟩ ∧ ¬ r.lower_inclusive ≤ [97] ∧
      r.lower_inclusive ≠ first_lower empty_lower_ranges := by
  have h₁ : (ScanObserver.init (RangesScanner.new (FixtureStorage.new two_row_data)
      empty_lower_ranges false true)).scanner.next =
      (some ⟨[97], [1]⟩, fwd_scanner two_row_data [.Interval ⟨[99], [100]⟩] ⟨[], [98]⟩ [] [97, 0]) :=
    RangesScanner.next_opt_of_return rfl
  -- the first interval is left, and the second one entered, in a second pass
  have h₂ : (fwd_scanner two_row_data [.Interval ⟨[99], [100]⟩] ⟨[], [98]⟩ [] [97, 0]).next =
      (some ⟨[99, 49], [1]⟩, fwd_scanner two_row_data [] ⟨[99], [100]⟩ [99] [99, 49, 0]) :=
    (RangesScanner.next_opt_of_again rfl).trans (RangesScanner.next_opt_of_return rfl)
  have hrun := (Relation.ReflTransGen.single (ScanStep.next_of_eq h₁)).tail (ScanStep.next_of_eq h₂)
  exact ⟨_, _, _, hrun, rfl, rfl, rfl, rfl, rfl, by decide, by decide⟩

end Tikv.TidbQuery
