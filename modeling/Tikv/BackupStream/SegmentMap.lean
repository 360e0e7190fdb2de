import Tikv.Lib.OrdMap

/-!
The segment map of backup-stream (components/backup-stream/src/utils.rs): a \x60BTreeMap\x60 from the
start of each range to its end and an item, meant to hold ranges that do not overlap. Both
queries look at one neighbour in the tree: \x60get_by_point\x60 at the last range starting at or
before the point, \x60find_overlapping\x60 at the range holding the start key and then at the last
range starting before the end key. \x60insert\x60 stores a range only when \x60find_overlapping\x60
finds nothing. The router (router.rs) and the observer (observer.rs) keep the ranges of the
backup tasks in one such map and change it only by these inserts and by retaining, through
\x60get_inner\x60, the entries of the tasks that remain.

Under the invariant \x60Wf\x60, that every stored range is nonempty and ends before every range
that starts after it, the single neighbour each query reads is enough: \x60get_by_point\x60 returns
exactly the range that holds the point, and \x60find_overlapping\x60 finds a range meeting the
query whenever there is one. Every sequence of calls whose ranges are nonempty keeps \x60Wf\x60.
-/

namespace Tikv.BackupStream

open Tikv.Lib Tikv.Lib.OrdMap

structure SegmentValue (R T : Type) where
  range_end : R
  item : T
  deriving DecidableEq, Repr

structure SegmentMap (K V : Type) [LT K] where
  inner : OrdMap K (SegmentValue K V)

namespace SegmentMap

variable {K V : Type} [LT K] [LE K] [Std.IsLinearOrder K] [Std.LawfulOrderLT K]
  [DecidableRel (α := K) (· < ·)] [DecidableRel (α := K) (· ≤ ·)]

def empty : SegmentMap K V := ⟨OrdMap.empty⟩

/-- The range an entry stands for, with its item, as the queries return it. -/
def segment (p : K × SegmentValue K V) : K × K × V :=
  (p.1, p.2.range_end, p.2.item)

def segments (self : SegmentMap K V) : List (K × K × V) :=
  self.inner.entries.map segment

def clear (_self : SegmentMap K V) : SegmentMap K V :=
  ⟨OrdMap.empty⟩

def get_by_point (self : SegmentMap K V) (point : K) : Option (K × K × V) :=
  ((self.inner.lastLe point).filter fun p => decide (point < p.2.range_end)).map segment

/-- \x60range\x60 is the pair \x60(start, end)\x60: \x60range.1\x60 here is the source's \x60range.0\x60. -/
def find_overlapping (self : SegmentMap K V) (range : K × K) : Option (K × K × V) :=
  match self.get_by_point range.1 with
  | some overlap_with_start => some overlap_with_start
  | none =>
    -- the last range starting before the end key, if it reaches past the end key or starts
    -- after the start key
    let covered_by_the_range := (self.inner.lastLt range.2).filter fun p =>
      decide (range.2 < p.2.range_end) || decide (range.1 < p.1)
    covered_by_the_range.map segment

def is_overlapping (self : SegmentMap K V) (range : K × K) : Bool :=
  (self.find_overlapping range).isSome

def insert [DecidableEq K] (self : SegmentMap K V) (range : K × K) (value : V) : Bool × SegmentMap K V :=
  if self.is_overlapping range then (false, self)
  else (true, ⟨self.inner.insert range.1 ⟨range.2, value⟩⟩)

def add [DecidableEq K] [Inhabited V] (self : SegmentMap K V) (range : K × K) : Bool × SegmentMap K V :=
  self.insert range default

def retain (self : SegmentMap K V) (f : K → SegmentValue K V → Bool) : SegmentMap K V :=
  ⟨self.inner.retain f⟩

def is_empty (self : SegmentMap K V) : Bool :=
  self.inner.entries.isEmpty

/-- Every stored range is nonempty and ends at or before the start of every range that starts
after it. -/
structure Wf (m : SegmentMap K V) : Prop where
  nonempty : ∀ p ∈ m.inner.entries, p.1 < p.2.range_end
  separated : ∀ p ∈ m.inner.entries, ∀ q ∈ m.inner.entries, p.1 < q.1 →
    p.2.range_end ≤ q.1

omit [LE K] [Std.IsLinearOrder K] [Std.LawfulOrderLT K] [DecidableRel (α := K) (· < ·)]
  [DecidableRel (α := K) (· ≤ ·)] in
theorem mem_segments {self : SegmentMap K V} {r : K × K × V} :
    r ∈ self.segments ↔ ∃ p ∈ self.inner.entries, segment p = r :=
  List.mem_map

section Queries

variable {self : SegmentMap K V}

omit [DecidableRel (α := K) (· < ·)] in
theorem lastLe_of_mem (hw : self.Wf) {p : K × SegmentValue K V} (hp : p ∈ self.inner.entries)
    {point : K} (hle : p.1 ≤ point) (hlt : point < p.2.range_end) :
    self.inner.lastLe point = some p := by
  refine (lastLe_eq_some_iff _ _ _).mpr ⟨hp, hle, fun y hy hyp => ?_⟩
  apply Std.not_lt.mp
  intro hpy
  exact Std.lt_irrefl (Std.lt_of_lt_of_le hlt (Std.le_trans (hw.separated p hp y hy hpy) hyp))

theorem get_by_point_eq_some_iff (hw : self.Wf) (point : K) (r : K × K × V) :
    self.get_by_point point = some r ↔ r ∈ self.segments ∧ r.1 ≤ point ∧ point < r.2.1 := by
  constructor
  · intro h
    obtain ⟨p, hp, rfl⟩ := Option.map_eq_some_iff.mp h
    obtain ⟨hlast, hend⟩ := Option.filter_eq_some_iff.mp hp
    obtain ⟨hmem, hle, -⟩ := (lastLe_eq_some_iff _ _ _).mp hlast
    exact ⟨List.mem_map_of_mem hmem, hle, of_decide_eq_true hend⟩
  · rintro ⟨hr, hle, hlt⟩
    obtain ⟨p, hp, rfl⟩ := mem_segments.mp hr
    rw [get_by_point, lastLe_of_mem hw hp hle hlt, Option.filter_some,
      if_pos (decide_eq_true (show point < p.2.range_end from hlt)), Option.map_some]

theorem get_by_point_eq_none_of_mem (hw : self.Wf) {point : K}
    (h : self.get_by_point point = none) {p : K × SegmentValue K V}
    (hp : p ∈ self.inner.entries) (hle : p.1 ≤ point) : p.2.range_end ≤ point := by
  apply Std.not_lt.mp
  intro hlt
  rw [(get_by_point_eq_some_iff hw point (segment p)).mpr
    ⟨List.mem_map_of_mem hp, hle, hlt⟩] at h
  cases h

theorem find_overlapping_eq_some (hw : self.Wf) {s e : K} (hse : s < e) {r : K × K × V}
    (h : self.find_overlapping (s, e) = some r) : r ∈ self.segments ∧ r.1 < e ∧ s < r.2.1 := by
  unfold find_overlapping at h
  split at h
  · -- the range holding the start key
    next r' hr' =>
    cases h
    obtain ⟨hr, hle, hlt⟩ := (get_by_point_eq_some_iff hw s r).mp hr'
    exact ⟨hr, Std.lt_of_le_of_lt hle hse, hlt⟩
  · -- the last range starting before the end key, reaching past it or starting after the
    -- start key
    obtain ⟨p, hp, rfl⟩ := Option.map_eq_some_iff.mp h
    obtain ⟨hlast, hcov⟩ := Option.filter_eq_some_iff.mp hp
    obtain ⟨hmem, hpe, -⟩ := (lastLt_eq_some_iff _ _ _).mp hlast
    refine ⟨List.mem_map_of_mem hmem, hpe, ?_⟩
    rcases Bool.or_eq_true_iff.mp hcov with hend | hstart
    · exact Std.lt_trans hse (of_decide_eq_true hend)
    · exact Std.lt_trans (of_decide_eq_true hstart) (hw.nonempty p hmem)

theorem find_overlapping_eq_none (hw : self.Wf) {s e : K}
    (h : self.find_overlapping (s, e) = none) {q : K × SegmentValue K V}
    (hq : q ∈ self.inner.entries) (hqe : q.1 < e) : q.2.range_end ≤ s := by
  unfold find_overlapping at h
  split at h
  · cases h
  · next hnone =>
    obtain ⟨p, hlast⟩ := Option.ne_none_iff_exists'.mp fun hl =>
      (lastLt_eq_none_iff _ _).mp hl q hq hqe
    obtain ⟨hp, -, hmax⟩ := (lastLt_eq_some_iff _ _ _).mp hlast
    have hcov := Option.filter_eq_none_iff.mp (Option.map_eq_none_iff.mp h) p hlast
    simp only [Bool.or_eq_true, decide_eq_true_eq, not_or] at hcov
    have hps : p.1 ≤ s := Std.not_lt.mp hcov.2
    rcases Std.le_iff_lt_or_eq.mp (hmax q hq hqe) with hlt | heq
    · exact Std.le_trans (hw.separated q hq p hp hlt) hps
    · rw [eq_of_mem_of_fst_eq self.inner.sorted hq hp heq]
      exact get_by_point_eq_none_of_mem hw hnone hp hps

theorem is_overlapping_iff (hw : self.Wf) {s e : K} (hse : s < e) :
    self.is_overlapping (s, e) = true ↔
      ∃ p ∈ self.inner.entries, p.1 < e ∧ s < p.2.range_end := by
  constructor
  · intro h
    obtain ⟨r, hr⟩ := Option.isSome_iff_exists.mp h
    obtain ⟨hmem, hre, hsr⟩ := find_overlapping_eq_some hw hse hr
    obtain ⟨p, hp, rfl⟩ := mem_segments.mp hmem
    exact ⟨p, hp, hre, hsr⟩
  · rintro ⟨p, hp, hpe, hsp⟩
    rw [is_overlapping, Option.isSome_iff_ne_none]
    intro hnone
    exact Std.lt_irrefl (Std.lt_of_lt_of_le hsp (find_overlapping_eq_none hw hnone hp hpe))

theorem far_of_not_overlapping (hw : self.Wf) {s e : K} (hse : s < e)
    (h : self.is_overlapping (s, e) = false) :
    ∀ y ∈ self.inner.entries, ¬ (y.1 < e ∧ s < y.2.range_end) := by
  intro y hy hmeet
  have hov := (is_overlapping_iff hw hse).mpr ⟨y, hy, hmeet⟩
  rw [h] at hov
  cases hov

end Queries

section Insert

variable [DecidableEq K] {self : SegmentMap K V}

theorem mem_insert_of_not_overlapping (hw : self.Wf) {s e : K} (hse : s < e)
    (h : self.is_overlapping (s, e) = false) (v : V) (x : K × SegmentValue K V) :
    x ∈ (self.insert (s, e) v).2.inner.entries ↔ x = (s, ⟨e, v⟩) ∨ x ∈ self.inner.entries := by
  have hne : ∀ y ∈ self.inner.entries, y.1 ≠ s := fun y hy hys =>
    far_of_not_overlapping hw hse h y hy ⟨hys ▸ hse, hys ▸ hw.nonempty y hy⟩
  rw [insert, h, if_neg Bool.false_ne_true]
  exact mem_insert_of_not_mem hne _ x

theorem insert_of_overlapping (self : SegmentMap K V) {range : K × K}
    (h : self.is_overlapping range = true) (v : V) : self.insert range v = (false, self) := by
  rw [insert, if_pos h]

theorem Wf.insert (hw : self.Wf) {range : K × K} (hse : range.1 < range.2) (v : V) :
    (self.insert range v).2.Wf := by
  obtain ⟨s, e⟩ := range
  cases hov : self.is_overlapping (s, e)
  · -- nothing meets [s, e): every stored range lies wholly before it or wholly after it
    have hmem := mem_insert_of_not_overlapping hw hse hov v
    have hfar := far_of_not_overlapping hw hse hov
    constructor
    · intro p hp
      rcases (hmem p).mp hp with rfl | hp
      · exact hse
      · exact hw.nonempty p hp
    · intro p hp q hq hpq
      rcases (hmem p).mp hp with rfl | hp <;> rcases (hmem q).mp hq with rfl | hq
      · exact absurd hpq Std.lt_irrefl
      · exact Std.not_lt.mp fun hqe => hfar q hq ⟨hqe, Std.lt_trans hpq (hw.nonempty q hq)⟩
      · exact Std.not_lt.mp fun hsp => hfar p hp ⟨Std.lt_trans hpq hse, hsp⟩
      · exact hw.separated p hp q hq hpq
  · rw [insert_of_overlapping self hov]
    exact hw

end Insert

omit [Std.IsLinearOrder K] [Std.LawfulOrderLT K] [DecidableRel (α := K) (· < ·)]
  [DecidableRel (α := K) (· ≤ ·)] in
theorem wf_empty : (empty : SegmentMap K V).Wf := by
  constructor <;> intro p hp <;> cases hp

omit [Std.IsLinearOrder K] [Std.LawfulOrderLT K] [DecidableRel (α := K) (· < ·)]
  [DecidableRel (α := K) (· ≤ ·)] in
theorem Wf.retain {self : SegmentMap K V} (hw : self.Wf) (f : K → SegmentValue K V → Bool) :
    (self.retain f).Wf :=
  ⟨fun p hp => hw.nonempty p (mem_retain.mp hp).1,
    fun p hp q hq => hw.separated p (mem_retain.mp hp).1 q (mem_retain.mp hq).1⟩

/-- The calls that change a map: the inserts, \x60clear\x60, and retaining through
\x60get_inner\x60, as \x60unregister_ranges\x60 does. -/
inductive Op (K V : Type)
  | add (range : K × K)
  | insert (range : K × K) (value : V)
  | clear
  | retain (f : K → SegmentValue K V → Bool)

def Op.Valid : Op K V → Prop
  | .add range => range.1 < range.2
  | .insert range _ => range.1 < range.2
  | .clear => True
  | .retain _ => True

instance (op : Op K V) : Decidable op.Valid := by
  cases op <;> unfold Op.Valid <;> infer_instance

def step [DecidableEq K] [Inhabited V] (self : SegmentMap K V) : Op K V → SegmentMap K V
  | .add range => (self.add range).2
  | .insert range value => (self.insert range value).2
  | .clear => self.clear
  | .retain f => self.retain f

def run [DecidableEq K] [Inhabited V] (self : SegmentMap K V) (ops : List (Op K V)) :
    SegmentMap K V :=
  ops.foldl step self

def Reachable [DecidableEq K] [Inhabited V] (m : SegmentMap K V) : Prop :=
  ∃ ops : List (Op K V), (∀ op ∈ ops, op.Valid) ∧ m = empty.run ops

section Runs

variable [DecidableEq K] [Inhabited V]

theorem Wf.step {self : SegmentMap K V} (hw : self.Wf) {op : Op K V} (hop : op.Valid) :
    (self.step op).Wf := by
  cases op with
  | add range => exact hw.insert hop default
  | insert range value => exact hw.insert hop value
  | clear => exact wf_empty
  | retain f => exact hw.retain f

theorem Wf.run {self : SegmentMap K V} (hw : self.Wf) {ops : List (Op K V)}
    (hops : ∀ op ∈ ops, op.Valid) : (self.run ops).Wf := by
  induction ops generalizing self with
  | nil => exact hw
  | cons op ops ih =>
    exact ih (hw.step (hops op (List.mem_cons_self ..)))
      fun op' h => hops op' (List.mem_cons_of_mem _ h)

theorem run_append (self : SegmentMap K V) (ops ops' : List (Op K V)) :
    self.run (ops ++ ops') = (self.run ops).run ops' :=
  List.foldl_append

theorem Reachable.run {m : SegmentMap K V} (hm : m.Reachable) {ops : List (Op K V)}
    (hops : ∀ op ∈ ops, op.Valid) : (m.run ops).Reachable := by
  obtain ⟨ops₀, hops₀, rfl⟩ := hm
  refine ⟨ops₀ ++ ops, fun op hop => ?_, (run_append _ _ _).symm⟩
  rcases List.mem_append.mp hop with h | h
  · exact hops₀ op h
  · exact hops op h

theorem Reachable.wf {m : SegmentMap K V} (hm : m.Reachable) : m.Wf := by
  obtain ⟨ops, hops, rfl⟩ := hm
  exact wf_empty.run hops

end Runs

omit [DecidableRel (α := K) (· < ·)] [DecidableRel (α := K) (· ≤ ·)] in
theorem Wf.pairwise_disjoint {self : SegmentMap K V} (hw : self.Wf) :
    self.segments.Pairwise fun r r' => Disjoint (halfOpen r.1 r.2.1) (halfOpen r'.1 r'.2.1) := by
  rw [segments, List.pairwise_map]
  refine self.inner.sorted.imp_of_mem fun {p q} hp hq hpq => ?_
  -- a point of the first ends before the second starts
  rw [Set.disjoint_left]
  rintro x ⟨-, hxp⟩ ⟨hqx, -⟩
  exact Std.lt_irrefl
    (Std.lt_of_lt_of_le (Std.lt_of_lt_of_le hxp (hw.separated p hp q hq hpq)) hqx)

section Intervals

variable {self : SegmentMap K V}

omit [DecidableRel (α := K) (· < ·)] [DecidableRel (α := K) (· ≤ ·)] in
theorem Wf.meets_iff (hw : self.Wf) {r : K × K × V} (hr : r ∈ self.segments) {s e : K}
    (hse : s < e) : ¬ Disjoint (halfOpen r.1 r.2.1) (halfOpen s e) ↔ r.1 < e ∧ s < r.2.1 := by
  obtain ⟨p, hp, rfl⟩ := mem_segments.mp hr
  exact not_disjoint_halfOpen_iff (hw.nonempty p hp) hse

theorem find_overlapping_eq_none_iff (hw : self.Wf) {s e : K} (hse : s < e) :
    self.find_overlapping (s, e) = none ↔
      ∀ r ∈ self.segments, Disjoint (halfOpen r.1 r.2.1) (halfOpen s e) := by
  constructor
  · intro h r hr
    by_contra hmeet
    obtain ⟨hre, hsr⟩ := (hw.meets_iff hr hse).mp hmeet
    obtain ⟨p, hp, rfl⟩ := mem_segments.mp hr
    exact Std.lt_irrefl (Std.lt_of_lt_of_le hsr (find_overlapping_eq_none hw h hp hre))
  · intro h
    cases hf : self.find_overlapping (s, e) with
    | none => rfl
    | some r =>
      obtain ⟨hr, hmeet⟩ := find_overlapping_eq_some hw hse hf
      exact absurd (h r hr) ((hw.meets_iff hr hse).mpr hmeet)

variable [DecidableEq K]

theorem insert_eq_false_iff (hw : self.Wf) {s e : K} (hse : s < e) (v : V) :
    self.insert (s, e) v = (false, self) ↔
      ∃ r ∈ self.segments, ¬ Disjoint (halfOpen r.1 r.2.1) (halfOpen s e) := by
  constructor
  · intro h
    cases hov : self.is_overlapping (s, e)
    · rw [insert, hov, if_neg Bool.false_ne_true] at h
      cases h
    · obtain ⟨p, hp, hmeet⟩ := (is_overlapping_iff hw hse).mp hov
      exact ⟨segment p, List.mem_map_of_mem hp,
        (hw.meets_iff (List.mem_map_of_mem hp) hse).mpr hmeet⟩
  · rintro ⟨r, hr, hmeet⟩
    obtain ⟨p, hp, rfl⟩ := mem_segments.mp hr
    exact insert_of_overlapping self
      ((is_overlapping_iff hw hse).mpr ⟨p, hp, (hw.meets_iff hr hse).mp hmeet⟩) v

theorem insert_of_disjoint (hw : self.Wf) {s e : K} (hse : s < e) (v : V)
    (h : ∀ r ∈ self.segments, Disjoint (halfOpen r.1 r.2.1) (halfOpen s e)) :
    (self.insert (s, e) v).1 = true ∧
      ∀ r, r ∈ (self.insert (s, e) v).2.segments ↔ r = (s, e, v) ∨ r ∈ self.segments := by
  have hov : self.is_overlapping (s, e) = false := by
    cases hov : self.is_overlapping (s, e)
    · rfl
    · obtain ⟨p, hp, hmeet⟩ := (is_overlapping_iff hw hse).mp hov
      exact absurd (h _ (List.mem_map_of_mem hp))
        ((hw.meets_iff (List.mem_map_of_mem hp) hse).mpr hmeet)
  refine ⟨by rw [insert, hov, if_neg Bool.false_ne_true], fun r => ?_⟩
  constructor
  · intro hr
    obtain ⟨x, hx, rfl⟩ := mem_segments.mp hr
    rcases (mem_insert_of_not_overlapping hw hse hov v x).mp hx with rfl | hx
    · exact Or.inl rfl
    · exact Or.inr (List.mem_map_of_mem hx)
  · rintro (rfl | hr)
    · exact List.mem_map_of_mem
        ((mem_insert_of_not_overlapping hw hse hov v _).mpr (Or.inl rfl))
    · obtain ⟨x, hx, rfl⟩ := mem_segments.mp hr
      exact List.mem_map_of_mem ((mem_insert_of_not_overlapping hw hse hov v x).mpr (Or.inr hx))

end Intervals

/-- Along every sequence of calls with nonempty ranges, the stored ranges stay disjoint as
half-open intervals; an insert fails, changing nothing, exactly when its range meets a stored
one, and otherwise adds it; \x60get_by_point\x60 returns the stored range that holds the point,
if any; and \x60find_overlapping\x60 returns a stored range meeting the query whenever one does,
and \x60None\x60 only when none does. -/
theorem segment_map_disjoint_and_exact [DecidableEq K] [Inhabited V] (m : SegmentMap K V)
    (hm : m.Reachable) :
    m.segments.Pairwise (fun r r' => Disjoint (halfOpen r.1 r.2.1) (halfOpen r'.1 r'.2.1)) ∧
    (∀ (s e : K) (v : V), s < e →
      (m.insert (s, e) v = (false, m) ↔
        ∃ r ∈ m.segments, ¬ Disjoint (halfOpen r.1 r.2.1) (halfOpen s e)) ∧
      ((∀ r ∈ m.segments, Disjoint (halfOpen r.1 r.2.1) (halfOpen s e)) →
        (m.insert (s, e) v).1 = true ∧
        ∀ r, r ∈ (m.insert (s, e) v).2.segments ↔ r = (s, e, v) ∨ r ∈ m.segments)) ∧
    (∀ (point : K) (r : K × K × V),
      m.get_by_point point = some r ↔ r ∈ m.segments ∧ point ∈ halfOpen r.1 r.2.1) ∧
    (∀ s e : K, s < e →
      (∀ r, m.find_overlapping (s, e) = some r →
        r ∈ m.segments ∧ ¬ Disjoint (halfOpen r.1 r.2.1) (halfOpen s e)) ∧
      (m.find_overlapping (s, e) = none ↔
        ∀ r ∈ m.segments, Disjoint (halfOpen r.1 r.2.1) (halfOpen s e))) := by
  have hw := hm.wf
  refine ⟨hw.pairwise_disjoint, fun s e v hse => ⟨insert_eq_false_iff hw hse v,
    insert_of_disjoint hw hse v⟩, fun point r => ?_, fun s e hse => ⟨fun r hr => ?_,
    find_overlapping_eq_none_iff hw hse⟩⟩
  · rw [get_by_point_eq_some_iff hw, mem_halfOpen]
  · obtain ⟨hmem, hmeet⟩ := find_overlapping_eq_some hw hse hr
    exact ⟨hmem, (hw.meets_iff hmem hse).mpr hmeet⟩

theorem segment_map_disjoint_and_exact_three_ranges :
    ((empty : SegmentMap Nat Unit).run [.add (1, 3), .insert (5, 8) (), .add (3, 5)]).Reachable ∧
      ((empty : SegmentMap Nat Unit).run [.add (1, 3), .insert (5, 8) (), .add (3, 5)]).get_by_point
        6 = some (5, 8, ()) :=
  have hm : ((empty : SegmentMap Nat Unit).run
      [.add (1, 3), .insert (5, 8) (), .add (3, 5)]).Reachable := ⟨_, by decide, rfl⟩
  ⟨hm, ((segment_map_disjoint_and_exact _ hm).2.2.1 6 (5, 8, ())).mpr
    ⟨by decide, mem_halfOpen.mpr ⟨by decide, by decide⟩⟩⟩

-- an empty range is stored as well, and the second probe then returns it for a query it does
-- not meet: the queries need the nonempty ranges that \x60Op.Valid\x60 asks for
example : ((empty : SegmentMap Nat Unit).run [.add (5, 3)]).find_overlapping (1, 10) =
    some (5, 3, ()) := by
  decide

-- [3, 6) holds no stored start point and meets [5, 8) through the second probe
example : ((empty : SegmentMap Nat Unit).run [.add (1, 3), .add (5, 8)]).find_overlapping (3, 6) =
    some (5, 8, ()) := by
  decide

end SegmentMap

section Router

open SegmentMap

abbrev RouterRanges := SegmentMap (List UInt8) String

/-- An empty end key stands for the end of the key space, written as 32 bytes of 0xff. -/
def end_key_or_max (end_key : List UInt8) : List UInt8 :=
  if end_key.isEmpty then List.replicate 32 0xff else end_key

def register_ranges (ranges : RouterRanges) (task_name : String)
    (rs : List (List UInt8 × List UInt8)) : RouterRanges :=
  rs.foldl (fun w range => (w.insert range task_name).2) ranges

def unregister_ranges (ranges : RouterRanges) (task_name : String) : RouterRanges :=
  ranges.retain fun _ v => v.item != task_name

def find_task_by_range (ranges : RouterRanges) (start_key end_key : List UInt8) :
    Option String :=
  (ranges.find_overlapping (start_key, end_key_or_max end_key)).map fun x => x.2.2

def should_register_region (ranges : SegmentMap (List UInt8) Unit)
    (start_key end_key : List UInt8) : Bool :=
  ranges.is_overlapping (start_key, end_key_or_max end_key)

theorem register_ranges_eq_run (ranges : RouterRanges) (task_name : String)
    (rs : List (List UInt8 × List UInt8)) :
    register_ranges ranges task_name rs = ranges.run (rs.map fun range => .insert range task_name) := by
  induction rs generalizing ranges with
  | nil => rfl
  | cons range rs ih => exact ih _

theorem Reachable.register_ranges {ranges : RouterRanges} (hm : ranges.Reachable)
    (task_name : String) {rs : List (List UInt8 × List UInt8)}
    (hrs : ∀ range ∈ rs, range.1 < range.2) :
    (register_ranges ranges task_name rs).Reachable := by
  rw [register_ranges_eq_run]
  refine hm.run fun op hop => ?_
  obtain ⟨range, hr, rfl⟩ := List.mem_map.mp hop
  exact hrs range hr

theorem Reachable.unregister_ranges {ranges : RouterRanges} (hm : ranges.Reachable)
    (task_name : String) : (unregister_ranges ranges task_name).Reachable := by
  have hop : ∀ op ∈ [(Op.retain fun _ v => v.item != task_name : Op (List UInt8) String)],
      op.Valid := fun op hop => by
    rw [List.mem_singleton.mp hop]
    trivial
  exact hm.run hop

theorem find_task_by_range_spec {ranges : RouterRanges} (hm : ranges.Reachable)
    {start_key end_key : List UInt8} (hse : start_key < end_key_or_max end_key) :
    (∀ task, find_task_by_range ranges start_key end_key = some task →
      ∃ r ∈ ranges.segments, r.2.2 = task ∧
        ¬ Disjoint (halfOpen r.1 r.2.1) (halfOpen start_key (end_key_or_max end_key))) ∧
    (find_task_by_range ranges start_key end_key = none ↔
      ∀ r ∈ ranges.segments,
        Disjoint (halfOpen r.1 r.2.1) (halfOpen start_key (end_key_or_max end_key))) := by
  have hw := hm.wf
  constructor
  · intro task h
    obtain ⟨r, hr, rfl⟩ := Option.map_eq_some_iff.mp h
    obtain ⟨hmem, hmeet⟩ := find_overlapping_eq_some hw hse hr
    exact ⟨r, hmem, rfl, (hw.meets_iff hmem hse).mpr hmeet⟩
  · rw [find_task_by_range, Option.map_eq_none_iff]
    exact find_overlapping_eq_none_iff hw hse

inductive RouterCall
  | register (task_name : String) (rs : List (List UInt8 × List UInt8))
  | unregister (task_name : String)

namespace RouterCall

def apply (ranges : RouterRanges) : RouterCall → RouterRanges
  | .register task_name rs => register_ranges ranges task_name rs
  | .unregister task_name => unregister_ranges ranges task_name

def Valid : RouterCall → Prop
  | .register _ rs => ∀ range ∈ rs, range.1 < range.2
  | .unregister _ => True

theorem reachable_apply {ranges : RouterRanges} (hm : ranges.Reachable) {call : RouterCall}
    (hcall : call.Valid) : (call.apply ranges).Reachable := by
  cases call with
  | register task_name rs => exact Reachable.register_ranges hm task_name hcall
  | unregister task_name => exact Reachable.unregister_ranges hm task_name

theorem reachable_foldl {calls : List RouterCall} (hcalls : ∀ c ∈ calls, c.Valid) :
    ∀ {ranges : RouterRanges}, ranges.Reachable → (calls.foldl apply ranges).Reachable := by
  induction calls with
  | nil => exact id
  | cons call calls ih =>
    intro ranges hm
    exact ih (fun c hc => hcalls c (List.mem_cons_of_mem _ hc))
      (reachable_apply hm (hcalls call List.mem_cons_self))

end RouterCall

/-- Along every sequence of task registrations and unregistrations from an empty router, the
registered ranges stay disjoint, and \x60find_task_by_range\x60 answers the task of a registered
range that meets the query, and \x60None\x60 exactly when no registered range does. -/
theorem router_finds_registered_task (calls : List RouterCall) (hcalls : ∀ c ∈ calls, c.Valid)
    {start_key end_key : List UInt8} (hse : start_key < end_key_or_max end_key) :
    let ranges := calls.foldl RouterCall.apply empty
    ranges.segments.Pairwise (fun r r' => Disjoint (halfOpen r.1 r.2.1) (halfOpen r'.1 r'.2.1)) ∧
    (∀ task, find_task_by_range ranges start_key end_key = some task →
      ∃ r ∈ ranges.segments, r.2.2 = task ∧
        ¬ Disjoint (halfOpen r.1 r.2.1) (halfOpen start_key (end_key_or_max end_key))) ∧
    (find_task_by_range ranges start_key end_key = none ↔
      ∀ r ∈ ranges.segments,
        Disjoint (halfOpen r.1 r.2.1) (halfOpen start_key (end_key_or_max end_key))) := by
  intro ranges
  have hm : ranges.Reachable := RouterCall.reachable_foldl hcalls ⟨[], nofun, rfl⟩
  exact ⟨hm.wf.pairwise_disjoint, find_task_by_range_spec hm hse⟩

def two_tasks_then_unregister : List RouterCall :=
  [.register "t1" [([1], [3])], .register "t2" [([5], [8])], .unregister "t1"]

theorem router_finds_registered_task_second :
    (∀ c ∈ two_tasks_then_unregister, c.Valid) ∧ ([2] : List UInt8) < end_key_or_max [6] ∧
      find_task_by_range (two_tasks_then_unregister.foldl RouterCall.apply empty) [2] [6] =
        some "t2" ∧
      ∃ r ∈ (two_tasks_then_unregister.foldl RouterCall.apply empty).segments, r.2.2 = "t2" ∧
        ¬ Disjoint (halfOpen r.1 r.2.1) (halfOpen [2] (end_key_or_max [6])) := by
  have hcalls : ∀ c ∈ two_tasks_then_unregister, c.Valid := by
    simp [two_tasks_then_unregister, RouterCall.Valid]
    decide
  have hse : ([2] : List UInt8) < end_key_or_max [6] := by decide
  have hfind : find_task_by_range (two_tasks_then_unregister.foldl RouterCall.apply empty) [2] [6] =
      some "t2" := rfl
  exact ⟨hcalls, hse, hfind, (router_finds_registered_task _ hcalls hse).2.1 _ hfind⟩

end Router

end Tikv.BackupStream
