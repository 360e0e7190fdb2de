import Tikv.Concurrency.MaxTs
import Tikv.Lib.AssocList
import Mathlib

/-!
The batches of causal timestamps (src/components/causal_ts/src/tso.rs). A `TsoBatch` is a
range of logical timestamps under one physical time, handed out by an atomic `fetch_add` of
its offset; `TsoBatchList` keeps the batches by their first timestamp in a `BTreeMap` behind a
`RwLock`.

Calls interleave at the lock: each locked section is one step, but the read section of `pop`
spans one step per batch it tries, the `fetch_add`, and other readers step in between. A write
section waits for every reader. `push` takes three: the check against the last batch, the
insert (after a flush when asked), and the trim to the capacity, which reads the length and
then pops the first batch. The timestamp source hands out batches each above all earlier ones.
The ghost `allocated` lists every timestamp a `fetch_add` handed out.

No timestamp is handed out twice, each comes from a batch in the list when the pop read it,
and `pop (some a)` hands out nothing below `a`. With the renewals of `BatchTsoProvider`, one at
a time on its renew thread, a get_ts that starts once a flushing renew has put its batch in
returns more than every timestamp handed out before that batch was taken from the source.
The counters `tso_remain` and `tso_usage`, which only size the next batch, are left out.
-/

namespace Tikv.CausalTs

open Tikv.Concurrency (TimeStamp.compose TimeStamp.physical TimeStamp.logical)

def MAX_TSO_BATCH_LIST_CAPACITY : Nat := 1024

structure TsoBatch where
  physical : Nat
  logical_start : Nat
  logical_end : Nat
  alloc_offset : Nat
  deriving DecidableEq, Repr

namespace TsoBatch

def pop (b : TsoBatch) : Option (Nat × Bool) × TsoBatch :=
  (if b.alloc_offset < b.logical_end then
      some (TimeStamp.compose b.physical b.alloc_offset, b.alloc_offset + 1 == b.logical_end)
    else none,
    { b with alloc_offset := b.alloc_offset + 1 })

/-- `none` is the panic of `checked_sub(..).unwrap()` on a batch larger than the logical time
of its last timestamp allows. -/
def new (batch_size last_ts : Nat) : Option TsoBatch :=
  if batch_size ≤ TimeStamp.logical last_ts + 1 then
    some ⟨TimeStamp.physical last_ts, TimeStamp.logical last_ts + 1 - batch_size,
      TimeStamp.logical last_ts + 1, TimeStamp.logical last_ts + 1 - batch_size⟩
  else none

def original_start (b : TsoBatch) : Nat := TimeStamp.compose b.physical b.logical_start

def excluded_end (b : TsoBatch) : Nat := TimeStamp.compose b.physical b.logical_end

end TsoBatch

namespace TsoBatchList

def insert (key : Nat) (batch : TsoBatch) : List (Nat × TsoBatch) → List (Nat × TsoBatch)
  | [] => [(key, batch)]
  | p :: rest =>
    if key < p.1 then (key, batch) :: p :: rest
    else if key = p.1 then (key, batch) :: rest
    else p :: insert key batch rest

def remove (inner : List (Nat × TsoBatch)) (key : Nat) : List (Nat × TsoBatch) :=
  inner.filter fun p => p.1 ≠ key

def range (inner : List (Nat × TsoBatch)) : Option Nat → List Nat
  | some after_ts => (inner.filter fun p => after_ts ≤ p.1).map Prod.fst
  | none => inner.map Prod.fst

def pop_batch (inner : List (Nat × TsoBatch)) (key : Nat) :
    Option (Nat × Bool) × List (Nat × TsoBatch) :=
  match inner.lookup key with
  | some batch => (batch.pop.1, Tikv.Lib.AssocList.modify key (fun b => b.pop.2) inner)
  | none => (none, inner)

def falls_back (inner : List (Nat × TsoBatch)) (new_batch : TsoBatch) : Bool :=
  match inner.getLast? with
  | some (_, last_batch) => decide (new_batch.original_start < last_batch.excluded_end)
  | none => false

def insert_batch (inner : List (Nat × TsoBatch)) (new_batch : TsoBatch) (need_flush : Bool) :
    List (Nat × TsoBatch) :=
  insert new_batch.original_start new_batch (if need_flush then [] else inner)

def over_capacity (inner : List (Nat × TsoBatch)) (capacity : Nat) : Bool :=
  decide (capacity < inner.length)

def pop_first (inner : List (Nat × TsoBatch)) : List (Nat × TsoBatch) := inner.drop 1

end TsoBatchList

open TsoBatchList

/-- Where a `pop` call is: reading the batches of its keys, removing the batch it used up, or
returned. -/
inductive PopState
  | Idle
  | Reading (after_ts : Option Nat) (keys : List Nat)
  | Removing (key ts : Nat)
  | Returned (ts : Option Nat)
  deriving DecidableEq, Repr

inductive PushState
  | Checking (new_batch : TsoBatch) (need_flush : Bool)
  | Inserting (new_batch : TsoBatch) (need_flush : Bool)
  | Trimming
  | PoppingFirst
  deriving DecidableEq, Repr

def PushState.batch : PushState → Option TsoBatch
  | .Checking new_batch _ => some new_batch
  | .Inserting new_batch _ => some new_batch
  | .Trimming => none
  | .PoppingFirst => none

/-- The list, the calls on it, and the source, which hands out batches at or above `floor`. -/
structure TsoSystem where
  inner : List (Nat × TsoBatch)
  pops : Nat → PopState
  pushes : List PushState
  floor : Nat
  allocated : List Nat

namespace TsoSystem

def init (floor : Nat) : TsoSystem := ⟨[], fun _ => .Idle, [], floor, []⟩

def NoReaders (s : TsoSystem) : Prop := ∀ t a keys, s.pops t ≠ .Reading a keys

def set_pop (s : TsoSystem) (t : Nat) (p : PopState) : TsoSystem :=
  { s with pops := Function.update s.pops t p }

def pop_batch (s : TsoSystem) (t : Nat) (after_ts : Option Nat) (key : Nat) (keys : List Nat) :
    TsoSystem :=
  match TsoBatchList.pop_batch s.inner key with
  | (some (ts, is_used_up), inner) =>
    { s with inner, allocated := s.allocated ++ [ts],
             pops := Function.update s.pops t
               (if is_used_up then .Removing key ts else .Returned (some ts)) }
  | (none, inner) =>
    { s with inner, pops := Function.update s.pops t (.Reading after_ts keys) }

theorem pop_batch_pushes (s : TsoSystem) (t : Nat) (after_ts : Option Nat) (key : Nat)
    (keys : List Nat) : (s.pop_batch t after_ts key keys).pushes = s.pushes := by
  unfold pop_batch
  split <;> rfl

theorem pop_batch_floor (s : TsoSystem) (t : Nat) (after_ts : Option Nat) (key : Nat)
    (keys : List Nat) : (s.pop_batch t after_ts key keys).floor = s.floor := by
  unfold pop_batch
  split <;> rfl

theorem pop_batch_pops_of_ne {s : TsoSystem} {t t₀ : Nat} {after_ts : Option Nat} {key : Nat}
    {keys : List Nat} (ht : t ≠ t₀) : (s.pop_batch t₀ after_ts key keys).pops t = s.pops t := by
  unfold pop_batch
  split <;> exact Function.update_of_ne ht _ _

end TsoSystem

/-- One locked section of one call, or a batch taken from the source by a new push. -/
inductive TsoStep (capacity : Nat) : TsoSystem → TsoSystem → Prop
  | handout {s : TsoSystem} (batch_size last_ts : Nat) (need_flush : Bool) {b : TsoBatch}
      (hb : TsoBatch.new batch_size last_ts = some b) (hfloor : s.floor ≤ b.original_start) :
      TsoStep capacity s
        { s with pushes := .Checking b need_flush :: s.pushes, floor := b.excluded_end }
  | check {s : TsoSystem} {pre post : List PushState} {b : TsoBatch} {need_flush : Bool}
      (h : s.pushes = pre ++ .Checking b need_flush :: post) :
      TsoStep capacity s
        { s with pushes := if falls_back s.inner b then pre ++ post
                           else pre ++ .Inserting b need_flush :: post }
  | insert {s : TsoSystem} {pre post : List PushState} {b : TsoBatch} {need_flush : Bool}
      (h : s.pushes = pre ++ .Inserting b need_flush :: post) (hw : s.NoReaders) :
      TsoStep capacity s
        { s with inner := insert_batch s.inner b need_flush, pushes := pre ++ .Trimming :: post }
  | trim {s : TsoSystem} {pre post : List PushState} (h : s.pushes = pre ++ .Trimming :: post) :
      TsoStep capacity s
        { s with pushes := if over_capacity s.inner capacity then pre ++ .PoppingFirst :: post
                           else pre ++ post }
  | pop_first {s : TsoSystem} {pre post : List PushState}
      (h : s.pushes = pre ++ .PoppingFirst :: post) (hw : s.NoReaders) :
      TsoStep capacity s { s with inner := pop_first s.inner, pushes := pre ++ post }
  | flush {s : TsoSystem} (hw : s.NoReaders) : TsoStep capacity s { s with inner := [] }
  | begin_pop {s : TsoSystem} {t : Nat} (after_ts : Option Nat) (h : s.pops t = .Idle) :
      TsoStep capacity s (s.set_pop t (.Reading after_ts (range s.inner after_ts)))
  | pop_batch {s : TsoSystem} {t : Nat} {after_ts : Option Nat} {key : Nat} {keys : List Nat}
      (h : s.pops t = .Reading after_ts (key :: keys)) :
      TsoStep capacity s (s.pop_batch t after_ts key keys)
  | end_pop {s : TsoSystem} {t : Nat} {after_ts : Option Nat}
      (h : s.pops t = .Reading after_ts []) : TsoStep capacity s (s.set_pop t (.Returned none))
  | remove_batch {s : TsoSystem} {t key ts : Nat} (h : s.pops t = .Removing key ts)
      (hw : s.NoReaders) :
      TsoStep capacity s
        ({ s with inner := remove s.inner key }.set_pop t (.Returned (some ts)))
  | take {s : TsoSystem} {t : Nat} {ts : Option Nat} (h : s.pops t = .Returned ts) :
      TsoStep capacity s (s.set_pop t .Idle)

namespace TsoBatch

variable {b b₁ b₂ : TsoBatch} {ts : Nat}

def contains (b : TsoBatch) (ts : Nat) : Prop := b.original_start ≤ ts ∧ ts < b.excluded_end

def Disjoint (b₁ b₂ : TsoBatch) : Prop :=
  b₁.excluded_end ≤ b₂.original_start ∨ b₂.excluded_end ≤ b₁.original_start

theorem Disjoint.symm (h : b₁.Disjoint b₂) : b₂.Disjoint b₁ := Or.symm h

theorem Disjoint.not_contains (h : b₁.Disjoint b₂) (h₁ : b₁.contains ts) : ¬b₂.contains ts := by
  unfold contains at *
  unfold Disjoint at h
  omega

theorem compose_lt_compose {physical a c : Nat} :
    TimeStamp.compose physical a < TimeStamp.compose physical c ↔ a < c := by
  unfold TimeStamp.compose
  omega

@[simp] theorem pop_snd_physical : b.pop.2.physical = b.physical := rfl
@[simp] theorem pop_snd_alloc_offset : b.pop.2.alloc_offset = b.alloc_offset + 1 := rfl

theorem pop_fst_eq_some {used_up : Bool} (h : b.pop.1 = some (ts, used_up)) :
    b.alloc_offset < b.logical_end ∧ ts = TimeStamp.compose b.physical b.alloc_offset := by
  unfold pop at h
  split_ifs at h with hlt
  cases h
  exact ⟨hlt, rfl⟩

theorem original_start_le_excluded_end (h : b.logical_start ≤ b.logical_end) :
    b.original_start ≤ b.excluded_end := by
  unfold original_start excluded_end TimeStamp.compose
  omega

theorem new_eq {batch_size last_ts : Nat} (h : TsoBatch.new batch_size last_ts = some b) :
    b.alloc_offset = b.logical_start ∧ b.logical_start ≤ b.logical_end := by
  unfold TsoBatch.new at h
  split_ifs at h
  cases h
  exact ⟨rfl, Nat.sub_le _ _⟩

end TsoBatch

open TsoBatch

/-- What a batch keeps: an offset from its start on, its end within what the source handed out,
and no timestamp of it handed out at or beyond the offset. -/
structure BatchInv (floor : Nat) (allocated : List Nat) (b : TsoBatch) : Prop where
  start_le_offset : b.logical_start ≤ b.alloc_offset
  start_le_end : b.logical_start ≤ b.logical_end
  below_floor : b.excluded_end ≤ floor
  fresh : ∀ ts ∈ allocated, b.contains ts → ts < TimeStamp.compose b.physical b.alloc_offset

theorem BatchInv.mono_floor {floor floor' : Nat} {allocated : List Nat} {b : TsoBatch}
    (h : BatchInv floor allocated b) (hle : floor ≤ floor') : BatchInv floor' allocated b :=
  ⟨h.start_le_offset, h.start_le_end, Nat.le_trans h.below_floor hle, h.fresh⟩

theorem BatchInv.allocate {floor ts : Nat} {allocated : List Nat} {b : TsoBatch}
    (h : BatchInv floor allocated b) (hts : ¬b.contains ts) :
    BatchInv floor (allocated ++ [ts]) b := by
  refine ⟨h.start_le_offset, h.start_le_end, h.below_floor, fun t ht hc => ?_⟩
  rcases List.mem_append.mp ht with ht | ht
  · exact h.fresh t ht hc
  · rw [List.mem_singleton.mp ht] at hc
    exact absurd hc hts

theorem BatchInv.pop {floor : Nat} {allocated : List Nat} {b : TsoBatch}
    (h : BatchInv floor allocated b) :
    BatchInv floor (allocated ++ (b.pop.1.map Prod.fst).toList) b.pop.2 := by
  have hoff : TimeStamp.compose b.physical b.alloc_offset <
      TimeStamp.compose b.physical (b.alloc_offset + 1) := compose_lt_compose.mpr (by omega)
  refine ⟨Nat.le_succ_of_le h.start_le_offset, h.start_le_end,
    h.below_floor, fun t ht hc => ?_⟩
  simp only [pop_snd_physical, pop_snd_alloc_offset]
  rcases List.mem_append.mp ht with ht | ht
  · exact Nat.lt_trans (h.fresh t ht hc) hoff
  · cases hp : b.pop.1 with
    | none => simp [hp] at ht
    | some r =>
      obtain ⟨ts, used_up⟩ := r
      simp only [hp, Option.map_some, Option.toList_some, List.mem_singleton] at ht
      rw [ht, (pop_fst_eq_some hp).2]
      exact hoff

theorem BatchInv.contains_offset {floor : Nat} {allocated : List Nat} {b : TsoBatch}
    (h : BatchInv floor allocated b) (hlt : b.alloc_offset < b.logical_end) :
    b.contains (TimeStamp.compose b.physical b.alloc_offset) := by
  have := h.start_le_offset
  refine ⟨?_, compose_lt_compose.mpr hlt⟩
  unfold TsoBatch.original_start TimeStamp.compose
  omega

namespace TsoSystem

def pending (s : TsoSystem) : List TsoBatch := s.pushes.filterMap PushState.batch

variable {s : TsoSystem} {pre post : List PushState} {x : PushState}

theorem pending_erase (h : s.pushes = pre ++ x :: post) :
    ((pre ++ post).filterMap PushState.batch).Sublist s.pending := by
  rw [pending, h, List.filterMap_append, List.filterMap_append, List.filterMap_cons]
  apply List.Sublist.append_left
  split
  · exact List.Sublist.refl _
  · exact List.sublist_cons_self _ _

theorem pending_replace {y : PushState} (h : s.pushes = pre ++ x :: post)
    (hy : y.batch = none ∨ y.batch = x.batch) :
    ((pre ++ y :: post).filterMap PushState.batch).Sublist s.pending := by
  rcases hy with hy | hy
  · simp only [List.filterMap_append, List.filterMap_cons, hy]
    rw [← List.filterMap_append]
    exact pending_erase h
  · rw [pending, h, List.filterMap_append, List.filterMap_append, List.filterMap_cons,
      List.filterMap_cons, hy]

end TsoSystem

/-- What every interleaving keeps: the map ordered and keyed by batch starts, every batch (in the
map or in a push) under its invariant, all of them one above the other, the handed-out
timestamps distinct and below the source, and the keys of a reader still in the map. -/
structure TsoInv (s : TsoSystem) : Prop where
  sorted : s.inner.Pairwise fun p q => p.1 < q.1
  keyed : ∀ p ∈ s.inner, p.1 = p.2.original_start
  inner_batches : ∀ p ∈ s.inner, BatchInv s.floor s.allocated p.2
  pending_batches : ∀ b ∈ s.pending, BatchInv s.floor s.allocated b
  inner_disjoint : s.inner.Pairwise fun p q => p.2.Disjoint q.2
  pending_disjoint : ∀ b ∈ s.pending, ∀ p ∈ s.inner, b.Disjoint p.2
  pendings_disjoint : s.pending.Pairwise TsoBatch.Disjoint
  nodup : s.allocated.Nodup
  allocated_below : ∀ ts ∈ s.allocated, ts < s.floor
  readers : ∀ t a keys, s.pops t = .Reading a keys →
    ∀ k ∈ keys, k ∈ s.inner.map Prod.fst ∧ ∀ x, a = some x → x ≤ k

namespace TsoBatchList

variable {key : Nat} {batch : TsoBatch} {inner : List (Nat × TsoBatch)}

theorem mem_insert {p : Nat × TsoBatch} (h : p ∈ insert key batch inner) :
    p = (key, batch) ∨ p ∈ inner := by
  induction inner with
  | nil =>
    simp only [insert, List.mem_singleton] at h
    exact Or.inl h
  | cons q rest ih =>
    unfold insert at h
    split_ifs at h with hlt heq
    · exact List.mem_cons.mp h
    · rcases List.mem_cons.mp h with h | h
      · exact Or.inl h
      · exact Or.inr (List.mem_cons_of_mem _ h)
    · rcases List.mem_cons.mp h with h | h
      · exact Or.inr (h ▸ List.mem_cons_self)
      · rcases ih h with h | h
        · exact Or.inl h
        · exact Or.inr (List.mem_cons_of_mem _ h)

theorem insert_sorted (h : inner.Pairwise fun p q => p.1 < q.1) :
    (insert key batch inner).Pairwise fun p q => p.1 < q.1 := by
  induction inner with
  | nil => simp [insert]
  | cons q rest ih =>
    rw [List.pairwise_cons] at h
    unfold insert
    split_ifs with hlt heq
    · refine List.pairwise_cons.mpr ⟨fun p hp => ?_, List.pairwise_cons.mpr h⟩
      rcases List.mem_cons.mp hp with rfl | hp
      · exact hlt
      · exact Nat.lt_trans hlt (h.1 p hp)
    · refine List.pairwise_cons.mpr ⟨fun p hp => ?_, h.2⟩
      rw [heq]
      exact h.1 p hp
    · refine List.pairwise_cons.mpr ⟨fun p hp => ?_, ih h.2⟩
      rcases mem_insert hp with rfl | hp
      · omega
      · exact h.1 p hp

theorem insert_pairwise {R : Nat × TsoBatch → Nat × TsoBatch → Prop}
    (hsymm : ∀ p q, R p q → R q p) (h : inner.Pairwise R) (hnew : ∀ q ∈ inner, R (key, batch) q) :
    (insert key batch inner).Pairwise R := by
  induction inner with
  | nil => simp [insert]
  | cons q rest ih =>
    rw [List.pairwise_cons] at h
    unfold insert
    split_ifs with hlt heq
    · exact List.pairwise_cons.mpr ⟨hnew, List.pairwise_cons.mpr h⟩
    · exact List.pairwise_cons.mpr ⟨fun p hp => hnew p (List.mem_cons_of_mem _ hp), h.2⟩
    · refine List.pairwise_cons.mpr ⟨fun p hp => ?_,
        ih h.2 fun p hp => hnew p (List.mem_cons_of_mem _ hp)⟩
      rcases mem_insert hp with rfl | hp
      · exact hsymm _ _ (hnew q List.mem_cons_self)
      · exact h.1 p hp

theorem keys_nodup (h : inner.Pairwise fun p q => p.1 < q.1) :
    (Tikv.Lib.AssocList.keys inner).Nodup :=
  (List.pairwise_map.mpr h).imp Nat.ne_of_lt

theorem pop_batch_of_mem (hsorted : inner.Pairwise fun p q => p.1 < q.1)
    (hmem : (key, batch) ∈ inner) :
    pop_batch inner key =
      (batch.pop.1, inner.map fun p => if p.1 = key then (p.1, p.2.pop.2) else p) := by
  have hl : inner.lookup key = some batch :=
    (Tikv.Lib.AssocList.mem_iff_lookup (keys_nodup hsorted)).mp hmem
  simp [pop_batch, hl, Tikv.Lib.AssocList.modify]

theorem mem_range {after_ts : Option Nat} {k : Nat} (h : k ∈ range inner after_ts) :
    k ∈ inner.map Prod.fst := by
  cases after_ts with
  | none => exact h
  | some x =>
    obtain ⟨p, hp, rfl⟩ := List.mem_map.mp h
    exact List.mem_map_of_mem (List.mem_filter.mp hp).1

theorem pop_batch_keys (inner : List (Nat × TsoBatch)) (key : Nat) :
    (pop_batch inner key).2.map Prod.fst = inner.map Prod.fst := by
  unfold pop_batch
  split
  · exact Tikv.Lib.AssocList.keys_modify key (fun b => b.pop.2) inner
  · rfl

end TsoBatchList

namespace TsoInv

variable {s s' : TsoSystem}

theorem shrink (hi : TsoInv s) (hinner : s'.inner.Sublist s.inner)
    (hpend : s'.pending.Sublist s.pending) (hfloor : s'.floor = s.floor)
    (halloc : s'.allocated = s.allocated)
    (hread : ∀ t a keys, s'.pops t = .Reading a keys →
      ∀ k ∈ keys, k ∈ s'.inner.map Prod.fst ∧ ∀ x, a = some x → x ≤ k) : TsoInv s' := by
  refine ⟨hi.sorted.sublist hinner, fun p hp => hi.keyed p (hinner.subset hp), fun p hp => ?_,
    fun b hb => ?_, hi.inner_disjoint.sublist hinner,
    fun b hb p hp => hi.pending_disjoint b (hpend.subset hb) p (hinner.subset hp),
    hi.pendings_disjoint.sublist hpend, ?_, ?_, hread⟩
  · rw [hfloor, halloc]
    exact hi.inner_batches p (hinner.subset hp)
  · rw [hfloor, halloc]
    exact hi.pending_batches b (hpend.subset hb)
  · rw [halloc]
    exact hi.nodup
  · rw [hfloor, halloc]
    exact hi.allocated_below

theorem no_reading (hw : s.NoReaders) (hpops : s'.pops = s.pops) :
    ∀ t a keys, s'.pops t = .Reading a keys →
      ∀ k ∈ keys, k ∈ s'.inner.map Prod.fst ∧ ∀ x, a = some x → x ≤ k := by
  intro t a keys h
  rw [hpops] at h
  exact absurd h (hw t a keys)

theorem init (floor : Nat) : TsoInv (TsoSystem.init floor) := by
  refine ⟨List.Pairwise.nil, fun _ h => (by cases h), fun _ h => (by cases h),
    fun _ h => (by cases h), List.Pairwise.nil, fun _ h => (by cases h), List.Pairwise.nil,
    List.nodup_nil, fun _ h => (by cases h), fun t a keys h => ?_⟩
  cases h

theorem handout (hi : TsoInv s) {batch_size last_ts : Nat} {need_flush : Bool} {b : TsoBatch}
    (hb : TsoBatch.new batch_size last_ts = some b) (hfloor : s.floor ≤ b.original_start) :
    TsoInv { s with pushes := .Checking b need_flush :: s.pushes, floor := b.excluded_end } := by
  obtain ⟨hoff, hse⟩ := TsoBatch.new_eq hb
  have hstart : b.original_start ≤ b.excluded_end := by
    unfold TsoBatch.original_start TsoBatch.excluded_end TimeStamp.compose
    omega
  have hle : s.floor ≤ b.excluded_end := Nat.le_trans hfloor hstart
  have hpend : TsoSystem.pending ⟨s.inner, s.pops, .Checking b need_flush :: s.pushes,
      b.excluded_end, s.allocated⟩ = b :: s.pending := by
    simp [TsoSystem.pending, PushState.batch]
  have hnew : BatchInv b.excluded_end s.allocated b := by
    refine ⟨Nat.le_of_eq hoff.symm, hse, Nat.le_refl _, fun t ht hc => ?_⟩
    have := hi.allocated_below t ht
    unfold TsoBatch.contains at hc
    omega
  have habove : ∀ b' : TsoBatch, b'.excluded_end ≤ s.floor → b.Disjoint b' :=
    fun b' h' => Or.inr (Nat.le_trans h' hfloor)
  refine ⟨hi.sorted, hi.keyed, fun p hp => (hi.inner_batches p hp).mono_floor hle, ?_, hi.inner_disjoint,
    ?_, ?_, hi.nodup, fun t ht => Nat.lt_of_lt_of_le (hi.allocated_below t ht) hle, hi.readers⟩
  · rw [hpend]
    intro b' hb'
    rcases List.mem_cons.mp hb' with rfl | hb'
    · exact hnew
    · exact (hi.pending_batches b' hb').mono_floor hle
  · rw [hpend]
    intro b' hb' p hp
    rcases List.mem_cons.mp hb' with rfl | hb'
    · exact habove p.2 (hi.inner_batches p hp).below_floor
    · exact hi.pending_disjoint b' hb' p hp
  · rw [hpend]
    exact List.pairwise_cons.mpr
      ⟨fun b' hb' => habove b' (hi.pending_batches b' hb').below_floor, hi.pendings_disjoint⟩

theorem check (hi : TsoInv s) {pre post : List PushState} {b : TsoBatch} {need_flush : Bool}
    (h : s.pushes = pre ++ .Checking b need_flush :: post) :
    TsoInv { s with pushes := if falls_back s.inner b then pre ++ post
                              else pre ++ .Inserting b need_flush :: post } := by
  refine hi.shrink (List.Sublist.refl _) ?_ rfl rfl hi.readers
  simp only [TsoSystem.pending]
  split_ifs
  · exact TsoSystem.pending_erase h
  · exact TsoSystem.pending_replace (y := .Inserting b need_flush) h (Or.inr rfl)

theorem trim (hi : TsoInv s) {capacity : Nat} {pre post : List PushState}
    (h : s.pushes = pre ++ .Trimming :: post) :
    TsoInv { s with pushes := if over_capacity s.inner capacity then pre ++ .PoppingFirst :: post
                              else pre ++ post } := by
  refine hi.shrink (List.Sublist.refl _) ?_ rfl rfl hi.readers
  simp only [TsoSystem.pending]
  split_ifs
  · exact TsoSystem.pending_replace (y := .PoppingFirst) h (Or.inl rfl)
  · exact TsoSystem.pending_erase h

theorem pop_first (hi : TsoInv s) {pre post : List PushState}
    (h : s.pushes = pre ++ .PoppingFirst :: post) (hw : s.NoReaders) :
    TsoInv { s with inner := TsoBatchList.pop_first s.inner, pushes := pre ++ post } := by
  exact hi.shrink (List.drop_sublist _ _) (TsoSystem.pending_erase h) rfl rfl (no_reading hw rfl)

theorem flush (hi : TsoInv s) (hw : s.NoReaders) : TsoInv { s with inner := [] } :=
  hi.shrink (List.nil_sublist _) (List.Sublist.refl _) rfl rfl (no_reading hw rfl)

theorem insert (hi : TsoInv s) {pre post : List PushState} {b : TsoBatch} {need_flush : Bool}
    (h : s.pushes = pre ++ .Inserting b need_flush :: post) (hw : s.NoReaders) :
    TsoInv { s with inner := insert_batch s.inner b need_flush,
                    pushes := pre ++ .Trimming :: post } := by
  have hpend : s.pending = pre.filterMap PushState.batch ++ b :: post.filterMap PushState.batch := by
    simp [TsoSystem.pending, h, List.filterMap_append, PushState.batch]
  have hpend' : TsoSystem.pending ⟨insert_batch s.inner b need_flush, s.pops,
      pre ++ .Trimming :: post, s.floor, s.allocated⟩ =
        pre.filterMap PushState.batch ++ post.filterMap PushState.batch := by
    simp [TsoSystem.pending, List.filterMap_append, List.filterMap_cons, PushState.batch]
  have hbmem : b ∈ s.pending := by
    rw [hpend]
    simp
  have hsub : (pre.filterMap PushState.batch ++ post.filterMap PushState.batch).Sublist
      s.pending := by
    rw [hpend]
    exact List.Sublist.append_left (List.sublist_cons_self _ _) _
  -- the other pushes' batches lie apart from the one going in
  have hapart : ∀ b' ∈ pre.filterMap PushState.batch ++ post.filterMap PushState.batch,
      b'.Disjoint b := by
    have hp := hi.pendings_disjoint
    rw [hpend, List.pairwise_append, List.pairwise_cons] at hp
    intro b' hb'
    rcases List.mem_append.mp hb' with hb' | hb'
    · exact hp.2.2 b' hb' b List.mem_cons_self
    · exact (hp.2.1.1 b' hb').symm
  -- the map the batch goes into: the list itself, or nothing after a flush
  have hbase : ∀ p ∈ (if need_flush then [] else s.inner), p ∈ s.inner := by
    split_ifs <;> simp
  have hbase_sub : (if need_flush then [] else s.inner).Sublist s.inner := by
    split_ifs
    · exact List.nil_sublist _
    · exact List.Sublist.refl _
  have hmem : ∀ p ∈ insert_batch s.inner b need_flush, p = (b.original_start, b) ∨ p ∈ s.inner :=
    fun p hp => (mem_insert hp).imp id (hbase p)
  refine ⟨insert_sorted (hi.sorted.sublist hbase_sub), fun p hp => ?_, fun p hp => ?_,
    fun b' hb' => ?_, ?_, fun b' hb' p hp => ?_, ?_, hi.nodup, hi.allocated_below,
    no_reading hw rfl⟩
  · rcases hmem p hp with rfl | hp
    · rfl
    · exact hi.keyed p hp
  · rcases hmem p hp with rfl | hp
    · exact hi.pending_batches b hbmem
    · exact hi.inner_batches p hp
  · rw [hpend'] at hb'
    exact hi.pending_batches b' (hsub.subset hb')
  · exact insert_pairwise (fun _ _ h => h.symm) (hi.inner_disjoint.sublist hbase_sub)
      fun q hq => hi.pending_disjoint b hbmem q (hbase q hq)
  · rw [hpend'] at hb'
    rcases hmem p hp with rfl | hp
    · exact hapart b' hb'
    · exact hi.pending_disjoint b' (hsub.subset hb') p hp
  · rw [hpend']
    exact hi.pendings_disjoint.sublist hsub

theorem begin_pop (hi : TsoInv s) {t : Nat} (after_ts : Option Nat) :
    TsoInv (s.set_pop t (.Reading after_ts (range s.inner after_ts))) := by
  refine hi.shrink (List.Sublist.refl _) (List.Sublist.refl _) rfl rfl ?_
  intro t' a keys h'
  by_cases ht : t' = t
  · subst ht
    simp only [TsoSystem.set_pop, Function.update_self, PopState.Reading.injEq] at h'
    obtain ⟨rfl, rfl⟩ := h'
    intro k hk
    cases after_ts with
    | none => exact ⟨hk, fun x hx => by cases hx⟩
    | some x =>
      simp only [range, List.mem_map, List.mem_filter, decide_eq_true_eq] at hk
      obtain ⟨p, ⟨hp, hx⟩, rfl⟩ := hk
      exact ⟨List.mem_map_of_mem hp, fun y hy => by cases hy; exact hx⟩
  · simp only [TsoSystem.set_pop, Function.update_of_ne ht] at h'
    exact hi.readers t' a keys h'

theorem set_pop_readers (hi : TsoInv s) {t : Nat} {p : PopState} (hp : ∀ a keys, p ≠ .Reading a keys)
    (hinner : s'.inner = s.inner) (hpops : s'.pops = Function.update s.pops t p) :
    ∀ t' a keys, s'.pops t' = .Reading a keys →
      ∀ k ∈ keys, k ∈ s'.inner.map Prod.fst ∧ ∀ x, a = some x → x ≤ k := by
  intro t' a keys h'
  rw [hpops] at h'
  by_cases ht : t' = t
  · subst ht
    rw [Function.update_self] at h'
    exact absurd h' (hp a keys)
  · rw [Function.update_of_ne ht] at h'
    rw [hinner]
    exact hi.readers t' a keys h'

theorem end_pop (hi : TsoInv s) (t : Nat) : TsoInv (s.set_pop t (.Returned none)) :=
  hi.shrink (List.Sublist.refl _) (List.Sublist.refl _) rfl rfl
    (hi.set_pop_readers (fun _ _ h => by cases h) rfl rfl)

theorem take (hi : TsoInv s) (t : Nat) : TsoInv (s.set_pop t .Idle) :=
  hi.shrink (List.Sublist.refl _) (List.Sublist.refl _) rfl rfl
    (hi.set_pop_readers (fun _ _ h => by cases h) rfl rfl)

theorem remove_batch (hi : TsoInv s) (hw : s.NoReaders) (t key ts : Nat) :
    TsoInv ({ s with inner := remove s.inner key }.set_pop t (.Returned (some ts))) := by
  refine hi.shrink List.filter_sublist (List.Sublist.refl _) rfl rfl ?_
  intro t' a keys h'
  by_cases ht : t' = t
  · subst ht
    simp [TsoSystem.set_pop] at h'
  · simp only [TsoSystem.set_pop, Function.update_of_ne ht] at h'
    exact absurd h' (hw t' a keys)

theorem pop_batch (hi : TsoInv s) {t : Nat} {after_ts : Option Nat} {key : Nat} {keys : List Nat}
    (h : s.pops t = .Reading after_ts (key :: keys)) :
    TsoInv (s.pop_batch t after_ts key keys) := by
  obtain ⟨hkey, -⟩ := hi.readers t after_ts (key :: keys) h key List.mem_cons_self
  obtain ⟨⟨k, b⟩, hmem, hk⟩ := List.mem_map.mp hkey
  dsimp only at hk
  subst hk
  have : Std.Symm (fun p q : Nat × TsoBatch => p.2.Disjoint q.2) := ⟨fun _ _ h => h.symm⟩
  have hnd := keys_nodup hi.sorted
  -- the key has one entry, the batch being popped
  have hone : ∀ q ∈ s.inner, q.1 = k → q = (k, b) := by
    intro q hq hqk
    obtain ⟨k', b'⟩ := q
    dsimp only at hqk
    subst hqk
    have h₁ := (Tikv.Lib.AssocList.mem_iff_lookup hnd).mp hq
    rw [(Tikv.Lib.AssocList.mem_iff_lookup hnd).mp hmem] at h₁
    cases h₁
    rfl
  have hsep : ∀ q ∈ s.inner, q.1 ≠ k → b.Disjoint q.2 := fun q hq hqk =>
    hi.inner_disjoint.forall hmem hq fun he => hqk (by rw [← he])
  have hbinv := hi.inner_batches _ hmem
  rw [TsoSystem.pop_batch, pop_batch_of_mem hi.sorted hmem]
  set f := fun p : Nat × TsoBatch => if p.1 = k then (p.1, p.2.pop.2) else p with hf
  have hmap : ∀ q ∈ s.inner.map f, q = (k, b.pop.2) ∨ (q ∈ s.inner ∧ q.1 ≠ k) := by
    intro q hq
    obtain ⟨p, hp, rfl⟩ := List.mem_map.mp hq
    by_cases hpk : p.1 = k
    · left
      rw [hone p hp hpk]
      simp [hf]
    · right
      simp only [hf, hpk, if_false]
      exact ⟨hp, hpk⟩
  have hkeys : (s.inner.map f).map Prod.fst = s.inner.map Prod.fst := by
    rw [List.map_map]
    congr 1
    funext p
    simp only [hf, Function.comp]
    split_ifs <;> rfl
  have hsorted : (s.inner.map f).Pairwise fun p q => p.1 < q.1 :=
    List.pairwise_map.mpr (hi.sorted.imp fun {p q} hpq => by
      simp only [hf]
      split_ifs <;> exact hpq)
  have hdisj : (s.inner.map f).Pairwise fun p q => p.2.Disjoint q.2 :=
    List.pairwise_map.mpr (hi.inner_disjoint.imp fun {p q} hpq => by
      simp only [hf]
      split_ifs <;> exact hpq)
  have hkeyed : ∀ q ∈ s.inner.map f, q.1 = q.2.original_start := by
    intro q hq
    rcases hmap q hq with rfl | ⟨hq, -⟩
    · exact hi.keyed (k, b) hmem
    · exact hi.keyed q hq
  have hpdisj : ∀ b' ∈ s.pending, ∀ q ∈ s.inner.map f, b'.Disjoint q.2 := by
    intro b' hb' q hq
    rcases hmap q hq with rfl | ⟨hq, -⟩
    · exact hi.pending_disjoint b' hb' (k, b) hmem
    · exact hi.pending_disjoint b' hb' q hq
  cases hp : b.pop.1 with
  | none =>
    dsimp only
    have hpop := hbinv.pop
    rw [hp] at hpop
    simp only [Option.map_none, Option.toList_none, List.append_nil] at hpop
    refine ⟨hsorted, hkeyed, fun q hq => ?_, hi.pending_batches, hdisj, hpdisj,
      hi.pendings_disjoint, hi.nodup, hi.allocated_below, fun t' a ks h' => ?_⟩
    · rcases hmap q hq with rfl | ⟨hq, -⟩
      · exact hpop
      · exact hi.inner_batches q hq
    · show ∀ k' ∈ ks, k' ∈ (s.inner.map f).map Prod.fst ∧ ∀ x, a = some x → x ≤ k'
      rw [hkeys]
      dsimp only at h'
      by_cases ht : t' = t
      · subst ht
        simp only [Function.update_self, PopState.Reading.injEq] at h'
        obtain ⟨rfl, rfl⟩ := h'
        exact fun k' hk' => hi.readers t' _ _ h k' (List.mem_cons_of_mem _ hk')
      · rw [Function.update_of_ne ht] at h'
        exact hi.readers t' a ks h'
  | some r =>
    obtain ⟨ts, used_up⟩ := r
    dsimp only
    obtain ⟨hlt, rfl⟩ := pop_fst_eq_some hp
    have hpop := hbinv.pop
    rw [hp] at hpop
    simp only [Option.map_some, Option.toList_some] at hpop
    -- the new timestamp lies in the popped batch, so in no other one
    have hcont := hbinv.contains_offset hlt
    have hfresh : TimeStamp.compose b.physical b.alloc_offset ∉ s.allocated := fun hin =>
      Nat.lt_irrefl _ (hbinv.fresh _ hin hcont)
    refine ⟨hsorted, hkeyed, fun q hq => ?_, fun b' hb' => ?_, hdisj, hpdisj,
      hi.pendings_disjoint, ?_, fun ts' hts' => ?_, fun t' a ks h' => ?_⟩
    · rcases hmap q hq with rfl | ⟨hq, hqk⟩
      · exact hpop
      · exact (hi.inner_batches q hq).allocate ((hsep q hq hqk).not_contains hcont)
    · exact (hi.pending_batches b' hb').allocate
        ((hi.pending_disjoint b' hb' (k, b) hmem).symm.not_contains hcont)
    · rw [← List.concat_eq_append]
      exact hi.nodup.concat hfresh
    · rcases List.mem_append.mp hts' with hts' | hts'
      · exact hi.allocated_below ts' hts'
      · rw [List.mem_singleton.mp hts']
        exact Nat.lt_of_lt_of_le hcont.2 hbinv.below_floor
    · show ∀ k' ∈ ks, k' ∈ (s.inner.map f).map Prod.fst ∧ ∀ x, a = some x → x ≤ k'
      rw [hkeys]
      dsimp only at h'
      by_cases ht : t' = t
      · subst ht
        simp only [Function.update_self] at h'
        split_ifs at h'
      · rw [Function.update_of_ne ht] at h'
        exact hi.readers t' a ks h'

theorem pop_batch_fresh (hi : TsoInv s) {t : Nat} {after_ts : Option Nat} {key : Nat}
    {keys : List Nat} (h : s.pops t = .Reading after_ts (key :: keys)) {ts : Nat}
    {used_up : Bool} (hp : (TsoBatchList.pop_batch s.inner key).1 = some (ts, used_up)) :
    ∃ batch, (key, batch) ∈ s.inner ∧ batch.contains ts ∧ key ≤ ts ∧ ts ∉ s.allocated ∧
      ∀ a, after_ts = some a → a ≤ ts := by
  obtain ⟨hkey, hafter⟩ := hi.readers t after_ts (key :: keys) h key List.mem_cons_self
  obtain ⟨⟨k, b⟩, hmem, hk⟩ := List.mem_map.mp hkey
  dsimp only at hk
  subst hk
  rw [pop_batch_of_mem hi.sorted hmem] at hp
  obtain ⟨hlt, rfl⟩ := pop_fst_eq_some hp
  have hbinv := hi.inner_batches _ hmem
  have hcont := hbinv.contains_offset hlt
  have hkeyed : k = b.original_start := hi.keyed _ hmem
  have hle : k ≤ TimeStamp.compose b.physical b.alloc_offset := by
    rw [hkeyed]
    exact hcont.1
  exact ⟨b, hmem, hcont, hle, fun hin => Nat.lt_irrefl _ (hbinv.fresh _ hin hcont),
    fun a ha => Nat.le_trans (hafter a ha) hle⟩

theorem step {capacity : Nat} (hi : TsoInv s) (h : TsoStep capacity s s') : TsoInv s' := by
  cases h with
  | handout _ _ _ hb hfloor => exact hi.handout hb hfloor
  | check h => exact hi.check h
  | insert h hw => exact hi.insert h hw
  | trim h => exact hi.trim h
  | pop_first h hw => exact hi.pop_first h hw
  | flush hw => exact hi.flush hw
  | begin_pop after_ts _ => exact hi.begin_pop after_ts
  | pop_batch h => exact hi.pop_batch h
  | end_pop _ => exact hi.end_pop _
  | remove_batch _ hw => exact hi.remove_batch hw _ _ _
  | take _ => exact hi.take _

theorem reachable {capacity floor : Nat}
    (h : Relation.ReflTransGen (TsoStep capacity) (TsoSystem.init floor) s) : TsoInv s := by
  induction h with
  | refl => exact init floor
  | tail _ hstep ih => exact ih.step hstep

end TsoInv

def PopState.held : PopState → Option Nat
  | .Removing _ ts => some ts
  | .Returned ts => ts
  | _ => none

section HandOut

variable {capacity : Nat} {s s' : TsoSystem}

theorem held_update {pops : Nat → PopState} {t₀ t ts : Nat} {p : PopState}
    (hp : p.held = some ts → (pops t₀).held = some ts)
    (h : (Function.update pops t₀ p t).held = some ts) : (pops t).held = some ts := by
  by_cases ht : t = t₀
  · subst ht
    rw [Function.update_self] at h
    exact hp h
  · rwa [Function.update_of_ne ht] at h

theorem held_step (h : TsoStep capacity s s') {t ts : Nat} (h' : (s'.pops t).held = some ts)
    (hne : (s.pops t).held ≠ some ts) :
    ∃ after_ts key keys used_up, s.pops t = .Reading after_ts (key :: keys) ∧
      (TsoBatchList.pop_batch s.inner key).1 = some (ts, used_up) ∧
      s'.allocated = s.allocated ++ [ts] := by
  cases h with
  | begin_pop _ _ => exact absurd (held_update (fun h => by cases h) h') hne
  | end_pop _ => exact absurd (held_update (fun h => by cases h) h') hne
  | take _ => exact absurd (held_update (fun h => by cases h) h') hne
  | remove_batch hpop _ => exact absurd (held_update (fun h => by rw [hpop]; exact h) h') hne
  | @pop_batch t₀ after_ts key keys hpop =>
    unfold TsoSystem.pop_batch at h' ⊢
    rcases hp : TsoBatchList.pop_batch s.inner key with ⟨_ | ⟨ts', used_up⟩, inner⟩
    · rw [hp] at h'
      exact absurd (held_update (fun h => by cases h) h') hne
    · rw [hp] at h'
      dsimp only at h' ⊢
      by_cases ht : t = t₀
      · subst ht
        rw [Function.update_self] at h'
        have hts : ts' = ts := by
          split_ifs at h' <;> exact Option.some.inj h'
        subst hts
        exact ⟨after_ts, key, keys, used_up, hpop, by rw [hp], rfl⟩
      · rw [Function.update_of_ne ht] at h'
        exact absurd h' hne
  | _ => exact absurd h' hne

theorem allocated_grows (h : TsoStep capacity s s') : s.allocated <+: s'.allocated := by
  cases h with
  | pop_batch _ =>
    unfold TsoSystem.pop_batch
    split
    · exact List.prefix_append _ _
    · exact List.prefix_refl _
  | _ => exact List.prefix_refl _

theorem allocated_grows_run (h : Relation.ReflTransGen (TsoStep capacity) s s') :
    s.allocated <+: s'.allocated := by
  induction h with
  | refl => exact List.prefix_refl _
  | tail _ hstep ih => exact ih.trans (allocated_grows hstep)

theorem hands_out_fresh {floor : Nat}
    (hreach : Relation.ReflTransGen (TsoStep capacity) (TsoSystem.init floor) s)
    (h : TsoStep capacity s s') :
    s'.allocated.Nodup ∧ s.allocated <+: s'.allocated ∧
    ∀ t ts, (s'.pops t).held = some ts → (s.pops t).held ≠ some ts →
      s'.allocated = s.allocated ++ [ts] ∧ ts ∉ s.allocated ∧
      ∃ after_ts key keys batch, s.pops t = .Reading after_ts (key :: keys) ∧
        (key, batch) ∈ s.inner ∧ batch.contains ts ∧ ∀ a, after_ts = some a → a ≤ ts := by
  have hi := TsoInv.reachable hreach
  refine ⟨(hi.step h).nodup, allocated_grows h, fun t ts h' hne => ?_⟩
  obtain ⟨after_ts, key, keys, used_up, hpop, hp, halloc⟩ := held_step h h' hne
  obtain ⟨batch, hmem, hcont, -, hfresh, hafter⟩ := hi.pop_batch_fresh hpop hp
  exact ⟨halloc, hfresh, after_ts, key, keys, batch, hpop, hmem, hcont, hafter⟩

theorem floor_le (h : TsoStep capacity s s') : s.floor ≤ s'.floor := by
  cases h with
  | handout _ _ _ hb hfloor =>
    exact Nat.le_trans hfloor (original_start_le_excluded_end (TsoBatch.new_eq hb).2)
  | pop_batch _ => exact Nat.le_of_eq (TsoSystem.pop_batch_floor _ _ _ _ _).symm
  | _ => exact Nat.le_refl _

theorem floor_le_run (h : Relation.ReflTransGen (TsoStep capacity) s s') : s.floor ≤ s'.floor := by
  induction h with
  | refl => exact Nat.le_refl _
  | tail _ hstep ih => exact Nat.le_trans ih (floor_le hstep)

theorem keys_step (h : TsoStep capacity s s') :
    ∀ p ∈ s'.inner, p.1 ∈ s.inner.map Prod.fst ∨ ∃ b ∈ s.pending, p.1 = b.original_start := by
  intro p hp
  cases h with
  | @insert pre post b need_flush hpush _ =>
    rcases mem_insert hp with rfl | hp
    · refine Or.inr ⟨b, ?_, rfl⟩
      rw [TsoSystem.pending, hpush]
      simp [PushState.batch]
    · split_ifs at hp
      · cases hp
      · exact Or.inl (List.mem_map_of_mem hp)
  | pop_first _ _ => exact Or.inl (List.mem_map_of_mem (List.mem_of_mem_drop hp))
  | flush _ => cases hp
  | remove_batch _ _ => exact Or.inl (List.mem_map_of_mem (List.mem_filter.mp hp).1)
  | @pop_batch t₀ after_ts key keys _ =>
    left
    have hkeys := pop_batch_keys s.inner key
    unfold TsoSystem.pop_batch at hp
    rcases hq : TsoBatchList.pop_batch s.inner key with ⟨_ | _, inner⟩
    all_goals
      rw [hq] at hp hkeys
      rw [← hkeys]
      exact List.mem_map_of_mem hp
  | _ => exact Or.inl (List.mem_map_of_mem hp)

theorem pending_step (h : TsoStep capacity s s') :
    ∀ b ∈ s'.pending, b ∈ s.pending ∨ s.floor ≤ b.original_start := by
  intro b' hb'
  cases h with
  | handout _ _ _ _ hfloor =>
    simp only [TsoSystem.pending, List.filterMap_cons, PushState.batch, List.mem_cons] at hb'
    rcases hb' with rfl | hb'
    · exact Or.inr hfloor
    · exact Or.inl hb'
  | check hpush =>
    simp only [TsoSystem.pending] at hb'
    split_ifs at hb'
    · exact Or.inl ((TsoSystem.pending_erase hpush).subset hb')
    · exact Or.inl ((TsoSystem.pending_replace (y := .Inserting _ _) hpush (Or.inr rfl)).subset hb')
  | insert hpush _ =>
    exact Or.inl ((TsoSystem.pending_replace hpush (Or.inl rfl)).subset hb')
  | trim hpush =>
    simp only [TsoSystem.pending] at hb'
    split_ifs at hb'
    · exact Or.inl ((TsoSystem.pending_replace hpush (Or.inl rfl)).subset hb')
    · exact Or.inl ((TsoSystem.pending_erase hpush).subset hb')
  | pop_first hpush _ => exact Or.inl ((TsoSystem.pending_erase hpush).subset hb')
  | pop_batch _ =>
    rw [TsoSystem.pending, TsoSystem.pop_batch_pushes] at hb'
    exact Or.inl hb'
  | _ => exact Or.inl hb'

end HandOut

section Provider

variable {capacity m : Nat} {s s' : TsoSystem}

/-- Every batch in the list, in a push, or still to come from the source starts at or above
`m`. -/
structure ListAbove (m : Nat) (s : TsoSystem) : Prop where
  inner : ∀ p ∈ s.inner, m ≤ p.1
  pending : ∀ b ∈ s.pending, m ≤ b.original_start
  floor : m ≤ s.floor

theorem ListAbove.key (ha : ListAbove m s) {k : Nat} (hk : k ∈ s.inner.map Prod.fst) : m ≤ k := by
  obtain ⟨p, hp, rfl⟩ := List.mem_map.mp hk
  exact ha.inner p hp

theorem ListAbove.step (ha : ListAbove m s) (h : TsoStep capacity s s') : ListAbove m s' := by
  refine ⟨fun p hp => ?_, fun b hb => ?_, Nat.le_trans ha.floor (floor_le h)⟩
  · rcases keys_step h p hp with hk | ⟨b, hb, hk⟩
    · exact ha.key hk
    · rw [hk]
      exact ha.pending b hb
  · rcases pending_step h b hb with hb | hfl
    · exact ha.pending b hb
    · exact Nat.le_trans ha.floor hfl

theorem ListAbove.run (ha : ListAbove m s) (h : Relation.ReflTransGen (TsoStep capacity) s s') :
    ListAbove m s' := by
  induction h with
  | refl => exact ha
  | tail _ hstep ih => exact ih.step hstep

def PopState.Above (m : Nat) : PopState → Prop
  | .Idle => True
  | .Reading _ keys => ∀ k ∈ keys, m ≤ k
  | .Removing _ ts => m ≤ ts
  | .Returned ts => ∀ x, ts = some x → m ≤ x

theorem above_set_pop {t t₀ : Nat} {p : PopState} (hp : (s.pops t).Above m)
    (hnew : t = t₀ → p.Above m) : ((s.set_pop t₀ p).pops t).Above m := by
  by_cases ht : t = t₀
  · have := hnew ht
    subst ht
    simpa only [TsoSystem.set_pop, Function.update_self] using this
  · simpa only [TsoSystem.set_pop, Function.update_of_ne ht] using hp

theorem above_step (hi : TsoInv s) (ha : ListAbove m s) {t : Nat} (hp : (s.pops t).Above m)
    (h : TsoStep capacity s s') : (s'.pops t).Above m := by
  cases h with
  | begin_pop _ _ => exact above_set_pop hp fun _ _ hk => ha.key (mem_range hk)
  | end_pop _ => exact above_set_pop hp fun _ _ hx => by cases hx
  | take _ => exact above_set_pop hp fun _ => trivial
  | remove_batch hpop _ =>
    refine above_set_pop hp fun ht x hx => ?_
    subst ht
    rw [hpop] at hp
    cases hx
    exact hp
  | @pop_batch t₀ after_ts key keys hpop =>
    by_cases ht : t = t₀
    · subst ht
      rw [hpop] at hp
      have hkey := hp key List.mem_cons_self
      unfold TsoSystem.pop_batch
      rcases hq : TsoBatchList.pop_batch s.inner key with ⟨_ | ⟨ts, used_up⟩, inner⟩
      · dsimp only
        rw [Function.update_self]
        exact fun k hk => hp k (List.mem_cons_of_mem _ hk)
      · obtain ⟨-, -, -, hle, -⟩ := hi.pop_batch_fresh hpop (by rw [hq])
        dsimp only
        rw [Function.update_self]
        split_ifs
        · exact Nat.le_trans hkey hle
        · intro x hx
          cases hx
          exact Nat.le_trans hkey hle
    · rw [TsoSystem.pop_batch_pops_of_ne ht]
      exact hp
  | _ => exact hp

theorem above_run {floor t : Nat}
    (hreach : Relation.ReflTransGen (TsoStep capacity) (TsoSystem.init floor) s)
    (h : Relation.ReflTransGen (TsoStep capacity) s s') (ha : ListAbove m s)
    (hp : (s.pops t).Above m) : ListAbove m s' ∧ (s'.pops t).Above m := by
  induction h with
  | refl => exact ⟨ha, hp⟩
  | tail hrun hstep ih =>
    exact ⟨ih.1.step hstep, above_step (TsoInv.reachable (hreach.trans hrun)) ih.1 ih.2 hstep⟩

def ProviderStep (capacity : Nat) (s s' : TsoSystem) : Prop :=
  TsoStep capacity s s' ∧ s'.pushes.length ≤ 1

theorem pushes_length_run (h : Relation.ReflTransGen (ProviderStep capacity) s s')
    (h₀ : s.pushes.length ≤ 1) : s'.pushes.length ≤ 1 := by
  induction h with
  | refl => exact h₀
  | tail _ hstep _ => exact hstep.2

theorem get_ts_after_flush {floor batch_size last_ts t ts : Nat} {b : TsoBatch}
    {s₀ s₁ s₂ s₃ s₄ : TsoSystem}
    (h₀ : Relation.ReflTransGen (ProviderStep capacity) (TsoSystem.init floor) s₀)
    (h₁ : Relation.ReflTransGen (ProviderStep capacity) s₀ s₁) (hfree : s₁.pushes = [])
    (hb : TsoBatch.new batch_size last_ts = some b) (hfloor : s₁.floor ≤ b.original_start)
    (h₂ : Relation.ReflTransGen (ProviderStep capacity)
      { s₁ with pushes := [.Checking b true], floor := b.excluded_end } s₂)
    (hins : .Inserting b true ∈ s₂.pushes) (hw : s₂.NoReaders)
    (h₃ : Relation.ReflTransGen (ProviderStep capacity)
      { s₂ with inner := insert_batch s₂.inner b true, pushes := [.Trimming] } s₃)
    (hidle : s₃.pops t = .Idle) (h₄ : Relation.ReflTransGen (ProviderStep capacity) s₃ s₄)
    (hret : s₄.pops t = .Returned (some ts)) :
    ∀ ts₀ ∈ s₀.allocated, ts₀ < ts := by
  intro ts₀ hts₀
  have hlist : ∀ {a c : TsoSystem}, Relation.ReflTransGen (ProviderStep capacity) a c →
      Relation.ReflTransGen (TsoStep capacity) a c :=
    fun h => Relation.ReflTransGen.mono (fun _ _ (hs : ProviderStep capacity _ _) => hs.1) _ _ h
  have hhand : TsoStep capacity s₁
      { s₁ with pushes := [.Checking b true], floor := b.excluded_end } := by
    have h : TsoStep capacity s₁
        { s₁ with pushes := .Checking b true :: s₁.pushes, floor := b.excluded_end } :=
      TsoStep.handout batch_size last_ts true hb hfloor
    rw [hfree] at h
    exact h
  -- the renew thread has no other push under way, so the flush's push is inserted alone
  have hpush : s₂.pushes = [.Inserting b true] := by
    have hlen := pushes_length_run h₂ (Nat.le_refl 1)
    obtain ⟨q, hq⟩ := List.length_eq_one_iff.mp
      (Nat.le_antisymm hlen (List.length_pos_of_mem hins))
    rw [hq] at hins ⊢
    rw [List.mem_singleton.mp hins]
  have hinsert : TsoStep capacity s₂
      { s₂ with inner := insert_batch s₂.inner b true, pushes := [.Trimming] } :=
    @TsoStep.insert capacity s₂ [] [] b true hpush hw
  have hr₁ := (hlist h₀).trans (hlist h₁)
  have hr₃ := (((hr₁.tail hhand).trans (hlist h₂)).tail hinsert).trans (hlist h₃)
  -- what was handed out before lies below the source's floor, so below the flush's batch
  have hbelow : ts₀ < b.original_start :=
    Nat.lt_of_lt_of_le ((TsoInv.reachable hr₁).allocated_below ts₀
      ((allocated_grows_run (hlist h₁)).subset hts₀)) hfloor
  have ha : ListAbove b.original_start
      { s₂ with inner := insert_batch s₂.inner b true, pushes := [.Trimming] } := by
    refine ⟨fun p hp => ?_, fun b' hb' => ?_, ?_⟩
    · simp only [insert_batch, if_true, TsoBatchList.insert, List.mem_singleton] at hp
      subst hp
      exact Nat.le_refl _
    · simp [TsoSystem.pending, PushState.batch] at hb'
    · exact Nat.le_trans (original_start_le_excluded_end (TsoBatch.new_eq hb).2)
        (floor_le_run (hlist h₂))
  have habove := above_run hr₃ (hlist h₄) (ha.run (hlist h₃)) (by rw [hidle]; trivial)
  rw [hret] at habove
  exact Nat.lt_of_lt_of_le hbelow (habove.2 ts rfl)

/-- Causal timestamps from the batch list. In every interleaving of pushes, flushes and pops,
each timestamp is handed out once, to the pop whose `fetch_add` took it, from a batch in the
list the pop is reading, and at or above its `after_ts`. Under `BatchTsoProvider`, a pop
that starts once the push of a flush is in returns a timestamp above every one handed out before
the flush was asked for. -/
theorem batch_tso_timestamps_unique_and_causal (capacity floor : Nat) :
    (∀ s s', Relation.ReflTransGen (TsoStep capacity) (TsoSystem.init floor) s →
      TsoStep capacity s s' →
      s'.allocated.Nodup ∧ s.allocated <+: s'.allocated ∧
      ∀ t ts, (s'.pops t).held = some ts → (s.pops t).held ≠ some ts →
        s'.allocated = s.allocated ++ [ts] ∧ ts ∉ s.allocated ∧
        ∃ after_ts key keys batch, s.pops t = .Reading after_ts (key :: keys) ∧
          (key, batch) ∈ s.inner ∧ batch.contains ts ∧ ∀ a, after_ts = some a → a ≤ ts) ∧
    (∀ (s₀ s₁ s₂ s₃ s₄ : TsoSystem) (b : TsoBatch) (batch_size last_ts t ts : Nat),
      Relation.ReflTransGen (ProviderStep capacity) (TsoSystem.init floor) s₀ →
      Relation.ReflTransGen (ProviderStep capacity) s₀ s₁ → s₁.pushes = [] →
      TsoBatch.new batch_size last_ts = some b → s₁.floor ≤ b.original_start →
      Relation.ReflTransGen (ProviderStep capacity)
        { s₁ with pushes := [.Checking b true], floor := b.excluded_end } s₂ →
      .Inserting b true ∈ s₂.pushes → s₂.NoReaders →
      Relation.ReflTransGen (ProviderStep capacity)
        { s₂ with inner := insert_batch s₂.inner b true, pushes := [.Trimming] } s₃ →
      s₃.pops t = .Idle → Relation.ReflTransGen (ProviderStep capacity) s₃ s₄ →
      s₄.pops t = .Returned (some ts) → ∀ ts₀ ∈ s₀.allocated, ts₀ < ts) :=
  ⟨fun _ _ hreach h => hands_out_fresh hreach h,
    fun _ _ _ _ _ _ _ _ _ _ h₀ h₁ hfree hb hfloor h₂ hins hw h₃ hidle h₄ hret =>
      get_ts_after_flush h₀ h₁ hfree hb hfloor h₂ hins hw h₃ hidle h₄ hret⟩

/-- A run of the provider: one timestamp popped from a batch of two, then a flush with a batch
of two above it, then a pop that returns the flush batch's first timestamp, above the earlier
one. -/
theorem batch_tso_flush_run :
    ∃ s₀ s₄ : TsoSystem, Relation.ReflTransGen (ProviderStep 1) (TsoSystem.init 0) s₀ ∧
      s₀.allocated = [0] ∧ Relation.ReflTransGen (ProviderStep 1) s₀ s₄ ∧
      s₄.pops 0 = .Returned (some 4) ∧ ∀ ts₀ ∈ s₀.allocated, ts₀ < 4 := by
  have hb₁ : TsoBatch.new 2 1 = some ⟨0, 0, 2, 0⟩ := rfl
  have hb : TsoBatch.new 2 5 = some ⟨0, 4, 6, 4⟩ := rfl
  have r₀ := (((((((@Relation.ReflTransGen.refl _ (ProviderStep 1) (TsoSystem.init 0)).tail
    (And.intro (TsoStep.handout 2 1 false hb₁ (by decide)) (by decide) : ProviderStep 1 _ _)).tail
    (And.intro (@TsoStep.check 1 _ [] [] _ _ rfl) (by decide) : ProviderStep 1 _ _)).tail
    (And.intro (@TsoStep.insert 1 _ [] [] _ _ rfl fun _ _ _ h => by cases h) (by decide) :
      ProviderStep 1 _ _)).tail
    (And.intro (@TsoStep.trim 1 _ [] [] rfl) (by decide) : ProviderStep 1 _ _)).tail
    (And.intro (@TsoStep.begin_pop 1 _ 0 none rfl) (by decide) : ProviderStep 1 _ _)).tail
    (And.intro (@TsoStep.pop_batch 1 _ 0 none 0 [] rfl) (by decide) : ProviderStep 1 _ _)).tail
    (And.intro (@TsoStep.take 1 _ 0 _ rfl) (by decide) : ProviderStep 1 _ _)
  obtain ⟨s₀, r₀, hs₀⟩ : ∃ s₀, Relation.ReflTransGen (ProviderStep 1) (TsoSystem.init 0) s₀ ∧
      s₀ = _ := ⟨_, r₀, rfl⟩
  have hw : s₀.NoReaders := by
    intro t a keys h
    subst hs₀
    by_cases ht : t = 0
    · subst ht
      cases h
    · simp only [TsoSystem.set_pop, Function.update_of_ne ht,
        TsoSystem.pop_batch_pops_of_ne ht] at h
      cases h
  have hfree : s₀.pushes = [] := by subst hs₀; rfl
  -- the flush: its batch handed out, checked against the list and inserted alone
  have hhand : ProviderStep 1 s₀
      { s₀ with pushes := [.Checking ⟨0, 4, 6, 4⟩ true], floor := TsoBatch.excluded_end ⟨0, 4, 6, 4⟩ } := by
    have h : TsoStep 1 s₀ { s₀ with pushes := .Checking ⟨0, 4, 6, 4⟩ true :: s₀.pushes,
                                    floor := TsoBatch.excluded_end ⟨0, 4, 6, 4⟩ } :=
      TsoStep.handout 2 5 true hb (by subst hs₀; decide)
    rw [hfree] at h
    exact ⟨h, Nat.le_refl 1⟩
  obtain ⟨s₂, h₂, hs₂⟩ : ∃ s₂, Relation.ReflTransGen (ProviderStep 1)
      { s₀ with pushes := [.Checking ⟨0, 4, 6, 4⟩ true], floor := TsoBatch.excluded_end ⟨0, 4, 6, 4⟩ }
      s₂ ∧ s₂ = _ :=
    ⟨_, .single (And.intro (@TsoStep.check 1 _ [] [] _ _ rfl) (by subst hs₀; decide)), rfl⟩
  have hpush : s₂.pushes = [.Inserting ⟨0, 4, 6, 4⟩ true] := by subst hs₂ hs₀; rfl
  have hinsert : ProviderStep 1 s₂
      { s₂ with inner := insert_batch s₂.inner ⟨0, 4, 6, 4⟩ true, pushes := [.Trimming] } :=
    ⟨@TsoStep.insert 1 s₂ [] [] _ true hpush (by subst hs₂; exact hw), Nat.le_refl 1⟩
  -- the pop after the flush
  have h₄ : Relation.ReflTransGen (ProviderStep 1)
      { s₂ with inner := insert_batch s₂.inner ⟨0, 4, 6, 4⟩ true, pushes := [.Trimming] } _ :=
    ((@Relation.ReflTransGen.refl _ (ProviderStep 1)
      { s₂ with inner := insert_batch s₂.inner ⟨0, 4, 6, 4⟩ true, pushes := [.Trimming] }).tail
      (And.intro (@TsoStep.begin_pop 1 _ 0 none (by subst hs₂ hs₀; rfl)) (by exact Nat.le_refl 1) :
        ProviderStep 1 _ _)).tail
      (And.intro (@TsoStep.pop_batch 1 _ 0 none 4 [] rfl)
        (by rw [TsoSystem.pop_batch_pushes]; exact Nat.le_refl 1) : ProviderStep 1 _ _)
  exact ⟨s₀, _, r₀, by subst hs₀; rfl, (((Relation.ReflTransGen.refl.tail hhand).trans h₂).tail
      hinsert).trans h₄, rfl,
    (batch_tso_timestamps_unique_and_causal 1 0).2 s₀ s₀ s₂ _ _ ⟨0, 4, 6, 4⟩ 2 5 0 4 r₀ .refl
      hfree hb (by subst hs₀; decide) h₂ (by rw [hpush]; exact List.mem_singleton_self _)
      (by subst hs₂; exact hw) .refl (by subst hs₂ hs₀; rfl) h₄ rfl⟩

end Provider

end Tikv.CausalTs
