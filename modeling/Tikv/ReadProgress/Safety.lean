import Tikv.ReadProgress.Core

/-!
What every run of a region's read progress keeps: the pending items increase in index and in
timestamp and are not applied yet; the read state is applied, and its timestamp is zero, the
source's at a merge, or that of an item the leader sent with an index at most the read
state's; and while the progress is not paused the published `safe_ts` is not above the read
state's. What was sent is ghost state.
-/

namespace Tikv.ReadProgress

open Tikv.Lib.SortedList

/-- Ghost state: the items that reached the core past its merge check, and the source
timestamps of the merges. -/
structure History where
  accepted : List ReadState
  merge_sources : List Nat

def History.accept (h : History) (c : RegionReadProgressCore) (item : ReadState) : History :=
  if c.last_merge_index ≤ item.idx then { h with accepted := h.accepted ++ [item] } else h

def History.record (h : History) (p : RegionReadProgress) : Op → History
  | .update_safe_ts apply_index ts _ => h.accept p.core ⟨apply_index, ts⟩
  | .consume_leader_info (some rs) _ => h.accept p.core rs
  | .merge_safe_ts source_safe_ts _ => { h with merge_sources := h.merge_sources ++ [source_safe_ts] }
  | _ => h

inductive Reachable : RegionReadProgress → History → Prop
  | new (applied_index : Nat) (is_witness : Bool) :
      Reachable (RegionReadProgress.new applied_index is_witness) ⟨[], []⟩
  | step {p p' : RegionReadProgress} {h : History} (op : Op) :
      Reachable p h → p.step op = some p' → Reachable p' (h.record p op)

structure History.Le (h h' : History) : Prop where
  accepted : h.accepted ⊆ h'.accepted
  merge_sources : h.merge_sources ⊆ h'.merge_sources

theorem History.le_refl (h : History) : h.Le h := ⟨List.Subset.refl _, List.Subset.refl _⟩

theorem History.le_accept (h : History) (c : RegionReadProgressCore) (item : ReadState) :
    h.Le (h.accept c item) := by
  unfold History.accept
  split
  · exact ⟨List.subset_append_left _ _, List.Subset.refl _⟩
  · exact h.le_refl

def ReadState.Before (a b : ReadState) : Prop := a.idx < b.idx ∧ a.ts < b.ts

def Backed (h : History) (item : ReadState) : Prop := ∃ i ≤ item.idx, ⟨i, item.ts⟩ ∈ h.accepted

def Sourced (h : History) (rs : ReadState) : Prop :=
  rs.ts = 0 ∨ rs.ts ∈ h.merge_sources ∨ Backed h rs

section Inv

variable {h h' : History} {c c' : RegionReadProgressCore} {p p' : RegionReadProgress}
  {r : Option Nat}

theorem Backed.mono {item : ReadState} (hb : Backed h item) (hle : h.Le h') : Backed h' item :=
  let ⟨i, hi, hm⟩ := hb
  ⟨i, hi, hle.accepted hm⟩

theorem Sourced.mono {rs : ReadState} (hs : Sourced h rs) (hle : h.Le h') : Sourced h' rs := by
  rcases hs with h0 | hm | hb
  · exact Or.inl h0
  · exact Or.inr (Or.inl (hle.merge_sources hm))
  · exact Or.inr (Or.inr (hb.mono hle))

theorem backed_accept {idx : Nat} {item : ReadState} (hm : c.last_merge_index ≤ idx)
    (hi : idx ≤ item.idx) : Backed (h.accept c ⟨idx, item.ts⟩) item := by
  refine ⟨idx, hi, ?_⟩
  simp [History.accept, hm]

structure CoreInv (h : History) (c : RegionReadProgressCore) : Prop where
  sorted : c.pending_items.Pairwise ReadState.Before
  pending_gt : ∀ it ∈ c.pending_items, c.applied_index < it.idx
  idx_le : c.read_state.idx ≤ c.applied_index
  sourced : Sourced h c.read_state
  pending_backed : ∀ it ∈ c.pending_items, Backed h it

theorem CoreInv.mono (hc : CoreInv h c) (hle : h.Le h') : CoreInv h' c :=
  ⟨hc.sorted, hc.pending_gt, hc.idx_le, hc.sourced.mono hle,
    fun it hit => (hc.pending_backed it hit).mono hle⟩

theorem CoreInv.with_flags (hc : CoreInv h c) (pause discard : Bool) :
    CoreInv h { c with pause, discard } :=
  ⟨hc.sorted, hc.pending_gt, hc.idx_le, hc.sourced, hc.pending_backed⟩

structure Inv (p : RegionReadProgress) (h : History) : Prop where
  core : CoreInv h p.core
  published : p.core.pause = false → p.safe_ts ≤ p.core.read_state.ts

theorem Inv.mono (hi : Inv p h) (hle : h.Le h') : Inv p h' := ⟨hi.core.mono hle, hi.published⟩

theorem inv_new (applied_index : Nat) (is_witness : Bool) :
    Inv (RegionReadProgress.new applied_index is_witness) ⟨[], []⟩ where
  core := ⟨List.Pairwise.nil, by simp [RegionReadProgress.new, RegionReadProgressCore.new],
    Nat.zero_le _, Or.inl rfl, by simp [RegionReadProgress.new, RegionReadProgressCore.new]⟩
  published _ := Nat.le_refl 0

theorem lt_idx_of_head {l : List ReadState} {a : Nat} (hs : l.Pairwise ReadState.Before)
    (hh : ∀ x, l.head? = some x → a < x.idx) : ∀ it ∈ l, a < it.idx := by
  cases l with
  | nil => simp
  | cons x xs =>
    have hx := hh x rfl
    intro it hit
    rcases List.mem_cons.mp hit with rfl | hm
    · exact hx
    · exact Nat.lt_trans hx (List.rel_of_pairwise_cons hs hm).1

theorem before_of_getLast {l : List ReadState} {item : ReadState} (hs : l.Pairwise ReadState.Before)
    (hlast : ∀ q, l.getLast? = some q → q.ts < item.ts ∧ q.idx < item.idx) :
    ∀ a ∈ l, a.Before item := by
  intro a ha
  obtain ⟨q, hq⟩ := Option.isSome_iff_exists.mp (List.getLast?_isSome.mpr (List.ne_nil_of_mem ha))
  obtain ⟨ys, rfl⟩ := List.getLast?_eq_some_iff.mp hq
  have hql := hlast q hq
  rcases List.mem_append.mp ha with hy | hy
  · have haq := (List.pairwise_append.mp hs).2.2 a hy q (List.mem_singleton_self q)
    exact ⟨Nat.lt_trans haq.1 hql.2, Nat.lt_trans haq.2 hql.1⟩
  · rw [List.mem_singleton.mp hy]
    exact ⟨hql.2, hql.1⟩

theorem CoreInv.update_applied {applied : Nat} (hc : CoreInv h c)
    (hu : c.update_applied applied = some (r, c')) : CoreInv h c' := by
  obtain ⟨hle, rfl, -⟩ := update_applied_eq_some hu
  obtain ⟨pre, hpre, -⟩ := consume_pending_split applied c.read_state c.pending_items
  have hbest : Sourced h (consume_pending applied c.read_state c.pending_items).1 ∧
      (consume_pending applied c.read_state c.pending_items).1.idx ≤ applied := by
    rcases consume_pending_best applied c.read_state c.pending_items with hb | ⟨hm, hidx⟩
    · rw [hb]
      exact ⟨hc.sourced, Nat.le_trans hc.idx_le hle⟩
    · exact ⟨Or.inr (Or.inr (hc.pending_backed _ hm)), hidx⟩
  set rest := (consume_pending applied c.read_state c.pending_items).2
  have hsub : rest.Sublist c.pending_items := hpre ▸ List.sublist_append_right pre rest
  have hsorted : rest.Pairwise ReadState.Before := hc.sorted.sublist hsub
  refine ⟨hsorted, lt_idx_of_head hsorted (consume_pending_rest _ _ _), ?_, ?_,
    fun it hit => hc.pending_backed it (hsub.subset hit)⟩
  · dsimp only
    split
    · exact hbest.2
    · exact Nat.le_trans hc.idx_le hle
  · dsimp only
    split
    · exact hbest.1
    · exact hc.sourced

/-- What a core call reports: the new timestamp when it says it changed, and otherwise a
timestamp not lower than before. -/
structure Reports (c : RegionReadProgressCore) (r : Option Nat) (c' : RegionReadProgressCore) :
    Prop where
  pause_eq : c'.pause = c.pause
  some_eq : ∀ ts, r = some ts → c'.read_state.ts = ts
  none_le : r = none → c.read_state.ts ≤ c'.read_state.ts

theorem update_applied_reports {applied : Nat} (hu : c.update_applied applied = some (r, c')) :
    Reports c r c' ∧ c.read_state.ts ≤ c'.read_state.ts := by
  obtain ⟨-, rfl, rfl⟩ := update_applied_eq_some hu
  by_cases hlt : c.read_state.ts < (consume_pending applied c.read_state c.pending_items).1.ts
  · simp only [hlt, if_true]
    refine ⟨⟨rfl, fun ts hts => ?_, fun hn => nomatch hn⟩, Nat.le_of_lt hlt⟩
    exact Option.some.inj hts
  · simp only [hlt, if_false]
    refine ⟨⟨rfl, fun ts hts => ?_, fun _ => Nat.le_refl _⟩, Nat.le_refl _⟩
    cases hts

theorem published_store_updated (hp : p.core.pause = false → p.safe_ts ≤ p.core.read_state.ts)
    (hr : Reports p.core r c') :
    c'.pause = false → (p.store_updated r c').safe_ts ≤ c'.read_state.ts := by
  obtain ⟨hpause, hsome, hnone⟩ := hr
  intro hc'
  cases r with
  | none => exact Nat.le_trans (hp (hpause ▸ hc')) (hnone rfl)
  | some ts => simp [RegionReadProgress.store_updated, hc', hsome ts rfl]

theorem CoreInv.merge_safe_ts {source_safe_ts merge_index : Nat} (hc : CoreInv h c)
    (hm : c.merge_safe_ts source_safe_ts merge_index = some (r, c')) :
    CoreInv { h with merge_sources := h.merge_sources ++ [source_safe_ts] } c' := by
  obtain ⟨r1, c1, hu, rfl, -⟩ := merge_safe_ts_eq_some hm
  have hle : h.Le { h with merge_sources := h.merge_sources ++ [source_safe_ts] } :=
    ⟨List.Subset.refl _, List.subset_append_left _ _⟩
  have hc1 := (hc.update_applied hu).mono hle
  refine ⟨hc1.sorted, hc1.pending_gt, hc1.idx_le, ?_, hc1.pending_backed⟩
  -- the merge lowers the timestamp to the source's, or keeps it
  rcases Nat.le_total source_safe_ts c1.read_state.ts with hle | hle
  · refine Or.inr (Or.inl ?_)
    simp [Nat.min_eq_left hle]
  · have he : min source_safe_ts c1.read_state.ts = c1.read_state.ts := Nat.min_eq_right hle
    rw [he]
    exact hc1.sourced

theorem merge_safe_ts_reports {source_safe_ts merge_index : Nat}
    (hm : c.merge_safe_ts source_safe_ts merge_index = some (r, c')) : Reports c r c' := by
  obtain ⟨r1, c1, hu, rfl, rfl⟩ := merge_safe_ts_eq_some hm
  obtain ⟨⟨hpause, -, -⟩, hts⟩ := update_applied_reports hu
  refine ⟨hpause, fun ts hr => ?_, fun hr => ?_⟩
  · split at hr
    · exact Option.some.inj hr
    · cases hr
  · split at hr
    · cases hr
    · rename_i heq
      exact Nat.le_trans hts (Nat.le_of_eq (not_not.mp heq).symm)

theorem CoreInv.update_safe_ts (hc : CoreInv h c) (idx ts : Nat) (at_capacity : Bool) :
    CoreInv (h.accept c ⟨idx, ts⟩) (c.update_safe_ts idx ts at_capacity).2 := by
  have hc' := hc.mono (h.le_accept c ⟨idx, ts⟩)
  rcases update_safe_ts_cases (c := c) idx ts at_capacity with
    he | ⟨hm, ha, -, he⟩ | ⟨hm, ha, prev, hl, hts, hidx, he⟩ | ⟨hm, ha, hlast, he⟩ <;> rw [he]
  · exact hc'
  · exact ⟨hc'.sorted, hc'.pending_gt, ha, Or.inr (Or.inr (backed_accept hm (Nat.le_refl _))),
      hc'.pending_backed⟩
  · -- the last pending item takes the newer timestamp
    have hsplit := List.dropLast_append_getLast? prev hl
    have hprev : prev ∈ c.pending_items := List.mem_of_getLast? hl
    have hdrop : ∀ a ∈ c.pending_items.dropLast, a ∈ c.pending_items :=
      fun a ha => hsplit ▸ List.mem_append_left _ ha
    have hs := hc'.sorted
    rw [← hsplit, List.pairwise_append] at hs
    refine ⟨List.pairwise_append.mpr ⟨hs.1, List.pairwise_singleton _ _, ?_⟩, ?_, hc'.idx_le,
      hc'.sourced, ?_⟩
    · intro a ha b hb
      rw [List.mem_singleton.mp hb]
      have hap := hs.2.2 a ha prev (List.mem_singleton_self prev)
      exact ⟨hap.1, Nat.lt_trans hap.2 hts⟩
    · intro it hit
      rcases List.mem_append.mp hit with hit | hit
      · exact hc'.pending_gt it (hdrop it hit)
      · rw [List.mem_singleton.mp hit]
        exact hc'.pending_gt prev hprev
    · intro it hit
      rcases List.mem_append.mp hit with hit | hit
      · exact hc'.pending_backed it (hdrop it hit)
      · rw [List.mem_singleton.mp hit]
        exact backed_accept hm hidx
  · -- the item is pushed, after the queue is thinned if it is at capacity
    have hthin : (if at_capacity then everyOther c.pending_items else c.pending_items).Sublist
        c.pending_items := by
      cases at_capacity
      · exact List.Sublist.refl _
      · exact everyOther_sublist _
    have hafter : ∀ a ∈ c.pending_items, a.Before ⟨idx, ts⟩ := before_of_getLast hc'.sorted hlast
    refine ⟨List.pairwise_append.mpr ⟨hc'.sorted.sublist hthin, List.pairwise_singleton _ _, ?_⟩,
      ?_, hc'.idx_le, hc'.sourced, ?_⟩
    · intro a ha b hb
      rw [List.mem_singleton.mp hb]
      exact hafter a (hthin.subset ha)
    · intro it hit
      rcases List.mem_append.mp hit with hit | hit
      · exact hc'.pending_gt it (hthin.subset hit)
      · rw [List.mem_singleton.mp hit]
        exact ha
    · intro it hit
      rcases List.mem_append.mp hit with hit | hit
      · exact hc'.pending_backed it (hthin.subset hit)
      · rw [List.mem_singleton.mp hit]
        exact backed_accept hm (Nat.le_refl _)

theorem update_safe_ts_reports (idx ts : Nat) (at_capacity : Bool) :
    Reports c (c.update_safe_ts idx ts at_capacity).1 (c.update_safe_ts idx ts at_capacity).2 ∧
      c.read_state.ts ≤ (c.update_safe_ts idx ts at_capacity).2.read_state.ts := by
  rcases update_safe_ts_cases (c := c) idx ts at_capacity with
    he | ⟨-, -, hts, he⟩ | ⟨-, -, _, -, -, -, he⟩ | ⟨-, -, -, he⟩ <;> rw [he]
  · exact ⟨⟨rfl, fun _ hr => (by cases hr), fun _ => Nat.le_refl _⟩, Nat.le_refl _⟩
  · exact ⟨⟨rfl, fun _ hr => Option.some.inj hr, fun hr => (by cases hr)⟩, Nat.le_of_lt hts⟩
  · exact ⟨⟨rfl, fun _ hr => (by cases hr), fun _ => Nat.le_refl _⟩, Nat.le_refl _⟩
  · exact ⟨⟨rfl, fun _ hr => (by cases hr), fun _ => Nat.le_refl _⟩, Nat.le_refl _⟩

theorem Inv.store_update_safe_ts (hi : Inv p h) (idx ts : Nat) (at_capacity : Bool) :
    Inv (p.store_updated (p.core.update_safe_ts idx ts at_capacity).1
      (p.core.update_safe_ts idx ts at_capacity).2) (h.accept p.core ⟨idx, ts⟩) :=
  ⟨hi.core.update_safe_ts idx ts at_capacity,
    published_store_updated hi.published (update_safe_ts_reports idx ts at_capacity).1⟩

theorem Inv.step {op : Op} (hi : Inv p h) (hs : p.step op = some p') : Inv p' (h.record p op) := by
  cases op with
  | update_applied applied =>
    obtain ⟨⟨r, c'⟩, hu, rfl⟩ := Option.map_eq_some_iff.mp hs
    exact ⟨hi.core.update_applied hu, published_store_updated hi.published (update_applied_reports hu).1⟩
  | update_safe_ts apply_index ts at_capacity =>
    cases hs
    unfold RegionReadProgress.update_safe_ts_with_time
    split
    · exact hi.mono (h.le_accept _ _)
    · split
      · exact hi.mono (h.le_accept _ _)
      · exact hi.store_update_safe_ts apply_index ts at_capacity
  | consume_leader_info read_state at_capacity =>
    cases hs
    cases read_state with
    | none => exact hi
    | some rs =>
      simp only [RegionReadProgress.consume_leader_info]
      split
      · exact hi.store_update_safe_ts rs.idx rs.ts at_capacity
      · exact hi.mono (h.le_accept _ _)
  | merge_safe_ts source_safe_ts merge_index =>
    obtain ⟨⟨r, c'⟩, hm, rfl⟩ := Option.map_eq_some_iff.mp hs
    exact ⟨hi.core.merge_safe_ts hm, published_store_updated hi.published (merge_safe_ts_reports hm)⟩
  | pause =>
    cases hs
    exact ⟨hi.core.with_flags true p.core.discard, fun hp => nomatch hp⟩
  | discard =>
    cases hs
    exact ⟨hi.core.with_flags true true, fun hp => nomatch hp⟩
  | resume =>
    cases hs
    exact ⟨hi.core.with_flags false false, fun _ => Nat.le_refl _⟩

theorem step_read_ts_le {op : Op} (hop : op.is_merge = false) (hs : p.step op = some p') :
    p.core.read_state.ts ≤ p'.core.read_state.ts := by
  cases op with
  | update_applied applied =>
    obtain ⟨⟨r, c'⟩, hu, rfl⟩ := Option.map_eq_some_iff.mp hs
    exact (update_applied_reports hu).2
  | update_safe_ts apply_index ts at_capacity =>
    cases hs
    unfold RegionReadProgress.update_safe_ts_with_time
    split
    · exact Nat.le_refl _
    · split
      · exact Nat.le_refl _
      · exact (update_safe_ts_reports apply_index ts at_capacity).2
  | consume_leader_info read_state at_capacity =>
    cases hs
    cases read_state with
    | none => exact Nat.le_refl _
    | some rs =>
      simp only [RegionReadProgress.consume_leader_info]
      split
      · exact (update_safe_ts_reports rs.idx rs.ts at_capacity).2
      · exact Nat.le_refl _
  | merge_safe_ts => cases hop
  | pause => cases hs; exact Nat.le_refl _
  | discard => cases hs; exact Nat.le_refl _
  | resume => cases hs; exact Nat.le_refl _

theorem inv_reachable (hr : Reachable p h) : Inv p h := by
  induction hr with
  | new applied_index is_witness => exact inv_new applied_index is_witness
  | step op _ hs ih => exact ih.step hs

end Inv

theorem read_progress_sound {p : RegionReadProgress} {h : History} (hr : Reachable p h) :
    Inv p h ∧ ∀ op p', op.is_merge = false → p.step op = some p' →
      p.core.read_state.ts ≤ p'.core.read_state.ts :=
  ⟨inv_reachable hr, fun _ _ hop hs => step_read_ts_le hop hs⟩

/-- `merge_safe_ts` drops what its own `update_applied` reports: the item `(5, 10)` becomes the
read state during the merge, the source's larger timestamp leaves it as it is, and the merge
publishes nothing, so `safe_ts` stays 0 on a progress that is not paused. -/
theorem merge_keeps_stale_safe_ts :
    let p : RegionReadProgress := ⟨⟨5, ⟨5, 10⟩, [], 5, false, false⟩, 0⟩
    let h : History := ⟨[⟨5, 10⟩], [100]⟩
    Reachable p h ∧ p.core.pause = false ∧ p.safe_ts ≠ p.core.read_state.ts := by
  intro p h
  have hr : Reachable p h :=
    .step (.merge_safe_ts 100 5) (.step (.update_safe_ts 5 10 false) (.new 3 false) rfl) rfl
  exact ⟨hr, rfl, by decide⟩

end Tikv.ReadProgress
