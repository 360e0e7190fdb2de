import Tikv.Lib.AssocList
import Mathlib

/-!
An ordered map as its entries in strictly ascending key order, the order in which an ordered
tree such as a B-tree enumerates them, with the queries a B-tree answers by walking one range
from its back: the entry of the greatest key at most, or below, a bound. On a sorted list that
entry is the last one the bound lets through, and it is characterised by membership and
maximality alone. Half-open intervals over the same order, and when two nonempty ones meet,
close the module.
-/

namespace Tikv.Lib

open Tikv.Lib.AssocList

structure OrdMap (K V : Type*) [LT K] where
  entries : List (K × V)
  sorted : Sorted entries

namespace OrdMap

variable {K V : Type*} [LT K]

def empty : OrdMap K V := ⟨[], List.Pairwise.nil⟩

def insert [LE K] [Std.IsLinearOrder K] [Std.LawfulOrderLT K] [DecidableRel (α := K) (· < ·)]
    [DecidableEq K] (m : OrdMap K V) (k : K) (v : V) : OrdMap K V :=
  ⟨upsert k v (fun _ => v) m.entries, sorted_upsert m.sorted k v _⟩

def retain (m : OrdMap K V) (f : K → V → Bool) : OrdMap K V :=
  ⟨m.entries.filter fun p => f p.1 p.2, m.sorted.sublist List.filter_sublist⟩

def lastLe [LE K] [DecidableRel (α := K) (· ≤ ·)] (m : OrdMap K V) (p : K) : Option (K × V) :=
  (m.entries.filter fun q => decide (q.1 ≤ p)).getLast?

def lastLt [DecidableRel (α := K) (· < ·)] (m : OrdMap K V) (p : K) : Option (K × V) :=
  (m.entries.filter fun q => decide (q.1 < p)).getLast?

@[simp]
theorem mem_retain {m : OrdMap K V} {f : K → V → Bool} {x : K × V} :
    x ∈ (m.retain f).entries ↔ x ∈ m.entries ∧ f x.1 x.2 = true := by
  simp [retain]

section Order

variable [LE K] [Std.LawfulOrderLT K]

theorem eq_of_mem_of_fst_eq {l : List (K × V)} (hs : Sorted l) {x y : K × V} (hx : x ∈ l)
    (hy : y ∈ l) (h : x.1 = y.1) : x = y := by
  induction l with
  | nil => cases hx
  | cons a l ih =>
    have ha : ∀ q ∈ l, a.1 < q.1 := fun q hq => List.rel_of_pairwise_cons hs hq
    rcases List.mem_cons.mp hx with rfl | hxl <;> rcases List.mem_cons.mp hy with rfl | hyl
    · rfl
    · exact absurd (h ▸ ha y hyl) Std.lt_irrefl
    · exact absurd (h ▸ ha x hxl) Std.lt_irrefl
    · exact ih (List.Pairwise.of_cons hs) hxl hyl

variable [Std.IsLinearOrder K]

theorem max_of_getLast?_eq_some {l : List (K × V)} (hs : Sorted l) {x : K × V}
    (h : l.getLast? = some x) : x ∈ l ∧ ∀ y ∈ l, y.1 ≤ x.1 := by
  obtain ⟨ys, rfl⟩ := List.getLast?_eq_some_iff.mp h
  refine ⟨List.mem_append_right _ (List.mem_singleton_self x), fun y hy => ?_⟩
  rcases List.mem_append.mp hy with hy | hy
  · exact Std.le_of_lt ((List.pairwise_append.mp hs).2.2 y hy x (List.mem_singleton_self x))
  · rw [List.mem_singleton.mp hy]
    exact Std.le_refl _

theorem getLast?_eq_some_iff_of_sorted {l : List (K × V)} (hs : Sorted l) {x : K × V} :
    l.getLast? = some x ↔ x ∈ l ∧ ∀ y ∈ l, y.1 ≤ x.1 := by
  refine ⟨max_of_getLast?_eq_some hs, fun ⟨hx, hmax⟩ => ?_⟩
  obtain ⟨z, hz⟩ := Option.isSome_iff_exists.mp
    (List.getLast?_isSome.mpr (List.ne_nil_of_mem hx))
  obtain ⟨hzl, hzmax⟩ := max_of_getLast?_eq_some hs hz
  -- the last entry and x bound each other's keys, so they are one entry
  rw [hz, eq_of_mem_of_fst_eq hs hzl hx (Std.le_antisymm (hmax z hzl) (hzmax x hx))]

theorem lastLe_eq_some_iff [DecidableRel (α := K) (· ≤ ·)] (m : OrdMap K V) (p : K) (x : K × V) :
    m.lastLe p = some x ↔ x ∈ m.entries ∧ x.1 ≤ p ∧ ∀ y ∈ m.entries, y.1 ≤ p → y.1 ≤ x.1 := by
  rw [lastLe, getLast?_eq_some_iff_of_sorted (m.sorted.sublist List.filter_sublist)]
  simp only [List.mem_filter, decide_eq_true_eq, and_imp]
  exact ⟨fun ⟨⟨hx, hxp⟩, h⟩ => ⟨hx, hxp, h⟩, fun ⟨hx, hxp, h⟩ => ⟨⟨hx, hxp⟩, h⟩⟩

theorem lastLt_eq_some_iff [DecidableRel (α := K) (· < ·)] (m : OrdMap K V) (p : K) (x : K × V) :
    m.lastLt p = some x ↔ x ∈ m.entries ∧ x.1 < p ∧ ∀ y ∈ m.entries, y.1 < p → y.1 ≤ x.1 := by
  rw [lastLt, getLast?_eq_some_iff_of_sorted (m.sorted.sublist List.filter_sublist)]
  simp only [List.mem_filter, decide_eq_true_eq, and_imp]
  exact ⟨fun ⟨⟨hx, hxp⟩, h⟩ => ⟨hx, hxp, h⟩, fun ⟨hx, hxp, h⟩ => ⟨⟨hx, hxp⟩, h⟩⟩

omit [LE K] [Std.IsLinearOrder K] [Std.LawfulOrderLT K] in
theorem lastLt_eq_none_iff [DecidableRel (α := K) (· < ·)] (m : OrdMap K V) (p : K) :
    m.lastLt p = none ↔ ∀ y ∈ m.entries, ¬ y.1 < p := by
  simp [lastLt]

theorem mem_insert_of_not_mem [DecidableRel (α := K) (· < ·)] [DecidableEq K] {m : OrdMap K V} {k : K} (hk : ∀ y ∈ m.entries, y.1 ≠ k) (v : V)
    (x : K × V) : x ∈ (m.insert k v).entries ↔ x = (k, v) ∨ x ∈ m.entries := by
  obtain ⟨l, hs⟩ := m
  simp only [insert]
  simp only at hk
  clear hs
  induction l with
  | nil => simp [upsert]
  | cons a l ih =>
    obtain ⟨a, b⟩ := a
    have hka : k ≠ a := fun h => hk (a, b) (List.mem_cons_self ..) h.symm
    simp only [upsert, if_neg hka]
    split
    · simp
    · rw [List.mem_cons, ih fun y hy => hk y (List.mem_cons_of_mem _ hy), List.mem_cons]
      tauto

end Order

end OrdMap

section HalfOpen

variable {K : Type*} [LT K] [LE K]

def halfOpen (a b : K) : Set K := {x | a ≤ x ∧ x < b}

@[simp]
theorem mem_halfOpen {a b x : K} : x ∈ halfOpen a b ↔ a ≤ x ∧ x < b := Iff.rfl

theorem not_disjoint_halfOpen_iff [Std.IsLinearOrder K] [Std.LawfulOrderLT K] {a b c d : K} (hab : a < b) (hcd : c < d) :
    ¬ Disjoint (halfOpen a b) (halfOpen c d) ↔ a < d ∧ c < b := by
  rw [Set.not_disjoint_iff]
  constructor
  · rintro ⟨x, ⟨hax, hxb⟩, ⟨hcx, hxd⟩⟩
    exact ⟨Std.lt_of_le_of_lt hax hxd, Std.lt_of_le_of_lt hcx hxb⟩
  · rintro ⟨had, hcb⟩
    -- the later of the two starts lies in both
    rcases Std.le_total (a := a) (b := c) with hac | hca
    · exact ⟨c, ⟨hac, hcb⟩, ⟨Std.le_refl c, hcd⟩⟩
    · exact ⟨a, ⟨Std.le_refl a, hab⟩, ⟨hca, had⟩⟩

end HalfOpen

end Tikv.Lib
