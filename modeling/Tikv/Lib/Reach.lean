import Tikv.Lib.AssocList
import Mathlib

/-!
Reachability facts for graph searches: a set that holds at the start, is closed under the
edges and misses the goal shows the goal unreachable; adding an edge `a → b` keeps a graph
acyclic when `a` is not reachable from `b`; and a predecessor list in which every vertex names
one added before it walks back to the root.
-/

namespace Tikv.Lib.Reach

open Relation Tikv.Lib.AssocList

variable {α : Type*} {r : α → α → Prop}

theorem reflTransGen_closed {S : α → Prop} (hS : ∀ x y, S x → r x y → S y) {a b : α}
    (ha : S a) (h : ReflTransGen r a b) : S b := by
  induction h with
  | refl => exact ha
  | tail _ hbc ih => exact hS _ _ ih hbc

def addEdge (r : α → α → Prop) (a b : α) : α → α → Prop := fun x y => r x y ∨ (x = a ∧ y = b)

theorem transGen_addEdge {a b x y : α} (h : TransGen (addEdge r a b) x y) :
    TransGen r x y ∨ (ReflTransGen r x a ∧ ReflTransGen r b y) := by
  induction h with
  | single hxy =>
    rcases hxy with hxy | ⟨rfl, rfl⟩
    · exact Or.inl (TransGen.single hxy)
    · exact Or.inr ⟨ReflTransGen.refl, ReflTransGen.refl⟩
  | tail _ hyz ih =>
    rcases hyz with hyz | ⟨rfl, rfl⟩
    · rcases ih with ih | ⟨hxa, hby⟩
      · exact Or.inl (ih.tail hyz)
      · exact Or.inr ⟨hxa, hby.tail hyz⟩
    · rcases ih with ih | ⟨hxa, -⟩
      · exact Or.inr ⟨ih.to_reflTransGen, ReflTransGen.refl⟩
      · exact Or.inr ⟨hxa, ReflTransGen.refl⟩

theorem acyclic_addEdge {a b : α} (hr : ∀ x, ¬ TransGen r x x) (hba : ¬ ReflTransGen r b a) :
    ∀ x, ¬ TransGen (addEdge r a b) x x := by
  intro x h
  rcases transGen_addEdge h with h | ⟨hxa, hbx⟩
  · exact hr x h
  · exact hba (hbx.trans hxa)

/-- A predecessor list grown one vertex at a time: the root comes first, with the marker `z`
for predecessor, and every later vertex is new and names a vertex already there. -/
inductive PredTree (root z : α) : List (α × α) → Prop
  | root : PredTree root z [(root, z)]
  | cons {v u : α} {rest : List (α × α)} : v ∉ keys rest → u ∈ keys rest →
      PredTree root z rest → PredTree root z ((v, u) :: rest)

namespace PredTree

variable {root z : α} {P : List (α × α)}

theorem nodup (h : PredTree root z P) : (keys P).Nodup := by
  induction h with
  | root => simp
  | cons hv _ _ ih => exact List.nodup_cons.mpr ⟨hv, ih⟩

theorem root_mem (h : PredTree root z P) : root ∈ keys P := by
  induction h with
  | root => simp
  | cons _ _ _ ih => exact List.mem_cons_of_mem _ ih

theorem ne_root {v u : α} (h : PredTree root z P) (hm : (v, u) ∈ P) (hv : v ≠ root) :
    u ∈ keys P := by
  induction h with
  | root => simp_all
  | cons _ hu _ ih =>
    rcases List.mem_cons.mp hm with he | hm
    · obtain ⟨rfl, rfl⟩ := Prod.mk.inj he
      exact List.mem_cons_of_mem _ hu
    · exact List.mem_cons_of_mem _ (ih hm)

theorem append_fresh (h : PredTree root z P) {new : List α} (hnd : new.Nodup)
    (hfresh : ∀ v ∈ new, v ∉ keys P) {u : α} (hu : u ∈ keys P) :
    PredTree root z (new.map (fun v => (v, u)) ++ P) := by
  induction new with
  | nil => simpa using h
  | cons v new ih =>
    obtain ⟨hv, hnd⟩ := List.nodup_cons.mp hnd
    refine PredTree.cons ?_ ?_ (ih hnd fun w hw => hfresh w (List.mem_cons_of_mem _ hw))
    · simp only [List.append_eq, keys_append, keys_map_pair, List.mem_append, not_or]
      exact ⟨hv, hfresh v List.mem_cons_self⟩
    · simp [List.append_eq, hu]

end PredTree

end Tikv.Lib.Reach
