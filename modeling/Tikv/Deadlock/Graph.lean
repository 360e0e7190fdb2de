import Tikv.Lib.Reach
import Tikv.Deadlock.DetectTable

/-!
The graph a detect table stores, and what the table operations do to its edges: pruning at a
vertex drops exactly its expired edges, and every other update changes one edge.
-/

namespace Tikv.Deadlock

open Relation Tikv.Lib.AssocList

def Stored (t : DetectTable) (a b : Nat) : Prop := ∃ L, t.edge a b = some L

def Live (t : DetectTable) (a b : Nat) : Prop :=
  ∃ L, t.edge a b = some L ∧ L.is_expired t.now t.ttl = false

def Unexpired (t : DetectTable) (now a b : Nat) : Prop :=
  ∃ L, t.edge a b = some L ∧ now < L.last_detect_time + t.ttl

theorem is_expired_eq_false_iff {L : Locks} {now ttl : Nat} (h : L.last_detect_time ≤ now) :
    L.is_expired now ttl = false ↔ now < L.last_detect_time + ttl := by
  simp only [Locks.is_expired, decide_eq_false_iff_not, Nat.not_le]
  omega

structure MapWF (m : List (Nat × List (Nat × Locks))) : Prop where
  outer : (keys m).Nodup
  inner : ∀ a w, m.lookup a = some w → (keys w).Nodup

theorem edge_eq (t : DetectTable) (a b : Nat) :
    t.edge a b = (t.wait_for_map.lookup a).bind (·.lookup b) := rfl

theorem edge_modify (t : DetectTable) (k : Nat) (f : List (Nat × Locks) → List (Nat × Locks))
    (a b : Nat) :
    ({ t with wait_for_map := modify k f t.wait_for_map } : DetectTable).edge a b =
      if a = k then ((t.wait_for_map.lookup k).map f).bind (·.lookup b) else t.edge a b := by
  rw [edge_eq, lookup_modify]
  split <;> rfl

theorem edge_modify_self {t : DetectTable} {k : Nat} {w : List (Nat × Locks)}
    (hw : t.wait_for_map.lookup k = some w) (f : List (Nat × Locks) → List (Nat × Locks)) (b : Nat) :
    ({ t with wait_for_map := modify k f t.wait_for_map } : DetectTable).edge k b = (f w).lookup b := by
  rw [edge_modify, if_pos rfl, hw]
  rfl

theorem edge_erase (t : DetectTable) (k a b : Nat) :
    ({ t with wait_for_map := erase k t.wait_for_map } : DetectTable).edge a b =
      if a = k then none else t.edge a b := by
  rw [edge_eq, lookup_erase]
  split <;> rfl

theorem edge_insert (t : DetectTable) (k : Nat) (w : List (Nat × Locks)) (a b : Nat) :
    ({ t with wait_for_map := insert k w t.wait_for_map } : DetectTable).edge a b =
      if a = k then w.lookup b else t.edge a b := by
  rw [edge_eq, lookup_insert]
  split <;> rfl

theorem MapWF.modify {m : List (Nat × List (Nat × Locks))} (h : MapWF m) (k : Nat)
    {f : List (Nat × Locks) → List (Nat × Locks)} (hf : ∀ w, (keys w).Nodup → (keys (f w)).Nodup) :
    MapWF (Tikv.Lib.AssocList.modify k f m) where
  outer := by simpa using h.outer
  inner a w hw := by
    rw [lookup_modify] at hw
    split at hw
    · obtain ⟨w0, hw0, rfl⟩ := Option.map_eq_some_iff.mp hw
      exact hf w0 (h.inner _ _ hw0)
    · exact h.inner a w hw

theorem MapWF.erase {m : List (Nat × List (Nat × Locks))} (h : MapWF m) (k : Nat) :
    MapWF (Tikv.Lib.AssocList.erase k m) where
  outer := nodup_filter h.outer
  inner a w hw := by
    rw [lookup_erase] at hw
    split at hw
    · cases hw
    · exact h.inner a w hw

theorem MapWF.insert {m : List (Nat × List (Nat × Locks))} (h : MapWF m) (k : Nat)
    {w : List (Nat × Locks)} (hw : (keys w).Nodup) : MapWF (Tikv.Lib.AssocList.insert k w m) where
  outer := nodup_insert h.outer
  inner a v hv := by
    rw [lookup_insert] at hv
    split at hv
    · cases hv; exact hw
    · exact h.inner a v hv

theorem keys_retain_live (now ttl : Nat) (w : List (Nat × Locks)) (hw : (keys w).Nodup) :
    (keys (retain_live now ttl w)).Nodup :=
  nodup_filter hw

theorem lookup_retain_live {w : List (Nat × Locks)} (hw : (keys w).Nodup) (now ttl b : Nat) :
    (retain_live now ttl w).lookup b = (w.lookup b).filter (fun L => !L.is_expired now ttl) :=
  lookup_filter hw (fun L => !L.is_expired now ttl) b

theorem lookup_eq_none_of_retain_isEmpty {w : List (Nat × Locks)} (hw : (keys w).Nodup)
    {now ttl : Nat} (hnil : (retain_live now ttl w).isEmpty) (b : Nat) :
    (w.lookup b).filter (fun L => !L.is_expired now ttl) = none := by
  rw [← lookup_retain_live hw, List.isEmpty_iff.mp hnil]
  rfl

def Pruned (t t' : DetectTable) (k : Nat) : Prop :=
  t'.now = t.now ∧ t'.ttl = t.ttl ∧ MapWF t'.wait_for_map ∧
    ∀ a b, t'.edge a b = if a = k then (t.edge a b).filter (fun L => !L.is_expired t.now t.ttl)
      else t.edge a b

theorem pruned_modify {t : DetectTable} (hwf : MapWF t.wait_for_map) (k : Nat) :
    Pruned t { t with wait_for_map := modify k (retain_live t.now t.ttl) t.wait_for_map } k := by
  refine ⟨rfl, rfl, hwf.modify k (keys_retain_live _ _), fun a b => ?_⟩
  rw [edge_modify]
  split
  · rename_i hak
    subst hak
    cases hw : t.wait_for_map.lookup a with
    | none => simp [edge_eq, hw]
    | some w => simp [edge_eq, hw, lookup_retain_live (hwf.inner a w hw)]
  · rfl

theorem pruned_erase {t : DetectTable} (hwf : MapWF t.wait_for_map) {k : Nat}
    {w : List (Nat × Locks)} (hw : t.wait_for_map.lookup k = some w)
    (hnil : (retain_live t.now t.ttl w).isEmpty) :
    Pruned t { t with wait_for_map := erase k t.wait_for_map } k := by
  refine ⟨rfl, rfl, hwf.erase k, fun a b => ?_⟩
  rw [edge_erase]
  split
  · rename_i hak
    subst hak
    simp [edge_eq, hw, lookup_eq_none_of_retain_isEmpty (hwf.inner a w hw) hnil b]
  · rfl

theorem pruned_of_lookup_none {t : DetectTable} (hwf : MapWF t.wait_for_map) {k : Nat}
    (hk : t.wait_for_map.lookup k = none) : Pruned t t k := by
  refine ⟨rfl, rfl, hwf, fun a b => ?_⟩
  split
  · rename_i hak
    subst hak
    simp [edge_eq, hk]
  · rfl

theorem Pruned.edge_sub {t t' : DetectTable} {k : Nat} (h : Pruned t t' k) {a b : Nat} {L : Locks}
    (hL : t'.edge a b = some L) : t.edge a b = some L := by
  rw [h.2.2.2] at hL
  split at hL
  · exact (Option.filter_eq_some_iff.mp hL).1
  · exact hL

theorem Pruned.edge_keep {t t' : DetectTable} {k : Nat} (h : Pruned t t' k) {a b : Nat} {L : Locks}
    (hL : t.edge a b = some L) (hlive : L.is_expired t.now t.ttl = false) : t'.edge a b = some L := by
  rw [h.2.2.2]
  split
  · simp [hL, Option.filter, hlive]
  · exact hL

theorem Pruned.edge_live {t t' : DetectTable} {k : Nat} (h : Pruned t t' k) {b : Nat} {L : Locks}
    (hL : t'.edge k b = some L) : L.is_expired t.now t.ttl = false := by
  rw [h.2.2.2, if_pos rfl] at hL
  simpa using (Option.filter_eq_some_iff.mp hL).2

theorem Pruned.edge_ne {t t' : DetectTable} {k : Nat} (h : Pruned t t' k) {a : Nat} (ha : a ≠ k)
    (b : Nat) : t'.edge a b = t.edge a b := by
  rw [h.2.2.2, if_neg ha]

def targets (t : DetectTable) : List Nat := t.wait_for_map.flatMap (fun p => keys p.2)

theorem length_targets (t : DetectTable) : (targets t).length = edgeCount t := by
  simp [targets, edgeCount, keys, List.length_flatMap]

theorem mem_targets_of_edge {t : DetectTable} {a b : Nat} {L : Locks} (h : t.edge a b = some L) :
    b ∈ targets t := by
  rw [edge_eq] at h
  obtain ⟨w, hw, hb⟩ := Option.bind_eq_some_iff.mp h
  exact List.mem_flatMap.mpr ⟨(a, w), mem_of_lookup hw, mem_keys_of_lookup hb⟩

end Tikv.Deadlock
