import Tikv.Deadlock.Search
import Tikv.Deadlock.Updates

/-!
`detect` over every run of the detect table: it reports a deadlock exactly when the edges not
expired at the call's time lead from the lock's transaction back to the waiter, the chain it
reports is such a path, and otherwise it records the edge; the stored graph, hence the graph
of unexpired edges, never has a cycle. Timestamp zero is the search's mark for "no
predecessor", so the lock timestamps must not be zero.
-/

namespace Tikv.Deadlock

open Relation Tikv.Lib.AssocList Tikv.Lib.Reach

structure Shrinks (t t' : DetectTable) (now : Nat) : Prop where
  sub : ∀ a b L, t'.edge a b = some L → t.edge a b = some L
  keep : ∀ a b L, t.edge a b = some L → L.is_expired now t.ttl = false → t'.edge a b = some L

theorem Shrinks.trans {t t' t'' : DetectTable} {now : Nat} (h : Shrinks t t' now)
    (h' : Shrinks t' t'' now) (httl : t'.ttl = t.ttl) : Shrinks t t'' now where
  sub a b L hL := h.sub a b L (h'.sub a b L hL)
  keep a b L hL hlive := h'.keep a b L (h.keep a b L hL hlive) (httl ▸ hlive)

theorem Shrinks.live_iff {t t' : DetectTable} {now : Nat} (hs : Inv t) (hnow : t.now ≤ now)
    (h : Shrinks t t' now) (hnow' : t'.now = now) (httl : t'.ttl = t.ttl) (a b : Nat) :
    Live t' a b ↔ Unexpired t now a b := by
  constructor
  · rintro ⟨L, hL, hlive⟩
    have hL0 := h.sub a b L hL
    rw [hnow', httl] at hlive
    exact ⟨L, hL0, (is_expired_eq_false_iff (Nat.le_trans (hs.last_le a b L hL0) hnow)).mp hlive⟩
  · rintro ⟨L, hL, hlt⟩
    have hlive := (is_expired_eq_false_iff (Nat.le_trans (hs.last_le a b L hL) hnow)).mpr hlt
    refine ⟨L, h.keep a b L hL hlive, ?_⟩
    rw [hnow', httl]
    exact hlive

theorem Shrinks.transGen_iff {t t' : DetectTable} {now : Nat} (hs : Inv t) (hnow : t.now ≤ now)
    (h : Shrinks t t' now) (hnow' : t'.now = now) (httl : t'.ttl = t.ttl) (a b : Nat) :
    TransGen (Live t') a b ↔ TransGen (Unexpired t now) a b :=
  ⟨TransGen.mono (fun x y => (h.live_iff hs hnow hnow' httl x y).mp) a b,
    TransGen.mono (fun x y => (h.live_iff hs hnow hnow' httl x y).mpr) a b⟩

theorem live_stored {t : DetectTable} {a b : Nat} (h : Live t a b) : Stored t a b :=
  let ⟨L, hL, _⟩ := h
  ⟨L, hL⟩

theorem Shrinks.keep_unexpired {t t' : DetectTable} {now : Nat} (hs : Inv t) (hnow : t.now ≤ now)
    (h : Shrinks t t' now) {a b : Nat} {L : Locks} (hL : t.edge a b = some L)
    (hlt : now < L.last_detect_time + t.ttl) : t'.edge a b = some L :=
  h.keep a b L hL ((is_expired_eq_false_iff (Nat.le_trans (hs.last_le a b L hL) hnow)).mpr hlt)

def WaitChain (t : DetectTable) (a b : Nat) (chain : List WaitForEntry) : Prop :=
  chain.head?.map (·.txn) = some a ∧ chain.getLast?.map (·.wait_for_txn) = some b ∧
    chain.IsChain (fun e f => e.wait_for_txn = f.txn) ∧
    ∀ e ∈ chain, ∃ L, t.edge e.txn e.wait_for_txn = some L ∧ e.key_hash ∈ L.keys.map Prod.fst

theorem IsChain.getLast? {t : DetectTable} {a b : Nat} {chain : List WaitForEntry}
    (h : IsChain t a b chain) (hne : chain ≠ []) :
    chain.getLast?.map (·.wait_for_txn) = some b := by
  induction chain generalizing a with
  | nil => exact absurd rfl hne
  | cons e es ih =>
    cases es with
    | nil =>
      have hb : e.wait_for_txn = b := h.2.2
      simp [hb]
    | cons f fs => simpa using ih h.2.2 (List.cons_ne_nil f fs)

theorem IsChain.links {t : DetectTable} {a b : Nat} {chain : List WaitForEntry}
    (h : IsChain t a b chain) : chain.IsChain (fun e f => e.wait_for_txn = f.txn) := by
  induction chain generalizing a with
  | nil => exact List.IsChain.nil
  | cons e es ih =>
    cases es with
    | nil => exact List.IsChain.singleton e
    | cons f fs => exact List.IsChain.cons_cons h.2.2.1.symm (ih h.2.2)

theorem IsChain.entries {t : DetectTable} {a b : Nat} {chain : List WaitForEntry}
    (h : IsChain t a b chain) :
    ∀ e ∈ chain, ∃ L, t.edge e.txn e.wait_for_txn = some L ∧ e.key_hash ∈ L.keys.map Prod.fst := by
  induction chain generalizing a with
  | nil => simp
  | cons e es ih =>
    intro f hf
    rcases List.mem_cons.mp hf with rfl | hf
    · obtain ⟨-, ⟨L, hL, -, rfl⟩, -⟩ := h
      exact ⟨L, hL, List.mem_map_of_mem (List.head_mem _)⟩
    · exact ih h.2.2 f hf

theorem IsChain.waitChain {t : DetectTable} {a b : Nat} {chain : List WaitForEntry}
    (h : IsChain t a b chain) (hab : a ≠ b) : WaitChain t a b chain := by
  cases chain with
  | nil => exact absurd h hab
  | cons e es => exact ⟨by simpa using h.1, h.getLast? (List.cons_ne_nil e es), h.links, h.entries⟩

structure DetectSpec (t : DetectTable) (now txn_ts lock_ts lock_hash : Nat)
    (r : Option (Nat × List WaitForEntry)) (t' : DetectTable) : Prop where
  found_iff : r.isSome ↔ TransGen (Unexpired t now) lock_ts txn_ts
  kept : ∀ a b L, t.edge a b = some L → now < L.last_detect_time + t.ttl →
    (r.isSome ∨ a ≠ txn_ts ∨ b ≠ lock_ts) → t'.edge a b = some L
  no_new : ∀ a b L, t'.edge a b = some L → (r.isSome ∨ a ≠ txn_ts ∨ b ≠ lock_ts) →
    t.edge a b = some L
  registered : r = none → ∃ L, t'.edge txn_ts lock_ts = some L ∧ L.ts = lock_ts ∧
    L.last_detect_time = now ∧ lock_hash ∈ L.keys.map Prod.fst
  chain : ∀ hash chain, r = some (hash, chain) → WaitChain t' lock_ts txn_ts chain

section Detect

variable {t t2 t3 : DetectTable} {now txn_ts lock_ts lock_hash : Nat} {key tag : List UInt8}

theorem inv_prepared (hs : Inv t) (hnow : t.now ≤ now) :
    Inv ({ t with now } : DetectTable).active_expire ∧
      Shrinks t ({ t with now } : DetectTable).active_expire now ∧
      ({ t with now } : DetectTable).active_expire.now = now ∧
      ({ t with now } : DetectTable).active_expire.ttl = t.ttl := by
  have hwf1 : MapWF ({ t with now } : DetectTable).wait_for_map := hs.wf
  obtain ⟨hnow2, httl2⟩ := active_expire_fields ({ t with now } : DetectTable)
  have hsub : ∀ a b L, ({ t with now } : DetectTable).active_expire.edge a b = some L →
      t.edge a b = some L := by
    intro a b L hL
    rw [edge_active_expire hwf1] at hL
    split at hL
    · exact (Option.filter_eq_some_iff.mp hL).1
    · exact hL
  refine ⟨hs.of_sub hwf1.active_expire (by rw [hnow2]; exact hnow) hsub, ⟨hsub, ?_⟩, hnow2, httl2⟩
  intro a b L hL hlive
  rw [edge_active_expire hwf1]
  split
  · simp [edge_eq] at hL ⊢
    simp [hL, hlive]
  · exact hL

theorem refresh_spec (hs : Inv t) (hnow : t.now ≤ now) (hs2 : Inv t2) (hf2 : Shrinks t t2 now)
    (hnow2 : t2.now = now) (httl2 : t2.ttl = t.ttl)
    (hreg : t2.register_if_existed txn_ts lock_ts lock_hash key tag = some t3) :
    DetectSpec t now txn_ts lock_ts lock_hash none t3 ∧ Inv t3 := by
  have hedge := edge_register_if_existed hreg
  obtain ⟨L0, hL0⟩ := register_if_existed_edge hreg
  have hnow3 : t3.now = t2.now := by
    unfold DetectTable.register_if_existed at hreg
    split at hreg
    · cases hreg; rfl
    · cases hreg
  refine ⟨⟨?_, fun a b L hL hlt hor => ?_, fun a b L hL hor => ?_, fun _ => ?_, by simp⟩, ?_⟩
  · simp only [Option.isSome_none, Bool.false_eq_true, false_iff]
    intro hpath
    have hl := (hf2.transGen_iff hs hnow hnow2 httl2 _ _).mpr hpath
    exact hs2.acyclic txn_ts (TransGen.head ⟨L0, hL0⟩ (TransGen.mono (fun _ _ => live_stored) _ _ hl))
  · have hne : ¬ (a = txn_ts ∧ b = lock_ts) := by simp at hor; omega
    rw [hedge, if_neg hne]
    exact hf2.keep_unexpired hs hnow hL hlt
  · have hne : ¬ (a = txn_ts ∧ b = lock_ts) := by simp at hor; omega
    rw [hedge, if_neg hne] at hL
    exact hf2.sub a b L hL
  · refine ⟨{ L0.push lock_hash key t2.now with resource_group_tag := tag },
      by rw [hedge, if_pos ⟨rfl, rfl⟩, hL0]; rfl, hs2.ts_eq txn_ts lock_ts L0 hL0, hnow2,
      Locks.mem_push L0 lock_hash key t2.now⟩
  · apply hs2.of_edges (hs2.wf.register_if_existed hreg)
    intro a b L' hL'
    rw [hedge] at hL'
    split at hL'
    · rename_i hab
      obtain ⟨rfl, rfl⟩ := hab
      rw [hL0] at hL'
      cases hL'
      exact ⟨L0, hL0, rfl, by simp [Locks.push, hnow3]⟩
    · exact ⟨L', hL', rfl, hnow3 ▸ hs2.last_le a b L' hL'⟩

theorem SearchOut.shrinks {r : Option (Nat × List WaitForEntry)} (hf2 : Shrinks t t2 now)
    (hnow2 : t2.now = now) (httl2 : t2.ttl = t.ttl) (hout : SearchOut t2 txn_ts lock_ts r t3) :
    Shrinks t t3 now := by
  apply hf2.trans _ httl2
  refine ⟨hout.sub, fun a b L hL hlive => hout.keep a b L hL ?_⟩
  rw [hnow2]
  exact hlive

theorem edge_none_of_sub {t t' : DetectTable} {a b : Nat}
    (hsub : ∀ a b L, t'.edge a b = some L → t.edge a b = some L) (hn : t.edge a b = none) :
    t'.edge a b = none := by
  cases h : t'.edge a b with
  | none => rfl
  | some L => rw [hsub a b L h] at hn; cases hn

theorem found_spec (hs : Inv t) (hnow : t.now ≤ now) (hs2 : Inv t2) (hf2 : Shrinks t t2 now)
    (hnow2 : t2.now = now) (httl2 : t2.ttl = t.ttl) (hne : txn_ts ≠ lock_ts)
    {r : Nat × List WaitForEntry} (hout : SearchOut t2 txn_ts lock_ts (some r) t3) :
    DetectSpec t now txn_ts lock_ts lock_hash (some r) t3 ∧ Inv t3 := by
  have hf3 := hout.shrinks hf2 hnow2 httl2
  have hnow3 : t3.now = now := hout.now_eq.trans hnow2
  have httl3 : t3.ttl = t.ttl := hout.ttl_eq.trans httl2
  have hch := hout.chain r.1 r.2 rfl
  refine ⟨⟨?_, fun a b L hL hlt _ => hf3.keep_unexpired hs hnow hL hlt,
    fun a b L hL _ => hf3.sub a b L hL, (fun h => nomatch h), ?_⟩, ?_⟩
  · simp only [Option.isSome_some, true_iff]
    rcases reflTransGen_iff_eq_or_transGen.mp hch.reflTransGen with h | h
    · exact absurd h hne
    · exact (hf3.transGen_iff hs hnow hnow3 httl3 _ _).mp h
  · intro hash chain hr
    cases hr
    exact hch.waitChain (Ne.symm hne)
  · exact hs2.of_sub hout.wf (Nat.le_of_eq hout.now_eq.symm) hout.sub

theorem register_spec {t4 : DetectTable} (hs : Inv t) (hnow : t.now ≤ now) (hs2 : Inv t2)
    (hf2 : Shrinks t t2 now) (hnow2 : t2.now = now) (httl2 : t2.ttl = t.ttl) (hlock : lock_ts ≠ 0)
    (hn2 : t2.edge txn_ts lock_ts = none) (hout : SearchOut t2 txn_ts lock_ts none t3)
    (hreg : t3.register txn_ts lock_ts lock_hash key tag = some t4) :
    DetectSpec t now txn_ts lock_ts lock_hash none t4 ∧ Inv t4 := by
  have hf3 := hout.shrinks hf2 hnow2 httl2
  have hnow3 : t3.now = now := hout.now_eq.trans hnow2
  have httl3 : t3.ttl = t.ttl := hout.ttl_eq.trans httl2
  have hs3 : Inv t3 := hs2.of_sub hout.wf (Nat.le_of_eq hout.now_eq.symm) hout.sub
  have hn3 := edge_none_of_sub hout.sub hn2
  rw [register_eq_some hn3, Option.some.injEq] at hreg
  subst hreg
  have hedge := @edge_register t3 txn_ts lock_ts lock_hash key tag hn3
  have hne : ∀ a b, ((none : Option (Nat × List WaitForEntry)).isSome ∨ a ≠ txn_ts ∨
      b ≠ lock_ts) → ¬ (a = txn_ts ∧ b = lock_ts) := by
    intro a b hor
    simp at hor
    omega
  refine ⟨⟨?_, fun a b L hL hlt hor => ?_, fun a b L hL hor => ?_, fun _ => ?_, by simp⟩, ?_⟩
  · simp only [Option.isSome_none, Bool.false_eq_true, false_iff]
    intro hpath
    have hl := (hf3.transGen_iff hs hnow hnow3 httl3 _ _).mpr hpath
    exact hout.unreachable rfl (TransGen.mono (fun _ _ => live_stored) _ _ hl).to_reflTransGen
  · rw [hedge, if_neg (hne a b hor)]
    exact hf3.keep_unexpired hs hnow hL hlt
  · rw [hedge, if_neg (hne a b hor)] at hL
    exact hf3.sub a b L hL
  · refine ⟨Locks.new lock_ts lock_hash key tag t3.now, ?_, rfl, hnow3, by simp [Locks.new]⟩
    rw [hedge, if_pos ⟨rfl, rfl⟩]
  · -- the one new edge `txn_ts → lock_ts`: a cycle through it is a stored path back
    refine ⟨hout.wf.register hn3, fun a b L hL => ?_, fun a b L hL => ?_, fun a b L hL => ?_, ?_⟩
    · rw [hedge] at hL
      split at hL
      · rename_i hab
        cases hL
        exact hab.2.symm
      · exact hs3.ts_eq a b L hL
    · rw [hedge] at hL
      split at hL
      · rename_i hab
        rw [hab.2]
        exact hlock
      · exact hs3.target_ne_zero a b L hL
    · rw [hedge] at hL
      split at hL
      · cases hL
        exact Nat.le_refl _
      · exact hs3.last_le a b L hL
    · intro a hc
      apply acyclic_addEdge hs3.acyclic (hout.unreachable rfl) a
      apply TransGen.mono _ _ _ hc
      rintro x y ⟨L, hL⟩
      rw [hedge] at hL
      split at hL
      · exact Or.inr ‹_›
      · exact Or.inl ⟨L, hL⟩

theorem detect_spec (hs : Inv t) (hnow : t.now ≤ now) (hne : txn_ts ≠ lock_ts)
    (hlock : lock_ts ≠ 0) :
    ∃ r t', t.detect now txn_ts lock_ts lock_hash key tag = some (r, t') ∧
      DetectSpec t now txn_ts lock_ts lock_hash r t' ∧ Inv t' := by
  obtain ⟨hs2, hf2, hnow2, httl2⟩ := inv_prepared hs hnow
  dsimp only [DetectTable.detect]
  generalize ({ t with now } : DetectTable).active_expire = t2 at hs2 hf2 hnow2 httl2 ⊢
  -- the three ways out of the source's `detect`
  split
  · rename_i t3 hreg
    exact ⟨none, t3, rfl, refresh_spec hs hnow hs2 hf2 hnow2 httl2 hreg⟩
  · rename_i hreg
    have hn2 := register_if_existed_eq_none hreg
    obtain ⟨r, t3, hdet, hout⟩ := do_detect_spec hs2.wf hs2.ts_eq hs2.target_ne_zero hlock hne
    rw [hdet]
    cases r with
    | some r => exact ⟨some r, t3, rfl, found_spec hs hnow hs2 hf2 hnow2 httl2 hne hout⟩
    | none =>
      obtain ⟨t4, hreg4⟩ := Option.isSome_iff_exists.mp
        (by rw [register_eq_some (edge_none_of_sub hout.sub hn2)]; rfl :
          (t3.register txn_ts lock_ts lock_hash key tag).isSome)
      refine ⟨none, t4, by simp [hreg4], ?_⟩
      exact register_spec hs hnow hs2 hf2 hnow2 httl2 hlock hn2 hout hreg4

end Detect

end Tikv.Deadlock
