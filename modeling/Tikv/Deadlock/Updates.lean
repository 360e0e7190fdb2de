import Tikv.Deadlock.Graph

/-!
What every update of the detect table does to its edges, and the invariant of the tables of a
run: distinct map keys, every edge stored under the timestamp of its locks with a non-zero end
and a detection time not after the table's clock, and no cycle among the stored edges.
-/

namespace Tikv.Deadlock

open Relation Tikv.Lib.AssocList Tikv.Lib.Reach

structure Inv (t : DetectTable) : Prop where
  wf : MapWF t.wait_for_map
  ts_eq : ∀ a b L, t.edge a b = some L → L.ts = b
  target_ne_zero : ∀ a b L, t.edge a b = some L → b ≠ 0
  last_le : ∀ a b L, t.edge a b = some L → L.last_detect_time ≤ t.now
  acyclic : ∀ a, ¬ TransGen (Stored t) a a

theorem inv_new (ttl now : Nat) : Inv (DetectTable.new ttl now) where
  wf := ⟨by simp [DetectTable.new], by simp [DetectTable.new]⟩
  ts_eq a b L h := by simp [DetectTable.new, edge_eq] at h
  target_ne_zero a b L h := by simp [DetectTable.new, edge_eq] at h
  last_le a b L h := by simp [DetectTable.new, edge_eq] at h
  acyclic a h := by
    have hno : ∀ x y, ¬ Stored (DetectTable.new ttl now) x y := fun x y ⟨L, hL⟩ => by
      simp [DetectTable.new, edge_eq] at hL
    cases h with
    | single hab => exact hno _ _ hab
    | tail _ hbc => exact hno _ _ hbc

theorem Inv.of_edges {t t' : DetectTable} (hs : Inv t) (hwf : MapWF t'.wait_for_map)
    (h : ∀ a b L', t'.edge a b = some L' →
      ∃ L, t.edge a b = some L ∧ L'.ts = L.ts ∧ L'.last_detect_time ≤ t'.now) :
    Inv t' where
  wf := hwf
  ts_eq a b L' hL' := by
    obtain ⟨L, hL, hts, -⟩ := h a b L' hL'
    rw [hts]
    exact hs.ts_eq a b L hL
  target_ne_zero a b L' hL' := by
    obtain ⟨L, hL, -⟩ := h a b L' hL'
    exact hs.target_ne_zero a b L hL
  last_le a b L' hL' := by
    obtain ⟨L, -, -, hlast⟩ := h a b L' hL'
    exact hlast
  acyclic a hc := hs.acyclic a (TransGen.mono (fun x y ⟨L', hL'⟩ => by
    obtain ⟨L, hL, -⟩ := h x y L' hL'
    exact ⟨L, hL⟩) _ _ hc)

theorem Inv.of_sub {t t' : DetectTable} (hs : Inv t) (hwf : MapWF t'.wait_for_map)
    (hnow : t.now ≤ t'.now) (h : ∀ a b L, t'.edge a b = some L → t.edge a b = some L) : Inv t' :=
  hs.of_edges hwf fun a b L hL =>
    ⟨L, h a b L hL, rfl, Nat.le_trans (hs.last_le a b L (h a b L hL)) hnow⟩

theorem edge_active_expire {t : DetectTable} (hwf : MapWF t.wait_for_map) (a b : Nat) :
    t.active_expire.edge a b =
      if ACTIVE_EXPIRE_THRESHOLD ≤ t.wait_for_map.length ∧
          ACTIVE_EXPIRE_INTERVAL ≤ t.now - t.last_active_expire then
        (t.edge a b).filter (fun L => !L.is_expired t.now t.ttl)
      else t.edge a b := by
  unfold DetectTable.active_expire
  split
  · have hkeys : (keys (t.wait_for_map.map fun p => (p.1, retain_live t.now t.ttl p.2))).Nodup := by
      simpa using hwf.outer
    rw [edge_eq, lookup_filter hkeys (fun w => !w.isEmpty), lookup_map_snd]
    cases hw : t.wait_for_map.lookup a with
    | none => simp [edge_eq, hw]
    | some w =>
      by_cases hnil : (retain_live t.now t.ttl w).isEmpty
      · have hn : (t.edge a b).filter (fun L => !L.is_expired t.now t.ttl) = none := by
          simpa [edge_eq, hw] using lookup_eq_none_of_retain_isEmpty (hwf.inner a w hw) hnil b
        rw [hn]
        simp [List.isEmpty_iff.mp hnil]
      · simp [edge_eq, hw, Option.filter, hnil, lookup_retain_live (hwf.inner a w hw)]
  · rfl

theorem active_expire_fields (t : DetectTable) :
    t.active_expire.now = t.now ∧ t.active_expire.ttl = t.ttl := by
  unfold DetectTable.active_expire
  split <;> exact ⟨rfl, rfl⟩

theorem MapWF.active_expire {t : DetectTable} (hwf : MapWF t.wait_for_map) :
    MapWF t.active_expire.wait_for_map := by
  unfold DetectTable.active_expire
  split
  · have hkeys : (keys (t.wait_for_map.map fun p => (p.1, retain_live t.now t.ttl p.2))).Nodup := by
      simpa using hwf.outer
    refine ⟨nodup_filter hkeys, fun a w hw => ?_⟩
    rw [lookup_filter hkeys (fun w => !w.isEmpty), lookup_map_snd] at hw
    obtain ⟨w0, hw0, rfl⟩ := Option.map_eq_some_iff.mp (Option.filter_eq_some_iff.mp hw).1
    exact keys_retain_live _ _ w0 (hwf.inner a w0 hw0)
  · exact hwf

theorem edge_register_if_existed {t t' : DetectTable} {txn_ts lock_ts lock_hash : Nat}
    {key tag : List UInt8} (h : t.register_if_existed txn_ts lock_ts lock_hash key tag = some t')
    (a b : Nat) :
    t'.edge a b = if a = txn_ts ∧ b = lock_ts then
      (t.edge a b).map (fun L => { L.push lock_hash key t.now with resource_group_tag := tag })
      else t.edge a b := by
  unfold DetectTable.register_if_existed at h
  split at h
  · cases h
    rw [edge_modify]
    by_cases ha : a = txn_ts
    · subst ha
      cases hw : t.wait_for_map.lookup a with
      | none => simp [edge_eq, hw]
      | some w =>
        by_cases hb : b = lock_ts
        · subst hb; simp [edge_eq, hw, lookup_modify]
        · simp [edge_eq, hw, lookup_modify, hb]
    · simp [ha]
  · cases h

theorem MapWF.register_if_existed {t t' : DetectTable} {txn_ts lock_ts lock_hash : Nat}
    {key tag : List UInt8} (hwf : MapWF t.wait_for_map)
    (h : t.register_if_existed txn_ts lock_ts lock_hash key tag = some t') :
    MapWF t'.wait_for_map := by
  unfold DetectTable.register_if_existed at h
  split at h
  · cases h
    exact hwf.modify txn_ts fun w hw => by simpa using hw
  · cases h

theorem Locks.mem_push (l : Locks) (lock_hash : Nat) (key : List UInt8) (now : Nat) :
    lock_hash ∈ (l.push lock_hash key now).keys.map Prod.fst := by
  simp only [Locks.push]
  split
  · rename_i h
    obtain ⟨k, hk, hkh⟩ := List.any_eq_true.mp h
    exact List.mem_map.mpr ⟨k, hk, beq_iff_eq.mp hkh⟩
  · simp

theorem register_if_existed_edge {t t' : DetectTable} {txn_ts lock_ts lock_hash : Nat}
    {key tag : List UInt8} (h : t.register_if_existed txn_ts lock_ts lock_hash key tag = some t') :
    ∃ L, t.edge txn_ts lock_ts = some L := by
  unfold DetectTable.register_if_existed at h
  split at h
  · exact ⟨_, ‹_›⟩
  · cases h

theorem register_if_existed_eq_none {t : DetectTable} {txn_ts lock_ts lock_hash : Nat}
    {key tag : List UInt8} (h : t.register_if_existed txn_ts lock_ts lock_hash key tag = none) :
    t.edge txn_ts lock_ts = none := by
  unfold DetectTable.register_if_existed at h
  split at h
  · cases h
  · assumption

theorem register_eq_some {t : DetectTable} {txn_ts lock_ts lock_hash : Nat} {key tag : List UInt8}
    (hn : t.edge txn_ts lock_ts = none) :
    t.register txn_ts lock_ts lock_hash key tag = some { t with
      wait_for_map := insert txn_ts (((t.wait_for_map.lookup txn_ts).getD []) ++
        [(lock_ts, Locks.new lock_ts lock_hash key tag t.now)]) t.wait_for_map } := by
  have hw : ((t.wait_for_map.lookup txn_ts).getD []).lookup lock_ts = none := by
    cases hl : t.wait_for_map.lookup txn_ts with
    | none => rfl
    | some w => simpa [edge_eq, hl] using hn
  simp [DetectTable.register, hw, Locks.new]

theorem edge_register {t : DetectTable} {txn_ts lock_ts lock_hash : Nat} {key tag : List UInt8}
    (hn : t.edge txn_ts lock_ts = none) (a b : Nat) :
    ({ t with wait_for_map := insert txn_ts (((t.wait_for_map.lookup txn_ts).getD []) ++
        [(lock_ts, Locks.new lock_ts lock_hash key tag t.now)]) t.wait_for_map } :
        DetectTable).edge a b =
      if a = txn_ts ∧ b = lock_ts then some (Locks.new lock_ts lock_hash key tag t.now)
      else t.edge a b := by
  rw [edge_insert]
  by_cases ha : a = txn_ts
  · subst ha
    have hw : t.edge a b = ((t.wait_for_map.lookup a).getD []).lookup b := by
      cases hl : t.wait_for_map.lookup a <;> simp [edge_eq, hl]
    by_cases hb : b = lock_ts
    · subst hb
      rw [List.lookup_append, ← hw, hn]
      simp
    · rw [List.lookup_append, ← hw, lookup_cons_eq]
      simp [hb]
  · simp [ha]

theorem MapWF.register {t : DetectTable} {txn_ts lock_ts lock_hash : Nat} {key tag : List UInt8}
    (hwf : MapWF t.wait_for_map) (hn : t.edge txn_ts lock_ts = none) :
    MapWF (Tikv.Lib.AssocList.insert txn_ts (((t.wait_for_map.lookup txn_ts).getD []) ++
      [(lock_ts, Locks.new lock_ts lock_hash key tag t.now)]) t.wait_for_map) := by
  apply hwf.insert
  have hw : ((t.wait_for_map.lookup txn_ts).getD []).lookup lock_ts = none := by
    cases hl : t.wait_for_map.lookup txn_ts with
    | none => rfl
    | some w => simpa [edge_eq, hl] using hn
  have hnd : (keys ((t.wait_for_map.lookup txn_ts).getD [])).Nodup := by
    cases hl : t.wait_for_map.lookup txn_ts with
    | none => simp
    | some w => exact hwf.inner _ w hl
  rw [keys_append, List.nodup_append]
  refine ⟨hnd, by simp, fun x hx y hy => ?_⟩
  simp only [keys_cons, keys_nil, List.mem_singleton] at hy
  subst hy
  rintro rfl
  exact (lookup_eq_none_iff_not_mem_keys.mp hw) hx

theorem Locks.remove_fields {l l' : Locks} {lock_hash : Nat} (h : l.remove lock_hash = some l') :
    l'.ts = l.ts ∧ l'.last_detect_time = l.last_detect_time := by
  unfold Locks.remove at h
  dsimp only at h
  split at h
  · cases h
  · cases h
    exact ⟨rfl, rfl⟩

theorem edge_clean_up_wait_for (t : DetectTable) (txn_ts : Nat)
    (lock_digest : LockDigest) (a b : Nat) :
    (t.clean_up_wait_for txn_ts lock_digest).edge a b =
      if a = txn_ts ∧ b = lock_digest.ts then (t.edge a b).bind (·.remove lock_digest.hash)
      else t.edge a b := by
  cases hw : t.wait_for_map.lookup txn_ts with
  | none =>
    simp only [DetectTable.clean_up_wait_for, hw]
    split
    · rename_i hab
      obtain ⟨rfl, rfl⟩ := hab
      simp [edge_eq, hw]
    · rfl
  | some w =>
    cases hl : w.lookup lock_digest.ts with
    | none =>
      simp only [DetectTable.clean_up_wait_for, hw, hl]
      split
      · rename_i hab
        obtain ⟨rfl, rfl⟩ := hab
        simp [edge_eq, hw, hl]
      · rfl
    | some L =>
      cases hr : L.remove lock_digest.hash with
      | some L' =>
        simp only [DetectTable.clean_up_wait_for, hw, hl, hr]
        rw [edge_modify]
        by_cases ha : a = txn_ts
        · subst ha
          by_cases hb : b = lock_digest.ts
          · subst hb; simp [edge_eq, hw, hl, hr, lookup_modify]
          · simp [edge_eq, hw, lookup_modify, hb]
        · simp [ha]
      | none =>
        simp only [DetectTable.clean_up_wait_for, hw, hl, hr]
        have herase : ∀ b, (erase lock_digest.ts w).lookup b =
            if b = lock_digest.ts then none else w.lookup b := fun b => lookup_erase _ _ _
        split
        · rename_i hnil
          rw [edge_erase]
          by_cases ha : a = txn_ts
          · subst ha
            by_cases hb : b = lock_digest.ts
            · subst hb; simp [edge_eq, hw, hl, hr]
            · have hn := herase b
              rw [List.isEmpty_iff.mp hnil, if_neg hb] at hn
              simp [edge_eq, hw, hb, ← hn]
          · simp [ha]
        · rw [edge_modify]
          by_cases ha : a = txn_ts
          · subst ha
            by_cases hb : b = lock_digest.ts
            · subst hb; simp [edge_eq, hw, hl, hr, herase]
            · simp [edge_eq, hw, hb, herase]
          · simp [ha]

theorem MapWF.clean_up_wait_for {t : DetectTable} (hwf : MapWF t.wait_for_map) (txn_ts : Nat)
    (lock_digest : LockDigest) : MapWF (t.clean_up_wait_for txn_ts lock_digest).wait_for_map := by
  cases hw : t.wait_for_map.lookup txn_ts with
  | none => simpa [DetectTable.clean_up_wait_for, hw] using hwf
  | some w =>
    cases hl : w.lookup lock_digest.ts with
    | none => simpa [DetectTable.clean_up_wait_for, hw, hl] using hwf
    | some L =>
      cases hr : L.remove lock_digest.hash with
      | some L' =>
        simp only [DetectTable.clean_up_wait_for, hw, hl, hr]
        exact hwf.modify txn_ts fun w hw => by simpa using hw
      | none =>
        simp only [DetectTable.clean_up_wait_for, hw, hl, hr]
        split
        · exact hwf.erase txn_ts
        · exact hwf.modify txn_ts fun _ _ => nodup_filter (hwf.inner txn_ts w hw)

theorem clean_up_wait_for_now (t : DetectTable) (txn_ts : Nat) (lock_digest : LockDigest) :
    (t.clean_up_wait_for txn_ts lock_digest).now = t.now := by
  simp only [DetectTable.clean_up_wait_for]
  split
  · rfl
  · split
    · rfl
    · split <;> rfl

theorem inv_clean_up_wait_for {t : DetectTable} (hs : Inv t) (txn_ts : Nat)
    (lock_digest : LockDigest) : Inv (t.clean_up_wait_for txn_ts lock_digest) := by
  apply hs.of_edges (hs.wf.clean_up_wait_for txn_ts lock_digest)
  intro a b L' hL'
  rw [clean_up_wait_for_now]
  rw [edge_clean_up_wait_for] at hL'
  split at hL'
  · obtain ⟨L, hL, hr⟩ := Option.bind_eq_some_iff.mp hL'
    obtain ⟨hts, hlast⟩ := Locks.remove_fields hr
    exact ⟨L, hL, hts, hlast ▸ hs.last_le a b L hL⟩
  · exact ⟨L', hL', rfl, hs.last_le a b L' hL'⟩

theorem inv_clean_up {t : DetectTable} (hs : Inv t) (txn_ts : Nat) : Inv (t.clean_up txn_ts) := by
  refine hs.of_sub (hs.wf.erase txn_ts) (Nat.le_refl t.now) fun a b L hL => ?_
  rw [DetectTable.clean_up, edge_erase] at hL
  split at hL
  · cases hL
  · exact hL

theorem inv_clear {t : DetectTable} (hs : Inv t) : Inv t.clear := by
  refine hs.of_sub ⟨by simp [DetectTable.clear], by simp [DetectTable.clear]⟩ (Nat.le_refl t.now)
    fun a b L hL => ?_
  simp [DetectTable.clear, edge_eq] at hL

theorem inv_reset_ttl {t : DetectTable} (hs : Inv t) (ttl : Nat) : Inv (t.reset_ttl ttl) :=
  hs.of_sub hs.wf (Nat.le_refl t.now) fun _ _ _ hL => hL

end Tikv.Deadlock
