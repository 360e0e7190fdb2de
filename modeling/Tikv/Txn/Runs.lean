import Tikv.Txn.Actions

/-!
Whole runs of the actions on one key. From the empty key, any sequence of optimistic prewrites,
commits and GC runs keeps the `last_change` pointers sound in the sense of `pointer_sound`:
each names the newest change below it, or nothing when GC has deleted every change below.
GC may leave a pointer dangling, but only over a key with no change left below it. On every
such state `PointGetter::get` and `MvccReader::get` answer the reference read at every
timestamp.

The runs follow the timestamp discipline of the transaction layer: a transaction's commit_ts
is above its start_ts and within u64, and the optimistic prewrite checks constraints
(`skip_constraint_check` is off; a bulk load that skips it may commit under newer records).
-/

namespace Tikv.Txn

open Tikv.Mvcc
open Tikv.Lib.SortedList (key_inj key_le_head find?_key_le find?_congr_of_mem find?_filter_or_none)
open Tikv.Concurrency (TimeStamp.max)

section Pointers

/-! How a sound pointer survives the changes that actions make to the records: a record put on
top, a pointer moved up over records that change nothing, and records dropped by GC. -/

variable {writes : List (Nat × Write)}

theorem pointer_sound_widen {c c' : Nat} {lc : LastChange} (hc : c ≤ c')
    (hmid : ∀ q ∈ writes, c ≤ q.1 → q.1 < c' → q.2.write_type.changes_value = false)
    (h : pointer_sound writes c lc = true) : pointer_sound writes c' lc = true := by
  have hfind : (writes.find? fun q => decide (q.1 < c') && q.2.write_type.changes_value) =
      writes.find? fun q => decide (q.1 < c) && q.2.write_type.changes_value :=
    find?_congr_of_mem fun q hq => by
      by_cases h1 : q.1 < c
      · simp [h1, lt_of_lt_of_le h1 hc]
      · by_cases h2 : q.1 < c'
        · simp [h1, h2, hmid q hq (not_lt.mp h1) h2]
        · simp [h1, h2]
  cases lc with
  | Exist last_change_ts n =>
    simp only [pointer_sound, hfind, Bool.and_eq_true, decide_eq_true_eq] at h ⊢
    exact ⟨⟨lt_of_lt_of_le h.1.1 hc, h.1.2⟩, h.2⟩
  | NotExist => simpa only [pointer_sound, hfind] using h
  | Unknown => rfl

theorem pointer_sound_cons {c c' : Nat} {w : Write} {lc : LastChange} (hc : c ≤ c')
    (h : pointer_sound writes c lc = true) : pointer_sound ((c', w) :: writes) c lc = true := by
  have hskip : (((c', w) :: writes).find? fun q =>
      decide (q.1 < c) && q.2.write_type.changes_value) =
        writes.find? fun q => decide (q.1 < c) && q.2.write_type.changes_value := by
    rw [List.find?_cons]
    simp [not_lt.mpr hc]
  cases lc with
  | Exist last_change_ts n =>
    simp only [pointer_sound, hskip, Bool.and_eq_true, decide_eq_true_eq, List.all_cons] at h ⊢
    obtain ⟨⟨hlt, hat⟩, hall⟩ := h
    have hne : c' ≠ last_change_ts := by omega
    exact ⟨⟨hlt, hat⟩, by simp [hne], hall⟩
  | NotExist => simpa only [pointer_sound, hskip] using h
  | Unknown => rfl

theorem pointer_sound_of_find? (hdesc : writes.Pairwise fun a b => b.1 < a.1)
    {c last_change_ts n : Nat} {w : Write}
    (h : (writes.find? fun q => decide (q.1 < c) && q.2.write_type.changes_value) =
      some (last_change_ts, w)) :
    pointer_sound writes c (.Exist last_change_ts n) = true := by
  have hsome := List.find?_some h
  simp only [Bool.and_eq_true, decide_eq_true_eq] at hsome
  have hmem := List.mem_of_find?_eq_some h
  simp only [pointer_sound, h, Bool.and_eq_true, decide_eq_true_eq, Option.all_some, beq_self_eq_true,
    List.all_eq_true, Bool.or_eq_true, bne_iff_ne, ne_eq]
  refine ⟨⟨hsome.1, trivial⟩, fun q hq => ?_⟩
  by_cases hqt : q.1 = last_change_ts
  · rw [key_inj hdesc hq hmem hqt]
    exact Or.inr hsome.2
  · exact Or.inl hqt

theorem pointer_sound_filter (hdesc : writes.Pairwise fun a b => b.1 < a.1)
    {keep : Nat × Write → Bool} {c : Nat} {lc : LastChange}
    (hdrop : ∀ d, (writes.find? fun q => decide (q.1 < c) && q.2.write_type.changes_value) =
        some d → keep d = false →
      ∀ q ∈ writes, q.1 ≤ d.1 → q.2.write_type.changes_value = true → keep q = false)
    (h : pointer_sound writes c lc = true) : pointer_sound (writes.filter keep) c lc = true := by
  have hfind := find?_filter_or_none hdesc fun d hd hk q hq hle hp =>
    hdrop d hd hk q hq hle (by simp only [Bool.and_eq_true] at hp; exact hp.2)
  cases lc with
  | Exist last_change_ts n =>
    simp only [pointer_sound, Bool.and_eq_true, decide_eq_true_eq] at h ⊢
    obtain ⟨⟨hlt, hat⟩, hall⟩ := h
    refine ⟨⟨hlt, ?_⟩, List.all_eq_true.mpr fun q hq =>
      List.all_eq_true.mp hall q (List.mem_filter.mp hq).1⟩
    rcases hfind with hf | hf <;> rw [hf]
    · exact hat
    · rfl
  | NotExist =>
    simp only [pointer_sound] at h ⊢
    rcases hfind with hf | hf <;> rw [hf]
    · exact h
    · rfl
  | Unknown => rfl

theorem pointer_sound_deleted (hdesc : writes.Pairwise fun a b => b.1 < a.1)
    {sp : Nat} {completed : Bool} {D : List (Nat × Write)} (hD : Deleted sp writes completed D)
    {c : Nat} {lc : LastChange} (hc : ∀ d ∈ D, d.1 < c → ∀ q ∈ writes, q.1 ≤ sp → q.1 < c)
    (h : pointer_sound writes c lc = true) :
    pointer_sound (writes.filter fun q => decide (q ∉ D)) c lc = true := by
  refine pointer_sound_filter hdesc (fun d hd hk => ?_) h
  have hdD : d ∈ D := by simpa using hk
  have hdp := List.find?_some hd
  simp only [Bool.and_eq_true, decide_eq_true_eq] at hdp
  rcases hD.shadowed_or_last d hdD with ⟨-, hnc | ⟨q, hq, hqsp, hqc, hlt⟩⟩ | ⟨-, hbelow⟩
  · simp [hdp.2] at hnc
  · -- a newer change at or below the safe point would be below `c`, newer than the newest
    have hqc' : q.1 < c := hc d hdD hdp.1 q hq hqsp
    have hle := find?_key_le hdesc hd hq (by simp [hqc', hqc])
    omega
  · intro q hq hle hqc
    simpa using hbelow q hq hle hqc

theorem apply_writes_deleted {key : List UInt8} (v : Versions) {D : List (Nat × Write)}
    (hsub : ∀ p ∈ D, p ∈ v.writes) :
    apply_writes key (D.flatMap (deletes key)) v.writes =
      v.writes.filter fun q => decide (q ∉ D) := by
  unfold apply_writes
  refine List.filter_congr fun q hq => ?_
  have hiff := @mem_deleted_iff key D v hsub q hq
  by_cases hqD : q ∈ D <;> simp [hqD, hiff]

theorem lookup_apply_defaults {key : List UInt8} {D : List (Nat × Write)} {defaults : Defaults}
    {t : Nat} (ht : ∀ d ∈ D, d.2.write_type = .Put → d.2.short_value = none → d.2.start_ts ≠ t) :
    List.lookup t (apply_defaults key (D.flatMap (deletes key)) defaults) =
      List.lookup t defaults := by
  unfold apply_defaults
  rw [Tikv.Lib.AssocList.lookup_filter_key
    (fun t => !(D.flatMap (deletes key)).contains (.Delete .CF_DEFAULT key t))]
  have hkept : Modify.Delete .CF_DEFAULT key t ∉ D.flatMap (deletes key) := fun hm => by
    obtain ⟨-, d, hd, hput, hshort, hstart⟩ := mem_deletes_default hm
    exact ht d hd hput hshort hstart
  rw [if_pos (by simpa using hkept)]

end Pointers

section Invariant

/-- What a run keeps of the write records: newest first, each committed above its own start_ts
and at or below the start_ts of every newer one, within the range of `prev`, without a GC fence,
and with a sound `last_change`. -/
structure WritesOk (writes : List (Nat × Write)) : Prop where
  sorted : writes.Pairwise fun a b => b.1 < a.1 ∧ b.1 ≤ a.2.start_ts
  bounded : ∀ p ∈ writes, p.2.start_ts < p.1 ∧ p.1 ≤ TimeStamp.max
  no_fence : ∀ p ∈ writes, p.2.gc_fence = none
  sound : LastChangeSound writes

/-- A lock waiting for its commit: above every record, with a pointer that will be sound for
the record it commits and, for a Put without a short value, its value written. -/
structure LockOk (s : KeyState) (lock : Lock) : Prop where
  above : ∀ p ∈ s.writes, p.1 ≤ lock.ts
  pointer : pointer_sound s.writes (lock.ts + 1) lock.last_change = true
  value : lock.lock_type = .Put → lock.short_value = none →
    (List.lookup lock.ts s.defaults).isSome

structure KeyInv (s : KeyState) : Prop where
  writes : WritesOk s.writes
  present : DefaultsPresent s.writes s.defaults
  lock : ∀ lock, s.lock = some lock → LockOk s lock

variable {writes : List (Nat × Write)}

theorem WritesOk.desc (h : WritesOk writes) : writes.Pairwise fun a b => b.1 < a.1 :=
  h.sorted.imp And.left

theorem WritesOk.pos (h : WritesOk writes) : ∀ p ∈ writes, 0 < p.1 :=
  fun p hp => lt_of_le_of_lt (Nat.zero_le _) (h.bounded p hp).1

theorem WritesOk.fences_clear (h : WritesOk writes) (ts : Nat) : FencesClear writes ts :=
  fun p hp _ _ => by simp [Write.check_gc_fence_as_latest_version, h.no_fence p hp]

theorem WritesOk.fence_ok (h : WritesOk writes) (limit : Option Nat) :
    ∀ p ∈ writes, MvccReader.fence_ok limit p.2 = true := fun p hp => by
  cases limit <;> simp [MvccReader.fence_ok, Write.check_gc_fence_as_latest_version, h.no_fence p hp]

theorem start_inj_of_sorted {l : List (Nat × Write)}
    (hs : l.Pairwise fun a b => b.1 < a.1 ∧ b.1 ≤ a.2.start_ts)
    (hb : ∀ p ∈ l, p.2.start_ts < p.1) {p q : Nat × Write} (hp : p ∈ l) (hq : q ∈ l)
    (hstart : p.2.start_ts = q.2.start_ts) : p = q := by
  induction l with
  | nil => cases hp
  | cons a rest ih =>
    rw [List.pairwise_cons] at hs
    have hrest : ∀ p ∈ rest, p.2.start_ts < p.1 := fun p hp => hb p (List.mem_cons_of_mem a hp)
    rw [List.mem_cons] at hp hq
    rcases hp with rfl | hp <;> rcases hq with rfl | hq
    · rfl
    · have := (hs.1 q hq).2
      have := hrest q hq
      omega
    · have := (hs.1 p hp).2
      have := hrest p hp
      omega
    · exact ih hs.2 hrest hp hq

theorem WritesOk.start_inj (h : WritesOk writes) {p q : Nat × Write} (hp : p ∈ writes)
    (hq : q ∈ writes) (hstart : p.2.start_ts = q.2.start_ts) : p = q :=
  start_inj_of_sorted h.sorted (fun p hp => (h.bounded p hp).1) hp hq hstart

theorem WritesOk.cons (h : WritesOk writes) {c : Nat} {w : Write}
    (habove : ∀ p ∈ writes, p.1 < c ∧ p.1 ≤ w.start_ts) (hstart : w.start_ts < c)
    (hmax : c ≤ TimeStamp.max) (hfence : w.gc_fence = none)
    (hptr : w.write_type.changes_value = false → pointer_sound writes c w.last_change = true) :
    WritesOk ((c, w) :: writes) where
  sorted := List.pairwise_cons.mpr ⟨habove, h.sorted⟩
  bounded p hp := by
    rcases List.mem_cons.mp hp with rfl | hp
    · exact ⟨hstart, hmax⟩
    · exact h.bounded p hp
  no_fence p hp := by
    rcases List.mem_cons.mp hp with rfl | hp
    · exact hfence
    · exact h.no_fence p hp
  sound p hp hnc := by
    rcases List.mem_cons.mp hp with rfl | hp
    · exact pointer_sound_cons (le_refl _) (hptr hnc)
    · exact pointer_sound_cons (le_of_lt (habove p hp).1) (h.sound p hp hnc)

theorem WritesOk.filter_deleted (h : WritesOk writes) {sp : Nat} {completed : Bool}
    {D : List (Nat × Write)} (hD : Deleted sp writes completed D) :
    WritesOk (writes.filter fun q => decide (q ∉ D)) where
  sorted := h.sorted.sublist List.filter_sublist
  bounded p hp := h.bounded p (List.mem_filter.mp hp).1
  no_fence p hp := h.no_fence p (List.mem_filter.mp hp).1
  sound p hp hnc := by
    obtain ⟨hpw, hpD⟩ := List.mem_filter.mp hp
    have hpD : p ∉ D := by simpa using hpD
    refine pointer_sound_deleted h.desc hD (fun d hd hlt q _ hqsp => ?_) (h.sound p hpw hnc)
    by_cases hsp : sp < p.1
    · omega
    · exact absurd (hD.upward d hd p hpw ⟨not_lt.mp hsp, Or.inl hnc⟩ hlt) hpD

end Invariant

section Steps

variable {s s' : KeyState}

theorem LastChange.make_exist_ok {last_change_ts n : Nat} {lc : LastChange}
    (h : LastChange.make_exist last_change_ts n = .ok lc) : lc = .Exist last_change_ts n := by
  unfold LastChange.make_exist at h
  split at h
  · cases h
  · cases h
    rfl

theorem next_last_change_sound {writes : List (Nat × Write)} (h : WritesOk writes) {c0 : Nat}
    {w0 : Write} {rest : List (Nat × Write)} (hw : writes = (c0, w0) :: rest)
    {start_ts scan_nexts : Nat} {lc : LastChange}
    (hok : next_last_change_info writes w0 start_ts c0 scan_nexts = .ok lc) :
    pointer_sound writes (c0 + 1) lc = true := by
  have hmem : (c0, w0) ∈ writes := by rw [hw]; exact List.mem_cons_self
  have hle : ∀ q ∈ writes, q.1 ≤ c0 := by
    subst hw
    exact fun q hq => key_le_head h.desc hq
  unfold next_last_change_info at hok
  cases hwt : w0.write_type with
  | Put | Delete =>
    simp only [hwt] at hok
    rw [LastChange.make_exist_ok hok]
    refine pointer_sound_of_find? (w := w0) h.desc ?_
    rw [hw, List.find?_cons]
    simp [hwt, WriteType.changes_value]
  | Lock | Rollback =>
    -- the newest record changes nothing: its own pointer serves the timestamp above it
    have hnc : w0.write_type.changes_value = false := by simp [hwt, WriteType.changes_value]
    have hwiden (lc' : LastChange) (hp : pointer_sound writes c0 lc' = true) :
        pointer_sound writes (c0 + 1) lc' = true :=
      pointer_sound_widen (Nat.le_succ c0) (fun q hq h1 _ => by
        rw [key_inj h.desc hq hmem (le_antisymm (hle q hq) h1)]
        exact hnc) hp
    have hptr := h.sound _ hmem hnc
    simp only [hwt] at hok
    cases hlc : w0.last_change with
    | Exist last_change_ts n =>
      simp only [hlc] at hok hptr
      rw [LastChange.make_exist_ok hok]
      exact hwiden _ hptr
    | NotExist =>
      simp only [hlc] at hok hptr
      cases hok
      exact hwiden _ hptr
    | Unknown =>
      -- the scan for the newest Put finds the newest change below
      simp only [hlc] at hok
      have hget : MvccReader.get_write_with_commit_ts writes c0 (some start_ts) =
          some (put_of (writes.find? fun q => decide (q.1 < c0 + 1) &&
            q.2.write_type.changes_value)) := by
        have hcongr : (writes.find? fun q => decide (q.1 ≤ c0) && q.2.write_type.changes_value) =
            writes.find? fun q => decide (q.1 < c0 + 1) && q.2.write_type.changes_value :=
          find?_congr_of_mem fun q _ => by simp only [Nat.lt_add_one_iff]
        rw [← hcongr]
        exact MvccReader.get_write_answer ⟨writes, h.desc⟩ h.pos h.sound (h.fence_ok _) c0
      rw [hget] at hok
      cases hX : writes.find? fun q => decide (q.1 < c0 + 1) && q.2.write_type.changes_value with
      | none =>
        simp only [hX, put_of] at hok
        cases hok
        simp only [pointer_sound, hX]
        rfl
      | some d =>
        obtain ⟨last_change_ts, w⟩ := d
        have hc := changes_of_find?_below hX
        simp only [hX] at hok
        by_cases hput : w.write_type = .Put
        · simp only [put_of, hput, if_true] at hok
          rw [LastChange.make_exist_ok hok]
          exact pointer_sound_of_find? h.desc hX
        · simp only [put_of, hput, if_false] at hok
          cases hok
          have hdel : w.write_type = .Delete := (WriteType.eq_of_changes_value hc).resolve_left hput
          simp only [pointer_sound, hX, Option.all_some, hdel, beq_self_eq_true]

theorem check_for_newer_version_sound {writes : List (Nat × Write)} (h : WritesOk writes)
    {txn_props : TransactionProperties} {scan_nexts : Nat} {lc : LastChange}
    (hok : check_for_newer_version writes txn_props scan_nexts = .ok lc) :
    (∀ p ∈ writes, p.1 ≤ txn_props.start_ts) ∧
      pointer_sound writes (txn_props.start_ts + 1) lc = true := by
  have hseek : seek_write writes TimeStamp.max = writes.head? := by
    rw [seek_write, dropWhile_of_le fun p hp => (h.bounded p hp).2]
  unfold check_for_newer_version at hok
  rw [hseek] at hok
  cases hw : writes with
  | nil =>
    rw [hw] at hok
    cases hok
    simp [pointer_sound]
  | cons top rest =>
    obtain ⟨c0, w0⟩ := top
    subst hw
    simp only [List.head?_cons] at hok
    split at hok
    · cases hok
    cases hn : next_last_change_info ((c0, w0) :: rest) w0 txn_props.start_ts c0 scan_nexts with
    | error e =>
      simp [hn, bind, Except.bind] at hok
    | ok lc' =>
      simp only [hn, bind, Except.bind] at hok
      split at hok
      · cases hok
      rename_i hlt
      cases hok
      refine ⟨fun p hp => le_trans (key_le_head h.desc hp) (not_lt.mp hlt), ?_⟩
      refine pointer_sound_widen (by omega) (fun q hq h1 _ => ?_) (next_last_change_sound h rfl hn)
      have := key_le_head h.desc hq
      omega

theorem write_lock_spec (s : KeyState) (txn_props : TransactionProperties) (mutation : Mutation)
    (lc : LastChange) (last_change_enabled : Bool) :
    (write_lock s txn_props mutation lc last_change_enabled).writes = s.writes ∧
      (∀ t, (List.lookup t s.defaults).isSome →
        (List.lookup t (write_lock s txn_props mutation lc last_change_enabled).defaults).isSome) ∧
      ∃ lock, (write_lock s txn_props mutation lc last_change_enabled).lock = some lock ∧
        lock.ts = txn_props.start_ts ∧ (lock.last_change = lc ∨ lock.last_change = .Unknown) ∧
        (lock.lock_type = .Put → lock.short_value = none →
          (List.lookup lock.ts (write_lock s txn_props mutation lc last_change_enabled).defaults).isSome) := by
  cases mutation with
  | Put value =>
    by_cases hshort : is_short_value value = true
    · simp [write_lock, hshort, Mutation.value, Mutation.lock_type, Lock.new]
    · -- a long value goes to the default column family at the start_ts
      have hdef : (write_lock s txn_props (.Put value) lc last_change_enabled).defaults =
          Tikv.Lib.AssocList.insert txn_props.start_ts value s.defaults := by
        simp [write_lock, hshort, Mutation.value]
      refine ⟨by simp [write_lock, hshort, Mutation.value], fun t ht => ?_, ?_⟩
      · rw [hdef, Tikv.Lib.AssocList.lookup_insert]
        split
        · rfl
        · exact ht
      · simp [write_lock, hshort, Mutation.value, Mutation.lock_type, Lock.new,
          Tikv.Lib.AssocList.lookup_insert]
  | Delete => simp [write_lock, Mutation.value, Mutation.lock_type, Lock.new]
  | Lock =>
    by_cases hc : last_change_enabled = true <;>
      simp [write_lock, hc, Mutation.value, Mutation.lock_type, Lock.new]

theorem KeyInv.prewrite (h : KeyInv s) {txn_props : TransactionProperties} {mutation : Mutation}
    {last_change_enabled : Bool} {scan_nexts min_commit_ts : Nat}
    (hskip : txn_props.skip_constraint_check = false)
    (hok : prewrite s txn_props mutation last_change_enabled scan_nexts = .ok (s', min_commit_ts)) :
    KeyInv s' := by
  unfold Tikv.Txn.prewrite at hok
  cases hl : s.lock with
  | some lock =>
    rw [hl] at hok
    cases hc : check_lock lock txn_props with
    | error e => simp [hc, bind, Except.bind] at hok
    | ok m =>
      simp only [hc, bind, Except.bind, Except.ok.injEq, Prod.mk.injEq] at hok
      rw [← hok.1]
      exact h
  | none =>
    rw [hl] at hok
    simp only [hskip, Bool.false_eq_true, if_false] at hok
    cases hc : check_for_newer_version s.writes txn_props scan_nexts with
    | error e => simp [hc, bind, Except.bind] at hok
    | ok lc =>
      simp only [hc, bind, Except.bind, Except.ok.injEq, Prod.mk.injEq] at hok
      obtain ⟨habove, hptr⟩ := check_for_newer_version_sound h.writes hc
      obtain ⟨hw, hdef, lock, hlock, hts, hlc, hval⟩ :=
        write_lock_spec s txn_props mutation lc last_change_enabled
      rw [← hok.1]
      refine ⟨hw ▸ h.writes, fun p hp hput hshort => hdef _ (h.present p (hw ▸ hp) hput hshort),
        fun lock' hl' => ?_⟩
      rw [hlock] at hl'
      cases hl'
      refine ⟨fun p hp => hts ▸ habove p (hw ▸ hp), ?_, hval⟩
      rw [hw, hts]
      rcases hlc with hlc | hlc <;> rw [hlc]
      · exact hptr
      · rfl

theorem handle_lock_not_found_ok {start_ts commit_ts : Nat}
    (h : handle_lock_not_found s start_ts commit_ts = .ok s') : s' = s := by
  unfold handle_lock_not_found at h
  split at h <;> cases h <;> rfl

theorem WriteType.from_lock_type_put {t : LockType} (h : WriteType.from_lock_type t = some .Put) :
    t = .Put := by
  cases t <;> simp_all [WriteType.from_lock_type]

theorem commit_cases {start_ts commit_ts : Nat} (hok : commit s start_ts commit_ts = .ok s') :
    s' = s ∨ s' = { s with lock := none } ∨
      ∃ lock w, s.lock = some lock ∧ lock.ts = start_ts ∧
        WriteType.from_lock_type lock.lock_type = some w.write_type ∧ w.start_ts = lock.ts ∧
        w.short_value = lock.short_value ∧ w.gc_fence = none ∧ w.last_change = lock.last_change ∧
        s' = { s with lock := none, writes := put_write s.writes commit_ts w } := by
  unfold commit at hok
  split at hok
  · rename_i lock hl
    split at hok
    · exact Or.inl (handle_lock_not_found_ok hok)
    rename_i hts
    split at hok
    · cases hok
    split at hok
    · cases hok
      exact Or.inr (Or.inl rfl)
    split at hok
    · cases hok
    rename_i write_type hwt
    right; right
    by_cases hr : commit_ts ∈ lock.rollback_ts
    · simp only [hr, if_true, Except.ok.injEq] at hok
      exact ⟨lock, _, hl, not_not.mp hts, hwt, (not_not.mp hts).symm, rfl, rfl, rfl, hok.symm⟩
    · simp only [hr, if_false, Except.ok.injEq] at hok
      exact ⟨lock, _, hl, not_not.mp hts, hwt, (not_not.mp hts).symm, rfl, rfl, rfl, hok.symm⟩
  · exact Or.inl (handle_lock_not_found_ok hok)

theorem put_write_of_below {writes : List (Nat × Write)} {commit_ts : Nat} {write : Write}
    (h : ∀ p ∈ writes, p.1 < commit_ts) :
    put_write writes commit_ts write = (commit_ts, write) :: writes := by
  unfold put_write
  rw [List.filter_eq_nil_iff.mpr fun p hp => by simpa using le_of_lt (h p hp),
    List.filter_eq_self.mpr fun p hp => by simpa using h p hp, List.nil_append]

theorem KeyInv.commit (h : KeyInv s) {start_ts commit_ts : Nat} (hlt : start_ts < commit_ts)
    (hmax : commit_ts ≤ TimeStamp.max) (hok : commit s start_ts commit_ts = .ok s') : KeyInv s' := by
  rcases commit_cases hok with rfl | rfl | ⟨lock, w, hl, hts, hwt, hstart, hshort, hfence, hlc, rfl⟩
  · exact h
  · exact ⟨h.writes, h.present, fun _ hl => by cases hl⟩
  have hL := h.lock lock hl
  have hbelow : ∀ p ∈ s.writes, p.1 < commit_ts := fun p hp => by
    have := hL.above p hp
    omega
  have hput := @put_write_of_below s.writes commit_ts w hbelow
  refine ⟨?_, ?_, fun _ hl => by cases hl⟩ <;> simp only [hput]
  · refine h.writes.cons (fun p hp => ⟨hbelow p hp, hstart ▸ hL.above p hp⟩) (by omega) hmax
      hfence fun _ => ?_
    rw [hlc]
    exact pointer_sound_widen (by omega) (fun q hq h1 _ => by have := hL.above q hq; omega)
      hL.pointer
  · intro p hp hwput hpshort
    rcases List.mem_cons.mp hp with rfl | hp
    · have hlput := WriteType.from_lock_type_put (hwput ▸ hwt)
      rw [hstart]
      exact hL.value hlput (hshort ▸ hpshort)
    · exact h.present p hp hwput hpshort

theorem KeyInv.gc_deleted (h : KeyInv s) (key : List UInt8) (sp : Nat) :
    ∃ completed D, Deleted sp s.writes completed D ∧
      s.gc key sp = some { s with writes := s.writes.filter (fun q => decide (q ∉ D))
                                  defaults := apply_defaults key (D.flatMap (deletes key)) s.defaults } := by
  obtain ⟨g, D, hrun, hmod, hD⟩ := @run_deleted key sp ⟨[], 0⟩ ⟨s.writes, h.writes.desc⟩
    fun p hp => ⟨h.writes.pos p hp, (h.writes.bounded p hp).2⟩
  refine ⟨_, D, hD, ?_⟩
  have hrun' : Gc.run_loop s.writes (.Rewind sp) ⟨key, ⟨0, 0, false⟩, ⟨[], 0⟩⟩ TimeStamp.max =
      some g := hrun
  rw [KeyState.gc, Tikv.Mvcc.gc, hrun', Option.map_some, Option.map_some]
  simp only [hmod, List.nil_append]
  rw [apply_writes_deleted ⟨s.writes, h.writes.desc⟩ hD.sub]

theorem KeyInv.gc (h : KeyInv s) (key : List UInt8) (sp : Nat) : KeyInv ((s.gc key sp).getD s) := by
  obtain ⟨completed, D, hD, hgc⟩ := h.gc_deleted key sp
  rw [hgc, Option.getD_some]
  refine ⟨h.writes.filter_deleted hD, fun p hp hput hshort => ?_, fun lock hl => ?_⟩
  · obtain ⟨hpw, hpD⟩ := List.mem_filter.mp hp
    rw [lookup_apply_defaults fun d hd _ _ hst => ?_]
    · exact h.present p hpw hput hshort
    · -- a deleted Put with the same start_ts would be the record itself
      have hdp := h.writes.start_inj (hD.sub d hd) hpw hst
      subst hdp
      simp only [decide_not, Bool.not_eq_eq_eq_not, Bool.not_true, decide_eq_false_iff_not] at hpD
      exact hpD hd
  · have hL := h.lock lock hl
    refine ⟨fun p hp => hL.above p (List.mem_filter.mp hp).1,
      pointer_sound_deleted h.writes.desc hD (fun _ _ _ q hq _ => Nat.lt_succ_of_le (hL.above q hq))
        hL.pointer, fun hput hshort => ?_⟩
    rw [lookup_apply_defaults fun d hd _ _ hst => ?_]
    · exact hL.value hput hshort
    · -- a record starts below its commit, at or below the lock
      have := (h.writes.bounded d (hD.sub d hd)).1
      have := hL.above d (hD.sub d hd)
      omega

end Steps

section Run

def Command.WellTimed : Command → Prop
  | .Prewrite txn_props _ => txn_props.skip_constraint_check = false
  | .Commit start_ts commit_ts => start_ts < commit_ts ∧ commit_ts ≤ TimeStamp.max
  | .Gc _ => True

instance : DecidablePred Command.WellTimed := fun cmd => by
  cases cmd <;> unfold Command.WellTimed <;> infer_instance

theorem KeyInv.empty : KeyInv KeyState.empty :=
  ⟨⟨List.Pairwise.nil, fun _ h => (by cases h), fun _ h => (by cases h), fun _ h => (by cases h)⟩,
    fun _ h => (by cases h), fun _ h => (by cases h)⟩

theorem KeyInv.apply {s : KeyState} (h : KeyInv s) (key : List UInt8) (last_change_enabled : Bool)
    (scan_nexts : Nat) {cmd : Command} (hcmd : cmd.WellTimed) :
    KeyInv (KeyState.apply key last_change_enabled scan_nexts s cmd) := by
  cases cmd with
  | Prewrite txn_props mutation =>
    simp only [KeyState.apply]
    split
    · rename_i hok
      exact h.prewrite hcmd hok
    · exact h
  | Commit start_ts commit_ts =>
    simp only [KeyState.apply]
    split
    · rename_i hok
      exact h.commit hcmd.1 hcmd.2 hok
    · exact h
  | Gc safe_point => exact h.gc key safe_point

theorem KeyInv.run (key : List UInt8) (last_change_enabled : Bool) (scan_nexts : Nat) :
    ∀ (cmds : List Command) (s : KeyState), KeyInv s → (∀ cmd ∈ cmds, cmd.WellTimed) →
      KeyInv (cmds.foldl (KeyState.apply key last_change_enabled scan_nexts) s)
  | [], _, h, _ => h
  | cmd :: cmds, _, h, hcmds =>
    KeyInv.run key last_change_enabled scan_nexts cmds _
      (h.apply key last_change_enabled scan_nexts (hcmds cmd List.mem_cons_self))
      fun c hc => hcmds c (List.mem_cons_of_mem cmd hc)

/-- On every state a run of well-timed prewrites, commits and GC reaches from the empty key,
`PointGetter::get` and `MvccReader::get` answer the reference read at every timestamp, whatever
the state of the last_change feature. -/
theorem reads_agree_on_runs (key : List UInt8) (last_change_enabled : Bool) (scan_nexts : Nat)
    (cmds : List Command) (hcmds : ∀ cmd ∈ cmds, cmd.WellTimed) (ts : Nat) :
    let s := cmds.foldl (KeyState.apply key last_change_enabled scan_nexts) KeyState.empty
    PointGetter.load_data s.writes s.defaults ts = some (reference_value s.writes s.defaults ts) ∧
      MvccReader.get s.writes s.defaults ts (some ts) =
        some (reference_value s.writes s.defaults ts) := by
  intro s
  have h : KeyInv s := KeyInv.run key last_change_enabled scan_nexts cmds _ KeyInv.empty hcmds
  exact ⟨point_get_eq_reference ⟨s.writes, h.writes.desc⟩ h.writes.sound
      (h.writes.fences_clear ts) h.present,
    mvcc_get_eq_reference ⟨s.writes, h.writes.desc⟩ h.writes.pos h.writes.sound
      (h.writes.fences_clear ts) h.present⟩

/-- The history whose GC leaves the Lock record's pointer dangling is a well-timed run: the
readers still answer the reference read on it. -/
theorem reads_agree_on_dangling_pointer :
    (∀ cmd ∈ lock_over_delete_history ++ [Command.Gc 25], cmd.WellTimed) ∧
      let s := (lock_over_delete_history ++ [Command.Gc 25]).foldl (KeyState.apply [107] true 0)
        KeyState.empty
      PointGetter.load_data s.writes s.defaults 40 = some (reference_value s.writes s.defaults 40) ∧
        MvccReader.get s.writes s.defaults 40 (some 40) =
          some (reference_value s.writes s.defaults 40) :=
  ⟨by decide, reads_agree_on_runs [107] true 0 _ (by decide) 40⟩

end Run

end Tikv.Txn
