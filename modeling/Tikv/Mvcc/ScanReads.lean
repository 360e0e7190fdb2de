import Tikv.Mvcc.ForwardScanner

/-!
What a forward scan is for. A store keeps for each user key its lock, its write records and its
default values (\x60KeyState\x60), and \x60store_snapshot\x60 lays them out as the three column families in
key order. The read of one key at \x60ts\x60, \x60key_read\x60, checks the key's lock at the isolation levels
that check locks and reads through it when the read may access its transaction; otherwise it
answers from the newest change at or below \x60ts\x60. A scan reads the keys within its bounds in order
and leaves out those with no value, and \x60StoreScanner::scan\x60 collects the reads (\x60collect\x60).

On a store whose records are well formed (\x60Readable\x60) the scanner, with its shortcuts (a few
\x60next\x60 before a seek, \x60last_change\x60 past Lock and Rollback records, one write cursor for all
keys), returns exactly that.
-/

namespace Tikv.Mvcc

open Tikv.Txn Tikv.Lib.Versioned

variable {K : Type}

def lock_column (m : List (K × KeyState)) : List (K × Lock) :=
  m.filterMap fun p => p.2.lock.map (p.1, ·)

def default_column (m : List (K × KeyState)) : List ((K × Nat) × List UInt8) :=
  m.flatMap fun p => p.2.defaults.map fun d => ((p.1, d.1), d.2)

def store_snapshot (m : List (K × KeyState)) : Snapshot K :=
  ⟨column KeyState.writes m, lock_column m, default_column m⟩

@[simp]
theorem lock_column_cons (k : K) (s : KeyState) (m : List (K × KeyState)) :
    lock_column ((k, s) :: m) = (s.lock.map (k, ·)).toList ++ lock_column m := by
  cases h : s.lock <;> simp [lock_column, h]

@[simp]
theorem lock_column_nil : lock_column ([] : List (K × KeyState)) = [] := rfl

@[simp]
theorem default_column_cons (k : K) (s : KeyState) (m : List (K × KeyState)) :
    default_column ((k, s) :: m) = s.defaults.map (fun d => ((k, d.1), d.2)) ++ default_column m :=
  rfl

theorem lock_column_filter (m : List (K × KeyState)) (q : K → Bool) :
    (lock_column m).filter (fun e => q e.1) = lock_column (m.filter fun p => q p.1) := by
  induction m with
  | nil => rfl
  | cons p m ih =>
    obtain ⟨k, s⟩ := p
    by_cases hk : q k <;> cases s.lock <;> simp [hk, ih]

variable [LinearOrder K]

/-- What a read at \x60ts\x60 needs of the records of one key: newest first, committed after 0, with
sound \x60last_change\x60 pointers and no GC fence in the way. -/
structure Readable (ts : Nat) (s : KeyState) : Prop where
  desc : s.writes.Pairwise fun a b => b.1 < a.1
  pos : ∀ p ∈ s.writes, 0 < p.1
  sound : LastChangeSound s.writes
  fences : FencesClear s.writes ts

def entry_of (cfg : ScannerConfig K) (s : KeyState) :
    Option (Nat × Write) → Except ReadError (Option ValueEntry)
  | some (commit_ts, write) =>
    if write.write_type = .Put ∧ write.check_gc_fence_as_latest_version cfg.ts = true then
      let commit_ts := if cfg.load_commit_ts then some commit_ts else none
      if cfg.omit_value then .ok (some ⟨[], commit_ts⟩)
      else
        match load_data s.defaults write with
        | some value => .ok (some ⟨value, commit_ts⟩)
        | none => .error .Failed
    else .ok none
  | none => .ok none

def latest_entry (cfg : ScannerConfig K) (s : KeyState) : Except ReadError (Option ValueEntry) :=
  entry_of cfg s (s.writes.find? fun q => decide (q.1 ≤ cfg.ts) && q.2.write_type.changes_value)

def write_read (cfg : ScannerConfig K) (s : KeyState) : Except ReadError (Option ValueEntry) :=
  match s.writes with
  | [] => .ok none
  | (commit_ts, _) :: _ =>
    if cfg.isolation_level = .RcCheckTs ∧ cfg.ts < commit_ts then
      .error (.WriteConflict cfg.ts 0 commit_ts)
    else latest_entry cfg s

def lock_entry (cfg : ScannerConfig K) (s : KeyState) (lock : Lock) :
    Except ReadError (Option ValueEntry) :=
  if cfg.omit_value ∧ lock.lock_type = .Put then .ok (some ⟨[], none⟩)
  else (PointGetter.load_data_from_lock s lock).map (Option.map (⟨·, none⟩))

def key_read (to_raw : K → List UInt8) (cfg : ScannerConfig K) (k : K) (s : KeyState) :
    Except ReadError (Option ValueEntry) :=
  match if need_check_locks cfg.isolation_level then s.lock else none with
  | none => write_read cfg s
  | some lock =>
    match check_ts_conflict lock (to_raw k) cfg.ts cfg.bypass_locks cfg.isolation_level with
    | .ok () => write_read cfg s
    | .error err =>
      if cfg.load_commit_ts = false ∧ lock.ts ∈ cfg.access_locks then lock_entry cfg s lock
      else .error err

def next_read (to_raw : K → List UInt8) (cfg : ScannerConfig K) :
    List (K × KeyState) → Except ReadError (Option (K × ValueEntry)) × List (K × KeyState)
  | [] => (.ok none, [])
  | (k, s) :: m =>
    match key_read to_raw cfg k s with
    | .ok none => next_read to_raw cfg m
    | .ok (some v) => (.ok (some (k, v)), m)
    | .error err => (.error err, m)

def reads (to_raw : K → List UInt8) (cfg : ScannerConfig K) (m : List (K × KeyState)) :
    List (K × Except ReadError (Option ValueEntry)) :=
  m.map fun p => (p.1, key_read to_raw cfg p.1 p.2)

def collect (to_raw : K → List UInt8) (limit sample_step : Nat) :
    Nat → List (Except ReadError (List UInt8 × ValueEntry)) →
      List (K × Except ReadError (Option ValueEntry)) →
        Except ReadError (List (Except ReadError (List UInt8 × ValueEntry)))
  | _, results, [] => .ok results
  | row_count, results, (k, r) :: reads =>
    if results.length < limit then
      match r with
      | .ok none => collect to_raw limit sample_step row_count results reads
      | .ok (some v) =>
        if 0 < sample_step then
          if row_count % sample_step ≠ 0 then
            collect to_raw limit sample_step (row_count + 1) results reads
          else collect to_raw limit sample_step (row_count + 1) (results ++ [.ok (to_raw k, v)]) reads
        else collect to_raw limit sample_step row_count (results ++ [.ok (to_raw k, v)]) reads
      | .error (.KeyIsLocked lock) =>
        collect to_raw limit sample_step row_count (results ++ [.error (.KeyIsLocked lock)]) reads
      | .error err => .error err
    else .ok results

/-! ### The scanner's view of a store -/

def cursors_at (cfg : ScannerConfig K) (m : List (K × KeyState)) : Cursors K :=
  ⟨if need_check_locks cfg.isolation_level then some (lock_column m) else none,
    column KeyState.writes m⟩

def visible (cfg : ScannerConfig K) (s : KeyState) : Bool :=
  !s.writes.isEmpty || (need_check_locks cfg.isolation_level && s.lock.isSome)

def visible_count (cfg : ScannerConfig K) (m : List (K × KeyState)) : Nat :=
  (m.filter fun p => visible cfg p.2).length

def HandleRes.of_entry (k : K) : Option ValueEntry → HandleRes K
  | some v => .Return (k, v)
  | none => .Skip k

def turn_of (k : K) (next c : Cursors K) :
    Except ReadError (Option ValueEntry) →
      (Except ReadError (Option (K × ValueEntry)) × Cursors K) ⊕ Cursors K
  | .ok none => .inr next
  | .ok (some v) => .inl (.ok (some (k, v)), c)
  | .error e => .inl (.error e, c)

def settles {α : Type} : Except ReadError α → Bool
  | .ok _ => true
  | .error (.KeyIsLocked _) => true
  | .error _ => false

/-- The scanner of \x60cfg\x60 reads the store \x60m\x60: its write column family within its bounds is that
of \x60m\x60, its default column family has the values of the keys of \x60m\x60, and the records are
readable at \x60cfg.ts\x60. -/
structure SnapshotOf (cfg : ScannerConfig K) (m : List (K × KeyState)) : Prop where
  sorted : m.Pairwise fun a b => a.1 < b.1
  write_cf : cfg.write_cf = column KeyState.writes m
  default : ∀ p ∈ m, ∀ t, List.lookup (p.1, t) cfg.snapshot.default = List.lookup t p.2.defaults
  readable : ∀ p ∈ m, Readable cfg.ts p.2

theorem lookup_default_column_of_lt {m : List (K × KeyState)} {k : K} (hk : ∀ p ∈ m, k < p.1)
    (t : Nat) : List.lookup (k, t) (default_column m) = none := by
  induction m with
  | nil => rfl
  | cons p m ih =>
    obtain ⟨k', s'⟩ := p
    rw [default_column_cons, List.lookup_append, lookup_map_pair,
      if_neg (ne_of_gt (hk _ List.mem_cons_self)), ih fun p hp => hk p (List.mem_cons_of_mem _ hp)]
    rfl

theorem lookup_default_column {m : List (K × KeyState)} (hm : m.Pairwise fun a b => a.1 < b.1)
    {k : K} {s : KeyState} (hk : (k, s) ∈ m) (t : Nat) :
    List.lookup (k, t) (default_column m) = List.lookup t s.defaults := by
  induction m with
  | nil => cases hk
  | cons p m ih =>
    obtain ⟨k', s'⟩ := p
    have hlt := (List.pairwise_cons.mp hm).1
    rw [default_column_cons, List.lookup_append, lookup_map_pair]
    rcases List.mem_cons.mp hk with h | h
    · obtain ⟨rfl, rfl⟩ := Prod.mk.inj h
      rw [if_pos rfl, lookup_default_column_of_lt hlt, Option.or_none]
    · rw [if_neg (ne_of_lt (hlt _ h)), Option.none_or]
      exact ih (List.pairwise_cons.mp hm).2 h

omit [LinearOrder K] in
theorem mem_lock_column {m : List (K × KeyState)} {e : K × Lock} (he : e ∈ lock_column m) :
    ∃ s, (e.1, s) ∈ m := by
  obtain ⟨p, hp, hpe⟩ := List.mem_filterMap.mp he
  obtain ⟨l, -, rfl⟩ := Option.map_eq_some_iff.mp hpe
  exact ⟨p.2, hp⟩

theorem head_key_ne {α : Type} {l : List (K × α)} {k : K} (h : ∀ e ∈ l, k < e.1) :
    l.head?.map (·.1) ≠ some k := by
  cases l with
  | nil => simp
  | cons e l => simpa using (h e List.mem_cons_self).ne'

theorem head_key_ge {α : Type} {l : List (K × α)} {k : K} (h : ∀ e ∈ l, k ≤ e.1) :
    ∀ x ∈ l.head?.map (·.1), k ≤ x := by
  cases l with
  | nil => simp
  | cons e l => simpa using h e List.mem_cons_self

theorem current_user_key_at {k : K} {s : KeyState} {rest : List (K × KeyState)}
    {cfg : ScannerConfig K} (hs : ((k, s) :: rest).Pairwise fun a b => a.1 < b.1)
    (hvis : visible cfg s = true) :
    current_user_key ((cursors_at cfg ((k, s) :: rest)).write.head?.map (·.1))
        (((cursors_at cfg ((k, s) :: rest)).lock.bind List.head?).map (·.1)) =
      some (k, !s.writes.isEmpty, need_check_locks cfg.isolation_level && s.lock.isSome) := by
  have hrest : ∀ p ∈ rest, k < p.1 := (List.pairwise_cons.mp hs).1
  have hge : ∀ p ∈ (k, s) :: rest, k ≤ p.1 := by
    intro p hp
    rcases List.mem_cons.mp hp with rfl | hp
    · exact le_rfl
    · exact (hrest p hp).le
  -- the keys of the other entries are above \x60k\x60
  have hwrest : (column KeyState.writes rest).head?.map (·.1) ≠ some k :=
    head_key_ne (column_keys_gt hrest)
  have hlrest : (lock_column rest).head?.map (·.1) ≠ some k := head_key_ne fun e he => by
    obtain ⟨s', hs'⟩ := mem_lock_column he
    exact hrest _ hs'
  have hw : ∀ x ∈ (cursors_at cfg ((k, s) :: rest)).write.head?.map (·.1), k ≤ x :=
    head_key_ge fun e he => by
      obtain ⟨s', hs'⟩ := mem_column he
      exact hge _ hs'
  have hl : ∀ x ∈ ((cursors_at cfg ((k, s) :: rest)).lock.bind List.head?).map (·.1), k ≤ x := by
    unfold cursors_at
    split
    · exact head_key_ge fun e he => by
        obtain ⟨s', hs'⟩ := mem_lock_column he
        exact hge _ hs'
    · simp
  have hwk : decide ((cursors_at cfg ((k, s) :: rest)).write.head?.map (·.1) = some k) =
      !s.writes.isEmpty := by
    cases hwr : s.writes <;> simp [cursors_at, hwr, hwrest]
  have hlk : decide (((cursors_at cfg ((k, s) :: rest)).lock.bind List.head?).map (·.1) = some k) =
      (need_check_locks cfg.isolation_level && s.lock.isSome) := by
    cases hneed : need_check_locks cfg.isolation_level <;> cases hsl : s.lock <;>
      simp [cursors_at, hneed, hsl, hlrest]
  rw [current_user_key_eq hw hl, hwk, hlk]
  -- the key is visible: one of the cursors is on it
  simp only [visible, Bool.or_eq_true] at hvis
  rcases hvis with hv | hv
  · exact Or.inl (of_decide_eq_true (hwk.trans hv))
  · exact Or.inr (of_decide_eq_true (hlk.trans hv))

section Key

variable {cfg : ScannerConfig K} {pre rest : List (K × KeyState)} {k : K} {s : KeyState}

theorem SnapshotOf.readable_at (h : SnapshotOf cfg (pre ++ (k, s) :: rest)) : Readable cfg.ts s :=
  h.readable (k, s) (by simp)

theorem near_load_data_by_write_at (h : SnapshotOf cfg (pre ++ (k, s) :: rest)) (t : Nat) :
    near_load_data_by_write cfg.snapshot.default k t =
      match List.lookup t s.defaults with
      | some value => .ok value
      | none => .error .Failed := by
  have hd := h.default (k, s) (by simp) t
  dsimp only at hd
  cases hl : List.lookup t s.defaults <;> simp [near_load_data_by_write, hd, hl]

def LoopEnds (k : K) (rest : List (K × KeyState)) (a : Except ReadError (Option ValueEntry)) :
    Except ReadError (Option (Option ValueEntry)) × List (K × Nat × Write) → Prop
  | (.ok (some v), w) => a = .ok v ∧ ∃ ws, w = versions k ws ++ column KeyState.writes rest
  | (.ok none, w) => a = .ok none ∧ w = column KeyState.writes rest
  | (.error e, _) => a = .error e

omit [LinearOrder K] in
theorem entry_of_not_put {c : Nat} {w : Write} (hw : w.write_type ≠ .Put) :
    entry_of cfg s (some (c, w)) = .ok none := by
  simp [entry_of, hw]

theorem handle_write_turn_of_changes (h : SnapshotOf cfg (pre ++ (k, s) :: rest)) {c : Nat}
    {w : Write} (hc : w.write_type.changes_value = true) (l : List (K × Nat × Write)) :
    LatestKvPolicy.handle_write_turn cfg k c w l = (entry_of cfg s (some (c, w))).map .inl := by
  rcases WriteType.eq_of_changes_value hc with hput | hdel
  · by_cases hf : w.check_gc_fence_as_latest_version cfg.ts = true
    · cases hom : cfg.omit_value
      · cases hs : w.short_value with
        | some v =>
          simp [LatestKvPolicy.handle_write_turn, entry_of, hput, hf, hom, hs, load_data, Except.map]
        | none =>
          simp only [LatestKvPolicy.handle_write_turn, entry_of, hput, hf, hom, hs, load_data,
            near_load_data_by_write_at h]
          cases List.lookup w.start_ts s.defaults <;> rfl
      · simp [LatestKvPolicy.handle_write_turn, entry_of, hput, hf, hom, Except.map]
    · simp [LatestKvPolicy.handle_write_turn, entry_of, hf, Except.map]
  · simp [LatestKvPolicy.handle_write_turn, entry_of, hdel, Except.map]

theorem seek_last_change (h : SnapshotOf cfg (pre ++ (k, s) :: rest))
    {pre_ws ws : List (Nat × Write)} {c t : Nat} {w : Write}
    (hws : s.writes = pre_ws ++ (c, w) :: ws) (ht : t < c) :
    seek_write_cf cfg.write_cf k t =
      versions k (ws.dropWhile fun p => decide (t < p.1)) ++ column KeyState.writes rest := by
  have hpre : ∀ q ∈ pre_ws, c < q.1 := by
    have hdesc := h.readable_at.desc
    rw [hws] at hdesc
    exact fun q hq => (List.pairwise_append.mp hdesc).2.2 q hq _ List.mem_cons_self
  rw [seek_write_cf, h.write_cf, dropWhile_column h.sorted, hws, List.dropWhile_append_of_pos
    fun q hq => by simpa using ht.trans (hpre q hq), List.dropWhile_cons_of_pos (by simpa using ht)]

theorem handle_write_loop_of_inr {fuel : Nat} {e : K × Nat × Write} {l : List (K × Nat × Write)}
    {ws : List (Nat × Write)} {a : Except ReadError (Option ValueEntry)}
    (hs : (pre ++ (k, s) :: rest).Pairwise fun a b => a.1 < b.1)
    (ht : LatestKvPolicy.handle_write_turn cfg k e.2.1 e.2.2 l =
      .ok (.inr (versions k ws ++ column KeyState.writes rest)))
    (hnil : ws = [] → a = .ok none)
    (hrec : ws ≠ [] → ∃ r, LatestKvPolicy.handle_write_loop cfg k fuel
      (versions k ws ++ column KeyState.writes rest) = some r ∧ LoopEnds k rest a r) :
    ∃ r, LatestKvPolicy.handle_write_loop cfg k (fuel + 1) (e :: l) = some r ∧
      LoopEnds k rest a r := by
  obtain ⟨k', c, w⟩ := e
  rw [LatestKvPolicy.handle_write_loop, ht]
  cases ws with
  | nil =>
    cases hr : column KeyState.writes rest with
    | nil => exact ⟨(.ok none, []), rfl, hnil rfl, hr.symm⟩
    | cons e' l' =>
      have hne := column_head_ne hs e' (by rw [hr]; rfl)
      exact ⟨(.ok none, e' :: l'), by simp [hne], hnil rfl, hr.symm⟩
  | cons q ws =>
    simpa using hrec (List.cons_ne_nil q ws)

theorem handle_write_loop_ends (h : SnapshotOf cfg (pre ++ (k, s) :: rest)) :
    ∀ (fuel : Nat) (ws pre_ws : List (Nat × Write)), s.writes = pre_ws ++ ws → ws ≠ [] →
      (∀ q ∈ ws, q.1 ≤ cfg.ts) → ws.length < fuel →
      ∃ r, LatestKvPolicy.handle_write_loop cfg k fuel
          (versions k ws ++ column KeyState.writes rest) = some r ∧
        LoopEnds k rest (entry_of cfg s (ws.find? fun q => q.2.write_type.changes_value)) r
  | 0, _, _, _, _, _, hlen => absurd hlen (Nat.not_lt_zero _)
  | _ + 1, [], _, _, hne, _, _ => absurd rfl hne
  | fuel + 1, (c, w) :: ws, pre_ws, hws, _, hle, hlen => by
    have hr := h.readable_at
    rw [List.find?_cons]
    by_cases hc : w.write_type.changes_value = true
    · rw [hc, versions_cons, List.cons_append, LatestKvPolicy.handle_write_loop,
        handle_write_turn_of_changes h hc]
      cases entry_of cfg s (some (c, w)) with
      | error e => exact ⟨_, rfl, rfl⟩
      | ok v => exact ⟨_, rfl, rfl, (c, w) :: ws, rfl⟩
    -- a Lock or Rollback record: its fence lets the read pass, and its pointer is sound
    have hnc : w.write_type.changes_value = false := by simpa using hc
    have hmem : (c, w) ∈ s.writes := by rw [hws]; simp
    have hf : w.check_gc_fence_as_latest_version cfg.ts = true :=
      hr.fences _ hmem (hle _ List.mem_cons_self) hnc
    have hptr : pointer_sound s.writes c w.last_change = true := hr.sound _ hmem hnc
    have hbelow := find?_below hr.desc hws
    simp only [hnc]
    -- the recursion goes on at a suffix of \x60ws\x60 with the same first change
    have hnext : ∀ ws₂ mid, ws = mid ++ ws₂ →
        ws₂.find? (fun q => q.2.write_type.changes_value) =
          ws.find? (fun q => q.2.write_type.changes_value) →
        LatestKvPolicy.handle_write_turn cfg k c w (versions k ws ++ column KeyState.writes rest) =
          .ok (.inr (versions k ws₂ ++ column KeyState.writes rest)) →
        ∃ r, LatestKvPolicy.handle_write_loop cfg k (fuel + 1)
            (versions k ((c, w) :: ws) ++ column KeyState.writes rest) = some r ∧
          LoopEnds k rest (entry_of cfg s (ws.find? fun q => q.2.write_type.changes_value)) r := by
      intro ws₂ mid hmid hfind ht
      rw [versions_cons, List.cons_append]
      refine handle_write_loop_of_inr h.sorted ht (fun hnil => ?_) fun hne => ?_
      · rw [← hfind, hnil]
        rfl
      · rw [← hfind]
        exact handle_write_loop_ends h fuel ws₂ (pre_ws ++ (c, w) :: mid) (by simp [hws, hmid]) hne
          (fun q hq => hle q (by simp [hmid, hq]))
          (by simp only [List.length_cons, hmid, List.length_append] at hlen; omega)
    rcases WriteType.eq_of_not_changes_value hnc with hlr | hlr <;>
    cases hlc : w.last_change with
    | NotExist =>
      simp only [pointer_sound, hlc, hbelow, Option.all_eq_true, beq_iff_eq] at hptr
      refine ⟨(.ok (some none), versions k ((c, w) :: ws) ++ column KeyState.writes rest),
        by simp [LatestKvPolicy.handle_write_loop, LatestKvPolicy.handle_write_turn, hf, hlr, hlc],
        ?_, (c, w) :: ws, rfl⟩
      cases hd : ws.find? fun q => q.2.write_type.changes_value with
      | none => rfl
      | some d => exact entry_of_not_put (by simp [hptr d hd])
    | Unknown =>
      exact hnext ws [] rfl rfl (by simp [LatestKvPolicy.handle_write_turn, hf, hlr, hlc])
    | Exist t n =>
      simp only [pointer_sound, hlc, hbelow, Bool.and_eq_true, decide_eq_true_eq,
        Option.all_eq_true, beq_iff_eq] at hptr
      by_cases hn : SEEK_BOUND ≤ n
      · refine hnext (ws.dropWhile fun q => decide (t < q.1)) (ws.takeWhile fun q => decide (t < q.1))
          List.takeWhile_append_dropWhile.symm
          (find?_dropWhile_of_find? fun d hd => by simp [hptr.1.2 d hd]) ?_
        simp [LatestKvPolicy.handle_write_turn, hf, hlr, hlc, hn, seek_last_change h hws hptr.1.1]
      · exact hnext ws [] rfl rfl (by simp [LatestKvPolicy.handle_write_turn, hf, hlr, hlc, hn])

theorem handle_write_at (h : SnapshotOf cfg (pre ++ (k, s) :: rest)) {ws pre_ws : List (Nat × Write)}
    (hws : s.writes = pre_ws ++ ws) (hne : ws ≠ []) (hle : ∀ q ∈ ws, q.1 ≤ cfg.ts) (c : Cursors K)
    (hc : c.write = versions k ws ++ column KeyState.writes rest) :
    ∃ c', LatestKvPolicy.handle_write cfg k c =
        some ((entry_of cfg s (ws.find? fun q => q.2.write_type.changes_value)).map
          (HandleRes.of_entry k), c') ∧
      ∀ v, entry_of cfg s (ws.find? fun q => q.2.write_type.changes_value) = .ok v →
        c' = { c with write := column KeyState.writes rest } := by
  obtain ⟨r, hloop, hends⟩ :=
    handle_write_loop_ends h (c.write.length + 1) ws pre_ws hws hne hle (by simp [hc])
  rw [← hc] at hloop
  rw [LatestKvPolicy.handle_write, hloop, Option.map_some]
  obtain ⟨_ | _ | v, w⟩ := r
  · -- the read failed: the cursor stays on the record
    exact ⟨_, by rw [hends]; rfl, fun v hv => by rw [hends] at hv; cases hv⟩
  · -- the cursor left the key before a change
    obtain ⟨hnone, hw⟩ := hends
    exact ⟨_, by rw [hnone]; rfl, fun _ _ => by rw [hw]⟩
  · -- a change or a stop at a fence: the cursor moves on to the next key
    obtain ⟨hv, ws', hw⟩ := hends
    have hmove := move_write_cursor_to_next_user_key_column h.sorted h.readable_at.pos
      { c with write := w } ws' hw
    rw [← h.write_cf] at hmove
    refine ⟨_, ?_, fun _ _ => hmove⟩
    rw [hv]
    cases v <;> rfl

theorem write_read_of_le (h : SnapshotOf cfg (pre ++ (k, s) :: rest)) {p : Nat × Write}
    {ws : List (Nat × Write)} (hps : s.writes = p :: ws)
    (hrc : ¬(cfg.isolation_level = .RcCheckTs ∧ cfg.ts < p.1)) :
    write_read cfg s = entry_of cfg s
      ((s.writes.dropWhile fun q => decide (cfg.ts < q.1)).find? fun q =>
        q.2.write_type.changes_value) := by
  rw [← find?_dropWhile h.readable_at.desc, write_read, hps]
  simp only [hrc, if_false]
  rw [latest_entry, hps]

theorem write_turn_at (h : SnapshotOf cfg (pre ++ (k, s) :: rest)) (hne : s.writes ≠ [])
    (c : Cursors K) (hc : c.write = versions k s.writes ++ column KeyState.writes rest) :
    ∃ c', ForwardScanner.write_turn cfg k true c =
        some (turn_of k { c with write := column KeyState.writes rest } c' (write_read cfg s)) ∧
      ∀ v, write_read cfg s = .ok v → c' = { c with write := column KeyState.writes rest } := by
  obtain ⟨p, ws, hps⟩ := List.exists_cons_of_ne_nil hne
  rw [ForwardScanner.write_turn, if_pos rfl, hc,
    move_write_cursor_to_ts_column cfg h.sorted h.write_cf hps]
  by_cases hrc : cfg.isolation_level = .RcCheckTs ∧ cfg.ts < p.1
  · -- the newest record is above the read
    have hw : write_read cfg s = .error (.WriteConflict cfg.ts 0 p.1) := by
      simp [write_read, hps, hrc]
    rw [if_pos hrc, hw]
    exact ⟨_, rfl, fun v hv => by cases hv⟩
  rw [if_neg hrc, write_read_of_le h hps hrc]
  cases hd : s.writes.dropWhile fun q => decide (cfg.ts < q.1) with
  | nil => exact ⟨_, rfl, fun _ _ => rfl⟩
  | cons q l =>
    have hle : ∀ q' ∈ q :: l, q'.1 ≤ cfg.ts := fun q' hq' =>
      mem_dropWhile_le h.readable_at.desc (by rw [hd]; exact hq')
    have hws : s.writes = s.writes.takeWhile (fun q => decide (cfg.ts < q.1)) ++ q :: l := by
      rw [← hd, List.takeWhile_append_dropWhile]
    obtain ⟨c', hhw, hok⟩ := handle_write_at h hws (List.cons_ne_nil q l) hle
      ⟨c.lock, versions k (q :: l) ++ column KeyState.writes rest⟩ rfl
    refine ⟨c', ?_, hok⟩
    simp only [List.isEmpty_cons, Bool.not_false, hhw, Option.map_some]
    cases he : entry_of cfg s ((q :: l).find? fun q => q.2.write_type.changes_value) with
    | error e => rfl
    | ok v =>
      cases v with
      | none => rw [hok none he]; rfl
      | some v => rfl

omit [LinearOrder K] in
theorem write_read_ne_locked (l : Lock) : write_read cfg s ≠ .error (.KeyIsLocked l) := by
  intro h
  unfold write_read latest_entry entry_of at h
  -- every branch ends in a value, a conflict or \x60Failed\x60
  repeat (first | cases h | split_ifs at h | split at h)

omit [LinearOrder K] in
theorem write_read_of_settles (hs : settles (write_read cfg s) = true) :
    ∃ v, write_read cfg s = .ok v := by
  cases hw : write_read cfg s with
  | ok v => exact ⟨v, rfl⟩
  | error e =>
    rw [hw] at hs
    cases e with
    | KeyIsLocked l => exact absurd hw (write_read_ne_locked l)
    | _ => cases hs

theorem load_data_by_lock_at (h : SnapshotOf cfg (pre ++ (k, s) :: rest)) (lock : Lock) :
    (LatestKvPolicy.load_data_by_lock cfg k lock).map (Option.map (⟨·, none⟩)) =
      lock_entry cfg s lock := by
  cases ht : lock.lock_type <;>
    simp only [LatestKvPolicy.load_data_by_lock, lock_entry, PointGetter.load_data_from_lock, ht,
      reduceCtorEq, and_false, if_false]
  · cases cfg.omit_value
    · cases lock.short_value with
      | some v => rfl
      | none =>
        simp only [if_false, Bool.false_eq_true, false_and, near_load_data_by_write_at h]
        cases List.lookup lock.ts s.defaults <;> rfl
    · rfl

theorem ne_rc_of_need_check_locks {isolation_level : IsolationLevel}
    (h : need_check_locks isolation_level = true) : isolation_level ≠ .Rc := by
  rintro rfl
  cases h

omit [LinearOrder K] in
theorem cursors_at_cons_of_lock (lock : Lock) (hneed : need_check_locks cfg.isolation_level = true)
    (hl : s.lock = some lock) :
    cursors_at cfg ((k, s) :: rest) =
      ⟨some ((k, lock) :: lock_column rest), versions k s.writes ++ column KeyState.writes rest⟩ := by
  simp [cursors_at, hneed, hl]

omit [LinearOrder K] in
theorem cursors_at_cons_of_no_lock
    (hl : (if need_check_locks cfg.isolation_level then s.lock else none) = none) :
    cursors_at cfg ((k, s) :: rest) =
      ⟨(cursors_at cfg rest).lock, versions k s.writes ++ column KeyState.writes rest⟩ := by
  by_cases hneed : need_check_locks cfg.isolation_level = true
  · rw [if_pos hneed] at hl
    simp [cursors_at, hneed, hl]
  · simp [cursors_at, hneed]

theorem write_turn_after_lock (h : SnapshotOf cfg (pre ++ (k, s) :: rest)) (c : Cursors K)
    (hlock : c.lock = (cursors_at cfg rest).lock)
    (hc : c.write = versions k s.writes ++ column KeyState.writes rest) :
    ∃ c', ForwardScanner.write_turn cfg k (!s.writes.isEmpty) c =
        some (turn_of k (cursors_at cfg rest) c' (write_read cfg s)) ∧
      (settles (write_read cfg s) = true → c' = cursors_at cfg rest) := by
  have hnext : ({ c with write := column KeyState.writes rest } : Cursors K) = cursors_at cfg rest := by
    rw [hlock]
    rfl
  cases hw : s.writes with
  | nil =>
    -- a lock without records: nothing to read
    have hc' : c = cursors_at cfg rest := by
      obtain ⟨l, w⟩ := c
      simp only at hlock hc
      rw [hlock, hc, hw]
      rfl
    refine ⟨c, ?_, fun _ => hc'⟩
    simp [ForwardScanner.write_turn, write_read, hw, turn_of, hc']
  | cons p ws =>
    obtain ⟨c', ht, hok⟩ := write_turn_at h (by simp [hw]) c hc
    refine ⟨c', by simpa [hnext] using ht, fun hs => ?_⟩
    obtain ⟨v, hv⟩ := write_read_of_settles hs
    rw [hok v hv, hnext]

theorem turn_at (to_raw : K → List UInt8) (h : SnapshotOf cfg (pre ++ (k, s) :: rest)) :
    ∃ c', ForwardScanner.turn to_raw cfg k (!s.writes.isEmpty)
        (need_check_locks cfg.isolation_level && s.lock.isSome) (cursors_at cfg ((k, s) :: rest)) =
        some (turn_of k (cursors_at cfg rest) c' (key_read to_raw cfg k s)) ∧
      (settles (key_read to_raw cfg k s) = true → c' = cursors_at cfg rest) := by
  unfold key_read
  cases hl : (if need_check_locks cfg.isolation_level then s.lock else none) with
  | none =>
    -- no lock in the way: the turn is that of the records
    have hskip : (need_check_locks cfg.isolation_level && s.lock.isSome) = false := by
      by_cases hneed : need_check_locks cfg.isolation_level = true
      · rw [if_pos hneed] at hl
        simp [hl]
      · simp [hneed]
    rw [cursors_at_cons_of_no_lock hl, hskip, ForwardScanner.turn, ForwardScanner.lock_turn,
      if_neg Bool.false_ne_true]
    exact write_turn_after_lock h _ rfl rfl
  | some lock =>
    have hneed : need_check_locks cfg.isolation_level = true := by
      by_contra hn
      rw [if_neg hn] at hl
      cases hl
    have hsl : s.lock = some lock := by rwa [if_pos hneed] at hl
    have hc1 : ((⟨some (lock_column rest), versions k s.writes ++ column KeyState.writes rest⟩ :
        Cursors K)).lock = (cursors_at cfg rest).lock := by simp [cursors_at, hneed]
    rw [cursors_at_cons_of_lock lock hneed hsl, hneed, hsl, ForwardScanner.turn]
    simp only [Bool.true_and, Option.isSome_some, ForwardScanner.lock_turn, if_true,
      LatestKvPolicy.handle_lock, if_neg (ne_rc_of_need_check_locks hneed)]
    cases hck : check_ts_conflict lock (to_raw k) cfg.ts cfg.bypass_locks cfg.isolation_level with
    | ok u => exact write_turn_after_lock h _ hc1 rfl
    | error err =>
      -- the lock is in the way: the write cursor moves past the key
      have hmove := move_write_cursor_to_next_user_key_column h.sorted h.readable_at.pos
        ⟨some (lock_column rest), versions k s.writes ++ column KeyState.writes rest⟩ s.writes rfl
      rw [← h.write_cf] at hmove
      have hc2 : ({ lock := some (lock_column rest), write := column KeyState.writes rest } :
          Cursors K) = cursors_at cfg rest := by simp [cursors_at, hneed]
      simp only [hmove, hc2]
      by_cases hacc : cfg.load_commit_ts = false ∧ lock.ts ∈ cfg.access_locks
      · rw [if_pos hacc, if_pos hacc, ← load_data_by_lock_at h lock]
        refine ⟨cursors_at cfg rest, ?_, fun _ => rfl⟩
        cases LatestKvPolicy.load_data_by_lock cfg k lock with
        | ok v => cases v <;> rfl
        | error e => rfl
      · rw [if_neg hacc, if_neg hacc]
        exact ⟨cursors_at cfg rest, rfl, fun _ => rfl⟩

end Key

/-! ### A whole call of \x60read_next\x60 -/

section Keys

variable {cfg : ScannerConfig K} {k : K} {s : KeyState} {m : List (K × KeyState)}

omit [LinearOrder K] in
theorem not_visible (hv : visible cfg s = false) :
    s.writes = [] ∧ (if need_check_locks cfg.isolation_level then s.lock else none) = none := by
  simp only [visible, Bool.or_eq_false_iff, Bool.not_eq_false', List.isEmpty_iff,
    Bool.and_eq_false_iff, Option.isSome_eq_false_iff, Option.isNone_iff_eq_none] at hv
  obtain ⟨hw, hl | hl⟩ := hv
  · exact ⟨hw, by simp [hl]⟩
  · exact ⟨hw, by simp [hl]⟩

omit [LinearOrder K] in
theorem cursors_at_of_not_visible (hv : visible cfg s = false) :
    cursors_at cfg ((k, s) :: m) = cursors_at cfg m := by
  obtain ⟨hw, hl⟩ := not_visible hv
  rw [cursors_at_cons_of_no_lock hl, hw]
  rfl

omit [LinearOrder K] in
theorem key_read_of_not_visible (to_raw : K → List UInt8) (hv : visible cfg s = false) :
    key_read to_raw cfg k s = .ok none := by
  obtain ⟨hw, hl⟩ := not_visible hv
  simp [key_read, hl, write_read, hw]

omit [LinearOrder K] in
theorem visible_count_cons (cfg : ScannerConfig K) (k : K) (s : KeyState) (m : List (K × KeyState)) :
    visible_count cfg ((k, s) :: m) = visible_count cfg m + if visible cfg s then 1 else 0 := by
  by_cases hv : visible cfg s = true <;> simp [visible_count, hv]

omit [LinearOrder K] in
theorem remaining_cursors_at_cons (cfg : ScannerConfig K) (k : K) (s : KeyState)
    (m : List (K × KeyState)) :
    (cursors_at cfg ((k, s) :: m)).remaining = (cursors_at cfg m).remaining + s.writes.length +
      if need_check_locks cfg.isolation_level && s.lock.isSome then 1 else 0 := by
  cases hneed : need_check_locks cfg.isolation_level <;> cases hsl : s.lock <;>
    simp [cursors_at, Cursors.remaining, hneed, hsl] <;> omega

omit [LinearOrder K] in
theorem visible_count_le_remaining (cfg : ScannerConfig K) (m : List (K × KeyState)) :
    visible_count cfg m ≤ (cursors_at cfg m).remaining := by
  induction m with
  | nil => simp [visible_count]
  | cons p m ih =>
    obtain ⟨k, s⟩ := p
    rw [visible_count_cons, remaining_cursors_at_cons]
    by_cases hv : visible cfg s = true
    · -- a key the cursors meet has an entry under one of them
      have hpos : 0 < s.writes.length +
          if need_check_locks cfg.isolation_level && s.lock.isSome then 1 else 0 := by
        simp only [visible, Bool.or_eq_true, Bool.not_eq_true', List.isEmpty_eq_false_iff] at hv
        rcases hv with hv | hv
        · exact Nat.add_pos_left (List.length_pos_iff.mpr hv) _
        · simp [hv]
      rw [if_pos hv]
      omega
    · rw [if_neg hv]
      omega

omit [LinearOrder K] in
theorem next_read_append_of_skips (to_raw : K → List UInt8) {skipped : List (K × KeyState)}
    (hskip : ∀ p ∈ skipped, key_read to_raw cfg p.1 p.2 = .ok none) :
    next_read to_raw cfg (skipped ++ m) = next_read to_raw cfg m := by
  induction skipped with
  | nil => rfl
  | cons p skipped ih =>
    obtain ⟨k, s⟩ := p
    rw [List.cons_append, next_read, hskip (k, s) List.mem_cons_self]
    exact ih fun p hp => hskip p (List.mem_cons_of_mem _ hp)

theorem read_next_loop_at (to_raw : K → List UInt8) :
    ∀ (m pre : List (K × KeyState)), SnapshotOf cfg (pre ++ m) →
      ∀ fuel, visible_count cfg m < fuel →
      ∃ c', ForwardScanner.read_next_loop to_raw cfg fuel (cursors_at cfg m) =
          some ((next_read to_raw cfg m).1, c') ∧
        (settles (next_read to_raw cfg m).1 = true →
          c' = cursors_at cfg (next_read to_raw cfg m).2)
  | [], _, _, fuel, hfuel => by
    obtain ⟨fuel, rfl⟩ : ∃ f, fuel = f + 1 := ⟨fuel - 1, by omega⟩
    refine ⟨cursors_at cfg [], ?_, fun _ => rfl⟩
    by_cases hneed : need_check_locks cfg.isolation_level = true <;>
      simp [ForwardScanner.read_next_loop, cursors_at, current_user_key, next_read, hneed]
  | (k, s) :: m, pre, h, fuel, hfuel => by
    have h' : SnapshotOf cfg ((pre ++ [(k, s)]) ++ m) := by simpa using h
    by_cases hv : visible cfg s = true
    · obtain ⟨fuel, rfl⟩ : ∃ f, fuel = f + 1 := ⟨fuel - 1, by omega⟩
      have hcount : visible_count cfg m < fuel := by
        simp only [visible_count, List.filter_cons, hv, if_true, List.length_cons] at hfuel
        exact Nat.lt_of_succ_lt_succ hfuel
      obtain ⟨c', hturn, hset⟩ := turn_at to_raw h
      rw [ForwardScanner.read_next_loop, current_user_key_at (List.pairwise_append.mp h.sorted).2.1 hv]
      simp only [hturn]
      cases hr : key_read to_raw cfg k s with
      | ok v =>
        cases v with
        | none =>
          simp only [turn_of, next_read, hr]
          exact read_next_loop_at to_raw m (pre ++ [(k, s)]) h' fuel hcount
        | some v =>
          refine ⟨c', by simp [turn_of, next_read, hr], fun _ => ?_⟩
          simp only [next_read, hr]
          exact hset (by simp [hr, settles])
      | error e =>
        refine ⟨c', by simp [turn_of, next_read, hr], fun hs => ?_⟩
        simp only [next_read, hr] at hs ⊢
        refine hset ?_
        rw [hr]
        cases e <;> first | rfl | cases hs
    · -- the cursors do not meet the key
      have hv' : visible cfg s = false := by simpa using hv
      rw [cursors_at_of_not_visible hv', next_read, key_read_of_not_visible to_raw hv']
      exact read_next_loop_at to_raw m (pre ++ [(k, s)]) h' fuel
        (by simpa [visible_count, hv'] using hfuel)

omit [LinearOrder K] in
theorem next_read_suffix (to_raw : K → List UInt8) (m : List (K × KeyState)) :
    ∃ mid, m = mid ++ (next_read to_raw cfg m).2 := by
  induction m with
  | nil => exact ⟨[], rfl⟩
  | cons p m ih =>
    obtain ⟨k, s⟩ := p
    obtain ⟨mid, hmid⟩ := ih
    unfold next_read
    split
    · exact ⟨(k, s) :: mid, by rw [List.cons_append, ← hmid]⟩
    · exact ⟨[(k, s)], rfl⟩
    · exact ⟨[(k, s)], rfl⟩

def PositionedAt (to_raw : K → List UInt8) (cfg : ScannerConfig K) (s : ForwardScanner K)
    (m : List (K × KeyState)) : Prop :=
  s.cfg = cfg ∧ ∃ pre skipped : List (K × KeyState), SnapshotOf cfg (pre ++ (skipped ++ m)) ∧
    (∀ p ∈ skipped, key_read to_raw cfg p.1 p.2 = .ok none) ∧
    (if s.is_started then s.cursors else ForwardScanner.start_cursors cfg s.cursors) =
      cursors_at cfg (skipped ++ m)

theorem read_next_at (to_raw : K → List UInt8) {s : ForwardScanner K}
    (hs : PositionedAt to_raw cfg s m) :
    ∃ s', s.read_next to_raw = some ((next_read to_raw cfg m).1, s') ∧
      (settles (next_read to_raw cfg m).1 = true →
        PositionedAt to_raw cfg s' (next_read to_raw cfg m).2) := by
  obtain ⟨hcfg, pre, skipped, h, hskip, hc⟩ := hs
  subst hcfg
  obtain ⟨c', hloop, hset⟩ := read_next_loop_at to_raw (skipped ++ m) pre h _
    (Nat.lt_succ_of_le (visible_count_le_remaining s.cfg (skipped ++ m)))
  rw [next_read_append_of_skips to_raw hskip] at hloop hset
  refine ⟨{ s with cursors := c', is_started := true }, ?_, fun hst => ?_⟩
  · rw [ForwardScanner.read_next]
    simp only [hc, hloop, Option.map_some]
  obtain ⟨mid, hmid⟩ : ∃ mid, m = mid ++ (next_read to_raw s.cfg m).2 := next_read_suffix to_raw m
  refine ⟨rfl, pre ++ skipped ++ mid, [], ?_, by simp, ?_⟩
  · rw [List.nil_append, List.append_assoc, List.append_assoc, ← hmid]
    exact h
  · simp [hset hst]

omit [LinearOrder K] in
theorem collect_of_limit (to_raw : K → List UInt8) {limit sample_step row_count : Nat}
    {results : List (Except ReadError (List UInt8 × ValueEntry))} (h : limit ≤ results.length)
    (l : List (K × Except ReadError (Option ValueEntry))) :
    collect to_raw limit sample_step row_count results l = .ok results := by
  cases l with
  | nil => rfl
  | cons r l =>
    obtain ⟨k, r⟩ := r
    simp [collect, not_lt.mpr h]

omit [LinearOrder K] in
theorem collect_skip (to_raw : K → List UInt8) {limit sample_step row_count : Nat}
    {results : List (Except ReadError (List UInt8 × ValueEntry))} (k : K)
    (l : List (K × Except ReadError (Option ValueEntry))) :
    collect to_raw limit sample_step row_count results ((k, .ok none) :: l) =
      collect to_raw limit sample_step row_count results l := by
  by_cases h : results.length < limit
  · simp [collect, h]
  · rw [collect, if_neg h, collect_of_limit to_raw (not_lt.mp h)]

theorem scan_loop_at (to_raw : K → List UInt8) (limit sample_step : Nat) :
    ∀ (m : List (K × KeyState)) (fuel row_count : Nat)
      (results : List (Except ReadError (List UInt8 × ValueEntry))) (s : ForwardScanner K),
      PositionedAt to_raw cfg s m → visible_count cfg m < fuel →
      scan_loop to_raw limit sample_step fuel row_count results s =
        some (collect to_raw limit sample_step row_count results (reads to_raw cfg m))
  | m, 0, _, _, _, _, hfuel => absurd hfuel (Nat.not_lt_zero _)
  | [], fuel + 1, row_count, results, s, hs, _ => by
    obtain ⟨s', hrn, -⟩ := read_next_at to_raw hs
    by_cases hl : results.length < limit
    · rw [scan_loop, if_pos hl, hrn]
      rfl
    · rw [scan_loop, if_neg hl]
      rfl
  | (k, s₀) :: m, fuel + 1, row_count, results, s, hs, hfuel => by
    by_cases hr : key_read to_raw cfg k s₀ = .ok none
    · -- a key with no value: the scanner passes it within its next call
      have hs' : PositionedAt to_raw cfg s m := by
        obtain ⟨hcfg, pre, skipped, h, hskip, hc⟩ := hs
        refine ⟨hcfg, pre, skipped ++ [(k, s₀)], by simpa using h, fun p hp => ?_, by simpa using hc⟩
        rcases List.mem_append.mp hp with hp | hp
        · exact hskip p hp
        · rw [List.mem_singleton.mp hp]
          exact hr
      rw [reads, List.map_cons, hr, collect_skip]
      exact scan_loop_at to_raw limit sample_step m (fuel + 1) row_count results s hs'
        (by rw [visible_count_cons] at hfuel; omega)
    -- a key the scan returns or fails on: the key is under the cursors
    have hv : visible cfg s₀ = true := by
      by_contra hv
      exact hr (key_read_of_not_visible to_raw (by simpa using hv))
    have hcount : visible_count cfg m < fuel := by
      rw [visible_count_cons, if_pos hv] at hfuel
      omega
    obtain ⟨s', hrn, hpos⟩ := read_next_at to_raw hs
    rw [scan_loop, reads, List.map_cons]
    by_cases hl : results.length < limit
    · rw [if_pos hl, hrn]
      cases hkr : key_read to_raw cfg k s₀ with
      | ok v =>
        cases v with
        | none => exact absurd hkr hr
        | some v =>
          have hpos' := hpos (by simp [next_read, hkr, settles])
          simp only [next_read, hkr, collect, if_pos hl] at hpos' ⊢
          split_ifs <;> exact scan_loop_at to_raw limit sample_step m fuel _ _ s' hpos' hcount
      | error e =>
        cases e with
        | KeyIsLocked lock =>
          have hpos' := hpos (by simp [next_read, hkr, settles])
          simp only [next_read, hkr, collect, if_pos hl] at hpos' ⊢
          exact scan_loop_at to_raw limit sample_step m fuel _ _ s' hpos' hcount
        | _ => simp [next_read, hkr, collect, hl]
    · rw [if_neg hl, collect_of_limit to_raw (not_lt.mp hl)]

end Keys

/-- A forward scan of a store at \x60cfg.ts\x60 returns what \x60StoreScanner::scan\x60 makes of the reads of the
keys within the bounds, in key order: with its \x60next\x60-then-seek moves and its jumps along
\x60last_change\x60 the scanner reads each key as a read of that key alone does. -/
theorem scan_eq_collect (to_raw : K → List UInt8) (cfg : ScannerConfig K) (st : List (K × KeyState))
    (hsorted : st.Pairwise fun a b => a.1 < b.1) (hr : ∀ p ∈ st, Readable cfg.ts p.2)
    (hsnap : cfg.snapshot = store_snapshot st) (limit sample_step : Nat) :
    (ForwardScanner.new cfg).scan to_raw limit sample_step =
      some (collect to_raw limit sample_step 0 []
        (reads to_raw cfg (st.filter fun p => in_range cfg.lower_bound cfg.upper_bound p.1))) := by
  set m := st.filter fun p => in_range cfg.lower_bound cfg.upper_bound p.1 with hm
  have hw : cfg.write_cf = column KeyState.writes m := by
    rw [ScannerConfig.write_cf, hsnap, store_snapshot, column_filter]
  have hl : cfg.lock_cf = lock_column m := by
    rw [ScannerConfig.lock_cf, hsnap, store_snapshot, lock_column_filter]
  have hsub : ∀ p ∈ m, p ∈ st := fun p hp => List.mem_of_mem_filter hp
  have h : SnapshotOf cfg m := ⟨hsorted.filter _, hw, fun p hp t => by
    rw [hsnap]
    exact lookup_default_column hsorted (hsub p hp) t, fun p hp => hr p (hsub p hp)⟩
  -- the new scanner's cursors are those before the first key of the store
  have hc : (ForwardScanner.new cfg).cursors = cursors_at cfg m := by
    simp only [ForwardScanner.new, cursors_at, hw, hl]
  have hpos : PositionedAt to_raw cfg (ForwardScanner.new cfg) m := by
    refine ⟨rfl, [], [], by simpa using h, by simp, ?_⟩
    rw [List.nil_append, ← hc]
    simp only [ForwardScanner.new, Bool.false_eq_true, if_false, start_cursors_eq]
    cases need_check_locks cfg.isolation_level <;> rfl
  rw [ForwardScanner.scan]
  exact scan_loop_at to_raw limit sample_step m _ 0 [] _ hpos
    (by rw [hc]; have := visible_count_le_remaining cfg m; omega)

def lock_pointer_key : KeyState :=
  ⟨none, [(12, ⟨.Lock, 11, none, false, none, .Exist 5 9⟩),
    (5, ⟨.Put, 4, none, false, none, .Unknown⟩)], [(4, [42])]⟩

def lock_pointer_store : List (Nat × KeyState) :=
  [(1, ⟨none, [(10, ⟨.Put, 9, some [1], false, none, .Unknown⟩)], []⟩), (2, lock_pointer_key)]

def lock_pointer_config : ScannerConfig Nat :=
  ⟨store_snapshot lock_pointer_store, false, false, .Si, none, none, 20, [], []⟩

def byte_key (n : Nat) : List UInt8 := [n.toUInt8]

theorem lock_pointer_key_readable : Readable 20 lock_pointer_key :=
  ⟨by decide, by decide, by unfold LastChangeSound; decide, by unfold FencesClear; decide⟩

theorem scan_eq_collect_lock_pointer :
    (lock_pointer_store.Pairwise fun a b => a.1 < b.1) ∧
      (∀ p ∈ lock_pointer_store, Readable 20 p.2) ∧
      (ForwardScanner.new lock_pointer_config).scan byte_key 10 0 =
        some (collect byte_key 10 0 0 []
          (reads byte_key lock_pointer_config
            (lock_pointer_store.filter fun p => in_range none none p.1))) :=
  have hsorted : lock_pointer_store.Pairwise fun a b => a.1 < b.1 := by decide
  have hr : ∀ p ∈ lock_pointer_store, Readable 20 p.2 := by
    intro p hp
    simp only [lock_pointer_store, List.mem_cons, List.not_mem_nil, or_false] at hp
    rcases hp with rfl | rfl
    · exact ⟨by decide, by decide, by unfold LastChangeSound; decide, by unfold FencesClear; decide⟩
    · exact lock_pointer_key_readable
  ⟨hsorted, hr, scan_eq_collect _ _ _ hsorted hr rfl 10 0⟩

/-! ### The scan and the point getter -/

section PointGet

variable {cfg : ScannerConfig K} {s : KeyState}

omit [LinearOrder K] in
theorem point_getter_load_data_answer (hr : Readable cfg.ts s) :
    PointGetter.load_data s.writes s.defaults cfg.ts =
      answer_of s.defaults cfg.ts
        (s.writes.find? fun q => decide (q.1 ≤ cfg.ts) && q.2.write_type.changes_value) := by
  rw [find?_dropWhile hr.desc]
  cases hw : s.writes with
  | nil => rfl
  | cons p rest =>
    rw [PointGetter.load_data, ← hw]
    · exact PointGetter.load_loop_answer hr.desc hr.sound hr.fences _ _
        List.takeWhile_append_dropWhile.symm fun q hq => mem_dropWhile_le hr.desc hq
    · exact List.cons_ne_nil p rest

omit [LinearOrder K] in
theorem read_data_eq (ts : Nat) :
    PointGetter.read_data s ts = (PointGetter.load_data s.writes s.defaults ts).elim (.error .Failed) .ok := by
  unfold PointGetter.read_data
  cases PointGetter.load_data s.writes s.defaults ts <;> rfl

omit [LinearOrder K] in
theorem entry_of_value (homit : cfg.omit_value = false) (o : Option (Nat × Write)) :
    (entry_of cfg s o).map (Option.map ValueEntry.value) =
      (answer_of s.defaults cfg.ts o).elim (.error .Failed) .ok := by
  rcases o with _ | ⟨c, w⟩
  · rfl
  · by_cases hput : w.write_type = .Put ∧ w.check_gc_fence_as_latest_version cfg.ts = true
    · simp only [entry_of, answer_of, if_pos hput, homit, Bool.false_eq_true, if_false]
      cases load_data s.defaults w <;> rfl
    · simp only [entry_of, answer_of, if_neg hput]
      rfl

omit [LinearOrder K] in
theorem write_read_value (hr : Readable cfg.ts s) (homit : cfg.omit_value = false)
    (hiso : cfg.isolation_level ≠ .RcCheckTs) :
    (write_read cfg s).map (Option.map ValueEntry.value) = PointGetter.read_data s cfg.ts := by
  have hlatest : (latest_entry cfg s).map (Option.map ValueEntry.value) =
      PointGetter.read_data s cfg.ts := by
    rw [latest_entry, entry_of_value homit, read_data_eq, point_getter_load_data_answer hr]
  unfold write_read
  split
  · rename_i hw
    rw [read_data_eq, hw]
    rfl
  · simp only [hiso, false_and, if_false]
    exact hlatest

omit [LinearOrder K] in
/-- A scan reads each key as the point getter does at the same timestamp, outside \x60RcCheckTs\x60 and
with the values loaded: the same value, the same lock in the way, the same failure. -/
theorem key_read_eq_get_entry (to_raw : K → List UInt8) (k : K) (hr : Readable cfg.ts s)
    (homit : cfg.omit_value = false) (hiso : cfg.isolation_level ≠ .RcCheckTs) :
    (key_read to_raw cfg k s).map (Option.map ValueEntry.value) =
      PointGetter.get_entry s (to_raw k) cfg.ts cfg.isolation_level cfg.bypass_locks
        cfg.access_locks cfg.load_commit_ts := by
  unfold key_read PointGetter.get_entry
  by_cases hneed : need_check_locks cfg.isolation_level = true
  · rw [if_pos hneed, if_pos hneed, PointGetter.load_and_check_lock]
    cases hsl : s.lock with
    | none => exact write_read_value hr homit hiso
    | some lock =>
      dsimp only
      cases hck : check_ts_conflict lock (to_raw k) cfg.ts cfg.bypass_locks cfg.isolation_level with
      | ok u => exact write_read_value hr homit hiso
      | error err =>
        dsimp only
        -- a lock in the way: both read through it exactly when its transaction may be accessed
        by_cases hacc : cfg.load_commit_ts = false ∧ lock.ts ∈ cfg.access_locks
        · have hacc' : (!cfg.load_commit_ts) = true ∧ lock.ts ∈ cfg.access_locks := by simpa using hacc
          simp only [if_pos hacc, if_pos hacc', lock_entry, homit, Bool.false_eq_true, false_and,
            if_false]
          cases PointGetter.load_data_from_lock s lock with
          | ok v => cases v <;> rfl
          | error e => rfl
        · have hacc' : ¬((!cfg.load_commit_ts) = true ∧ lock.ts ∈ cfg.access_locks) := by
            simpa using hacc
          simp only [if_neg hacc, if_neg hacc']
          rfl
  · rw [if_neg hneed, if_neg hneed]
    exact write_read_value hr homit hiso

theorem key_read_eq_get_entry_lock_pointer :
    Readable lock_pointer_config.ts lock_pointer_key ∧
      (key_read byte_key lock_pointer_config 2 lock_pointer_key).map
          (Option.map ValueEntry.value) =
        PointGetter.get_entry lock_pointer_key (byte_key 2) 20 .Si [] [] false :=
  ⟨lock_pointer_key_readable,
    key_read_eq_get_entry byte_key 2 lock_pointer_key_readable rfl (by decide)⟩

end PointGet

end Tikv.Mvcc
