import Tikv.Txn.SnapshotRead
import Tikv.Lib.Versioned

/-!
The forward scanner of MVCC (src/src/storage/mvcc/reader/scanner/forward.rs, with the
\x60LatestKvPolicy\x60 that \x60ScannerBuilder::build\x60 of scanner/mod.rs gives it) and the client loop
\x60StoreScanner::scan\x60 of src/src/storage/txn/store.rs. The scanner walks a write cursor and a lock
cursor together: each turn of \x60read_next\x60 takes the smaller user key under them, checks its lock,
moves the write cursor to the newest record at or below the read, and reads the value there,
following \x60last_change\x60 past Lock and Rollback records. A cursor moves by \x60next\x60 at most
\x60SEEK_BOUND\x60 times before it seeks.

The engine is modelled by its order. The write column family is its records
\x60(user_key, commit_ts, write)\x60 in the order of the encoded keys \x60user_key{commit_ts}\x60; a cursor
that only moves forward is the list of entries from its position on, and a seek finds the first
entry not below its target in the whole column family, within the cursor's bounds. The records
are parsed (their byte codecs are those of Tikv.Codec and Tikv.TxnTypes), so the decoding errors
are not modelled. Keys are of any linearly ordered type, the order of their encoding, and
\x60to_raw\x60 is \x60Key::to_raw\x60. The default cursor is read only at \x60key{start_ts}\x60, so it is a
lookup. A loop that the source runs until it finds its answer runs here on fuel taken from the
length of its cursors: \x60none\x60 is a loop that would not end.
-/

namespace Tikv.Mvcc

open Tikv.Txn Tikv.Lib.Versioned

variable {K : Type} [LinearOrder K]

structure ValueEntry where
  value : List UInt8
  commit_ts : Option Nat
  deriving DecidableEq, Repr

structure Snapshot (K : Type) where
  write : List (K × Nat × Write)
  lock : List (K × Lock)
  default : List ((K × Nat) × List UInt8)

structure ScannerConfig (K : Type) where
  snapshot : Snapshot K
  omit_value : Bool
  load_commit_ts : Bool
  isolation_level : IsolationLevel
  lower_bound : Option K
  upper_bound : Option K
  ts : Nat
  bypass_locks : List Nat
  access_locks : List Nat

def in_range (lower_bound upper_bound : Option K) (k : K) : Bool :=
  lower_bound.all (· ≤ k) && upper_bound.all (k < ·)

namespace ScannerConfig

def write_cf (cfg : ScannerConfig K) : List (K × Nat × Write) :=
  cfg.snapshot.write.filter fun e => in_range cfg.lower_bound cfg.upper_bound e.1

def lock_cf (cfg : ScannerConfig K) : List (K × Lock) :=
  cfg.snapshot.lock.filter fun e => in_range cfg.lower_bound cfg.upper_bound e.1

end ScannerConfig

def seek_write_cf (write_cf : List (K × Nat × Write)) (user_key : K) (ts : Nat) :
    List (K × Nat × Write) :=
  write_cf.dropWhile (lt_key · user_key ts)

def near_load_data_by_write (default : List ((K × Nat) × List UInt8)) (user_key : K)
    (write_start_ts : Nat) : Except ReadError (List UInt8) :=
  match List.lookup (user_key, write_start_ts) default with
  | some value => .ok value
  | none => .error .Failed

structure Cursors (K : Type) where
  lock : Option (List (K × Lock))
  write : List (K × Nat × Write)

def Cursors.remaining (c : Cursors K) : Nat :=
  c.write.length + (c.lock.map List.length).getD 0

def next_user_key_loop (current_user_key : K) :
    Nat → List (K × Nat × Write) → Option (List (K × Nat × Write))
  | _, [] => some []
  | n, e :: rest =>
    if e.1 ≠ current_user_key then some (e :: rest)
    else
      match n with
      | 0 => none
      | n + 1 => next_user_key_loop current_user_key n rest

@[simp]
theorem next_user_key_loop_of_ne {current_user_key : K} {e : K × Nat × Write} (h : e.1 ≠ current_user_key)
    (n : Nat) (rest : List (K × Nat × Write)) :
    next_user_key_loop current_user_key n (e :: rest) = some (e :: rest) := by
  cases n <;> simp [next_user_key_loop, h]

def Cursors.move_write_cursor_to_next_user_key (c : Cursors K) (write_cf : List (K × Nat × Write))
    (current_user_key : K) : Cursors K :=
  { c with
    write :=
      match next_user_key_loop current_user_key (SEEK_BOUND - 1) c.write with
      | some write => write
      | none => seek_write_cf write_cf current_user_key 0 }

inductive HandleRes (K : Type)
  | Return (output : K × ValueEntry)
  | Skip (key : K)
  | MoveToNext

def current_user_key : Option K → Option K → Option (K × Bool × Bool)
  | none, none => none
  | none, some k => some (k, false, true)
  | some k, none => some (k, true, false)
  | some wk, some lk =>
    match compare wk lk with
    | .lt => some (wk, true, false)
    | .gt => some (lk, false, true)
    | .eq => some (lk, true, true)

namespace ForwardScanner

def to_ts_loop (isolation_level : IsolationLevel) (ts : Nat) (user_key : K) :
    Nat → List (K × Nat × Write) → Except ReadError (Option Bool) × List (K × Nat × Write)
  | _, [] => (.ok (some false), [])
  | n, e :: rest =>
    if e.1 ≠ user_key then (.ok (some false), e :: rest)
    else if e.2.1 ≤ ts then (.ok (some true), e :: rest)
    else if isolation_level = .RcCheckTs then (.error (.WriteConflict ts 0 e.2.1), e :: rest)
    else
      match n with
      | 0 => (.ok none, e :: rest)
      | n + 1 => to_ts_loop isolation_level ts user_key n rest

section
variable {isolation_level : IsolationLevel} {ts : Nat} {user_key : K} {e : K × Nat × Write}

@[simp]
theorem to_ts_loop_of_ne (h : e.1 ≠ user_key) (n : Nat) (rest : List (K × Nat × Write)) :
    to_ts_loop isolation_level ts user_key n (e :: rest) = (.ok (some false), e :: rest) := by
  cases n <;> simp [to_ts_loop, h]

@[simp]
theorem to_ts_loop_of_le (h : e.1 = user_key) (hts : e.2.1 ≤ ts) (n : Nat)
    (rest : List (K × Nat × Write)) :
    to_ts_loop isolation_level ts user_key n (e :: rest) = (.ok (some true), e :: rest) := by
  cases n <;> simp [to_ts_loop, h, hts]

@[simp]
theorem to_ts_loop_of_conflict (h : e.1 = user_key) (hts : ts < e.2.1)
    (hiso : isolation_level = .RcCheckTs) (n : Nat) (rest : List (K × Nat × Write)) :
    to_ts_loop isolation_level ts user_key n (e :: rest) =
      (.error (.WriteConflict ts 0 e.2.1), e :: rest) := by
  cases n <;> simp [to_ts_loop, h, not_le.mpr hts, hiso]

end

/-- \x60move_write_cursor_to_ts\x60: the loop, then a seek to \x60user_key{ts}\x60. The cursor it is called
on is valid (\x60assert!\x60). -/
def move_write_cursor_to_ts (cfg : ScannerConfig K) (user_key : K) :
    List (K × Nat × Write) → Except ReadError Bool × List (K × Nat × Write)
  | [] => (.error .Failed, [])
  | e :: rest =>
    match to_ts_loop cfg.isolation_level cfg.ts user_key (SEEK_BOUND - 1) (e :: rest) with
    | (.ok (some is_current), write) => (.ok is_current, write)
    | (.error err, write) => (.error err, write)
    | (.ok none, _) =>
      match seek_write_cf cfg.write_cf user_key cfg.ts with
      | [] => (.ok false, [])
      | e :: rest => (.ok (decide (e.1 = user_key)), e :: rest)

end ForwardScanner

namespace LatestKvPolicy

/-- \x60load_data_by_lock\x60 of scanner/mod.rs, forward: the value a lock read through carries. A
Lock or pessimistic lock never conflicts, so it is never read through (\x60unreachable!\x60). -/
def load_data_by_lock (cfg : ScannerConfig K) (current_user_key : K) (lock : Lock) :
    Except ReadError (Option (List UInt8)) :=
  match lock.lock_type with
  | .Put =>
    if cfg.omit_value then .ok (some [])
    else
      match lock.short_value with
      | some value => .ok (some value)
      | none => (near_load_data_by_write cfg.snapshot.default current_user_key lock.ts).map some
  | .Delete => .ok none
  | .Lock | .Pessimistic => .error .Failed

def handle_lock (to_raw : K → List UInt8) (cfg : ScannerConfig K) (current_user_key : K)
    (c : Cursors K) : Except ReadError (HandleRes K) × Cursors K :=
  if cfg.isolation_level = .Rc then (.ok (.Skip current_user_key), c)
  else
    match c.lock with
    | none | some [] => (.error .Failed, c)
    | some ((_, lock) :: rest) =>
      let c := { c with lock := some rest }
      match check_ts_conflict lock (to_raw current_user_key) cfg.ts cfg.bypass_locks
          cfg.isolation_level with
      | .ok () => (.ok (.Skip current_user_key), c)
      | .error err =>
        let c := c.move_write_cursor_to_next_user_key cfg.write_cf current_user_key
        if cfg.load_commit_ts = false ∧ lock.ts ∈ cfg.access_locks then
          match load_data_by_lock cfg current_user_key lock with
          | .ok (some value) => (.ok (.Return (current_user_key, ⟨value, none⟩)), c)
          | .ok none => (.ok .MoveToNext, c)
          | .error err => (.error err, c)
        else (.error err, c)

def handle_write_turn (cfg : ScannerConfig K) (current_user_key : K) (commit_ts : Nat)
    (write : Write) (rest : List (K × Nat × Write)) :
    Except ReadError (Option ValueEntry ⊕ List (K × Nat × Write)) :=
  if !write.check_gc_fence_as_latest_version cfg.ts then .ok (.inl none)
  else
    match write.write_type with
    | .Put =>
      let commit_ts := if cfg.load_commit_ts then some commit_ts else none
      if cfg.omit_value then .ok (.inl (some ⟨[], commit_ts⟩))
      else
        match write.short_value with
        | some value => .ok (.inl (some ⟨value, commit_ts⟩))
        | none =>
          (near_load_data_by_write cfg.snapshot.default current_user_key write.start_ts).map
            fun value => .inl (some ⟨value, commit_ts⟩)
    | .Delete => .ok (.inl none)
    | .Lock | .Rollback =>
      match write.last_change with
      | .NotExist => .ok (.inl none)
      | .Exist last_change_ts estimated_versions_to_last_change =>
        if SEEK_BOUND ≤ estimated_versions_to_last_change then
          .ok (.inr (seek_write_cf cfg.write_cf current_user_key last_change_ts))
        else .ok (.inr rest)
      | .Unknown => .ok (.inr rest)

def handle_write_loop (cfg : ScannerConfig K) (current_user_key : K) :
    Nat → List (K × Nat × Write) →
      Option (Except ReadError (Option (Option ValueEntry)) × List (K × Nat × Write))
  | 0, _ => none
  | _ + 1, [] => some (.error .Failed, [])
  | fuel + 1, (k, commit_ts, write) :: rest =>
    match handle_write_turn cfg current_user_key commit_ts write rest with
    | .error err => some (.error err, (k, commit_ts, write) :: rest)
    | .ok (.inl value) => some (.ok (some value), (k, commit_ts, write) :: rest)
    | .ok (.inr []) => some (.ok none, [])
    | .ok (.inr (e :: w)) =>
      if e.1 ≠ current_user_key then some (.ok none, e :: w)
      else handle_write_loop cfg current_user_key fuel (e :: w)

def handle_write (cfg : ScannerConfig K) (current_user_key : K) (c : Cursors K) :
    Option (Except ReadError (HandleRes K) × Cursors K) :=
  (handle_write_loop cfg current_user_key (c.write.length + 1) c.write).map fun
    | (.error err, write) => (.error err, { c with write })
    | (.ok none, write) => (.ok (.Skip current_user_key), { c with write })
    | (.ok (some value), write) =>
      let c := ({ c with write } : Cursors K).move_write_cursor_to_next_user_key cfg.write_cf
        current_user_key
      match value with
      | some value => (.ok (.Return (current_user_key, value)), c)
      | none => (.ok (.Skip current_user_key), c)

end LatestKvPolicy

structure ForwardScanner (K : Type) where
  cfg : ScannerConfig K
  cursors : Cursors K
  is_started : Bool

namespace ForwardScanner

def new (cfg : ScannerConfig K) : ForwardScanner K :=
  ⟨cfg, ⟨if need_check_locks cfg.isolation_level then some cfg.lock_cf else none, cfg.write_cf⟩,
    false⟩

def lock_turn (to_raw : K → List UInt8) (cfg : ScannerConfig K) (current_user_key : K)
    (has_lock : Bool) (c : Cursors K) : Except ReadError (HandleRes K) × Cursors K :=
  if has_lock then LatestKvPolicy.handle_lock to_raw cfg current_user_key c
  else (.ok (.Skip current_user_key), c)

def write_turn (cfg : ScannerConfig K) (current_user_key : K) (has_write : Bool) (c : Cursors K) :
    Option ((Except ReadError (Option (K × ValueEntry)) × Cursors K) ⊕ Cursors K) :=
  if has_write then
    match move_write_cursor_to_ts cfg current_user_key c.write with
    | (.error err, write) => some (.inl (.error err, { c with write }))
    | (.ok false, write) => some (.inr { c with write })
    | (.ok true, write) =>
      (LatestKvPolicy.handle_write cfg current_user_key { c with write }).map fun
        | (.error err, c) => .inl (.error err, c)
        | (.ok (.Return output), c) => .inl (.ok (some output), c)
        | (.ok _, c) => .inr c
  else some (.inr c)

def turn (to_raw : K → List UInt8) (cfg : ScannerConfig K) (current_user_key : K)
    (has_write has_lock : Bool) (c : Cursors K) :
    Option ((Except ReadError (Option (K × ValueEntry)) × Cursors K) ⊕ Cursors K) :=
  match lock_turn to_raw cfg current_user_key has_lock c with
  | (.error err, c) => some (.inl (.error err, c))
  | (.ok (.Return output), c) => some (.inl (.ok (some output), c))
  | (.ok .MoveToNext, c) => some (.inr c)
  | (.ok (.Skip current_user_key), c) => write_turn cfg current_user_key has_write c

def read_next_loop (to_raw : K → List UInt8) (cfg : ScannerConfig K) :
    Nat → Cursors K → Option (Except ReadError (Option (K × ValueEntry)) × Cursors K)
  | 0, _ => none
  | fuel + 1, c =>
    match current_user_key (c.write.head?.map (·.1)) ((c.lock.bind List.head?).map (·.1)) with
    | none => some (.ok none, c)
    | some (current_user_key, has_write, has_lock) =>
      match turn to_raw cfg current_user_key has_write has_lock c with
      | none => none
      | some (.inl r) => some r
      | some (.inr c) => read_next_loop to_raw cfg fuel c

def start_cursors (cfg : ScannerConfig K) (c : Cursors K) : Cursors K :=
  match cfg.lower_bound with
  | some lower_bound =>
    ⟨c.lock.map fun _ => cfg.lock_cf.dropWhile (·.1 < lower_bound),
      cfg.write_cf.dropWhile (·.1 < lower_bound)⟩
  | none => ⟨c.lock.map fun _ => cfg.lock_cf, cfg.write_cf⟩

def read_next (to_raw : K → List UInt8) (s : ForwardScanner K) :
    Option (Except ReadError (Option (K × ValueEntry)) × ForwardScanner K) :=
  let c := if s.is_started then s.cursors else start_cursors s.cfg s.cursors
  (read_next_loop to_raw s.cfg (c.remaining + 1) c).map fun r =>
    (r.1, { s with cursors := r.2, is_started := true })

end ForwardScanner

def scan_loop (to_raw : K → List UInt8) (limit sample_step : Nat) :
    Nat → Nat → List (Except ReadError (List UInt8 × ValueEntry)) → ForwardScanner K →
      Option (Except ReadError (List (Except ReadError (List UInt8 × ValueEntry))))
  | 0, _, _, _ => none
  | fuel + 1, row_count, results, s =>
    if results.length < limit then
      match s.read_next to_raw with
      | none => none
      | some (.ok (some (k, v)), s) =>
        if 0 < sample_step then
          if row_count % sample_step ≠ 0 then
            scan_loop to_raw limit sample_step fuel (row_count + 1) results s
          else scan_loop to_raw limit sample_step fuel (row_count + 1) (results ++ [.ok (to_raw k, v)]) s
        else scan_loop to_raw limit sample_step fuel row_count (results ++ [.ok (to_raw k, v)]) s
      | some (.ok none, _) => some (.ok results)
      | some (.error (.KeyIsLocked lock), s) =>
        scan_loop to_raw limit sample_step fuel row_count (results ++ [.error (.KeyIsLocked lock)]) s
      | some (.error err, _) => some (.error err)
    else some (.ok results)

def ForwardScanner.scan (to_raw : K → List UInt8) (s : ForwardScanner K) (limit sample_step : Nat) :
    Option (Except ReadError (List (Except ReadError (List UInt8 × ValueEntry)))) :=
  scan_loop to_raw limit sample_step (s.cursors.remaining + 2) 0 [] s

theorem start_cursors_eq (cfg : ScannerConfig K) (c : Cursors K) :
    ForwardScanner.start_cursors cfg c = ⟨c.lock.map fun _ => cfg.lock_cf, cfg.write_cf⟩ := by
  unfold ForwardScanner.start_cursors
  split
  · rename_i lower_bound hlb
    have hdrop : ∀ {α : Type} (l : List (K × α)),
        (l.filter fun e => in_range cfg.lower_bound cfg.upper_bound e.1).dropWhile
          (·.1 < lower_bound) = l.filter fun e => in_range cfg.lower_bound cfg.upper_bound e.1 := by
      intro α l
      cases hl : l.filter fun e => in_range cfg.lower_bound cfg.upper_bound e.1 with
      | nil => rfl
      | cons e l' =>
        have hmem : e ∈ l.filter fun e => in_range cfg.lower_bound cfg.upper_bound e.1 := by
          rw [hl]
          exact List.mem_cons_self
        have he : in_range cfg.lower_bound cfg.upper_bound e.1 = true := (List.mem_filter.mp hmem).2
        simp only [in_range, hlb, Option.all_some, Bool.and_eq_true, decide_eq_true_eq] at he
        exact List.dropWhile_cons_of_neg (by simpa using he.1)
    simp only [ScannerConfig.write_cf, ScannerConfig.lock_cf, hdrop]
  · rfl

theorem current_user_key_eq {wk lk : Option K} {k : K} (hw : ∀ x ∈ wk, k ≤ x)
    (hl : ∀ x ∈ lk, k ≤ x) (h : wk = some k ∨ lk = some k) :
    current_user_key wk lk = some (k, decide (wk = some k), decide (lk = some k)) := by
  rcases h with rfl | rfl
  · cases lk with
    | none => simp [current_user_key]
    | some b =>
      rcases (hl b rfl).lt_or_eq with hb | rfl
      · simp [current_user_key, compare_lt_iff_lt.mpr hb, hb.ne']
      · simp [current_user_key]
  · cases wk with
    | none => simp [current_user_key]
    | some a =>
      rcases (hw a rfl).lt_or_eq with ha | rfl
      · simp [current_user_key, compare_gt_iff_gt.mpr ha, ha.ne']
      · simp [current_user_key]

/-! ### The cursors over the versions of one key

A cursor on the first record of `k` sees `versions k ws ++ tail`, where `tail` starts with
another key. -/

section Cursor

variable {k : K} {tail : List (K × Nat × Write)}

theorem next_user_key_loop_versions (htail : ∀ e ∈ tail.head?, e.1 ≠ k) :
    ∀ (n : Nat) (ws : List (Nat × Write)),
      next_user_key_loop k n (versions k ws ++ tail) = some tail ∨
        next_user_key_loop k n (versions k ws ++ tail) = none
  | n, [] => by
    cases tail with
    | nil => simp [next_user_key_loop]
    | cons e rest => simp [htail e rfl]
  | 0, p :: ws => by simp [next_user_key_loop]
  | n + 1, p :: ws => by simpa [next_user_key_loop] using next_user_key_loop_versions htail n ws

theorem column_head_ne {pre rest : List (K × KeyState)} {s : KeyState}
    (hs : (pre ++ (k, s) :: rest).Pairwise fun a b => a.1 < b.1) :
    ∀ e ∈ (column KeyState.writes rest).head?, e.1 ≠ k := by
  have hrest : ∀ p ∈ rest, k < p.1 := fun p hp =>
    List.rel_of_pairwise_cons (List.pairwise_append.mp hs).2.1 hp
  exact fun e he => ne_of_gt (column_keys_gt hrest e (List.mem_of_mem_head? he))

variable {pre rest : List (K × KeyState)} {s : KeyState}

theorem move_write_cursor_to_next_user_key_column
    (hs : (pre ++ (k, s) :: rest).Pairwise fun a b => a.1 < b.1) (hpos : ∀ p ∈ s.writes, 0 < p.1)
    (c : Cursors K) (ws : List (Nat × Write))
    (hc : c.write = versions k ws ++ column KeyState.writes rest) :
    c.move_write_cursor_to_next_user_key (column KeyState.writes (pre ++ (k, s) :: rest)) k =
      { c with write := column KeyState.writes rest } := by
  have hseek : seek_write_cf (column KeyState.writes (pre ++ (k, s) :: rest)) k 0 =
      column KeyState.writes rest := by
    rw [seek_write_cf, dropWhile_column hs, List.dropWhile_eq_nil_iff.mpr (by simpa using hpos),
      versions_nil, List.nil_append]
  simp only [Cursors.move_write_cursor_to_next_user_key, hc]
  rcases next_user_key_loop_versions (column_head_ne hs) (SEEK_BOUND - 1) ws with h | h <;>
    rw [h]
  rw [hseek]

theorem to_ts_loop_versions (isolation_level : IsolationLevel) (ts : Nat)
    (htail : ∀ e ∈ tail.head?, e.1 ≠ k) :
    ∀ (n : Nat) (ws : List (Nat × Write)),
      (∀ p ∈ ws.head?, isolation_level = .RcCheckTs → p.1 ≤ ts) →
      (ForwardScanner.to_ts_loop isolation_level ts k n (versions k ws ++ tail)).1 = .ok none ∨
        ForwardScanner.to_ts_loop isolation_level ts k n (versions k ws ++ tail) =
          (.ok (some !(ws.dropWhile fun p => decide (ts < p.1)).isEmpty),
            versions k (ws.dropWhile fun p => decide (ts < p.1)) ++ tail)
  | n, [], _ => by
    cases tail with
    | nil => simp [ForwardScanner.to_ts_loop]
    | cons e rest => simp [htail e rfl]
  | n, p :: ws, hrc => by
    by_cases hp : p.1 ≤ ts
    · right
      simp [hp]
    -- a record above the read: no conflict, so the loop goes on to the next one
    have hiso : isolation_level ≠ .RcCheckTs := fun h => hp (hrc p rfl h)
    have hdrop : (p :: ws).dropWhile (fun q => decide (ts < q.1)) =
        ws.dropWhile fun q => decide (ts < q.1) :=
      List.dropWhile_cons_of_pos (by simpa using hp)
    cases n with
    | zero => left; simp [ForwardScanner.to_ts_loop, hp, hiso]
    | succ n =>
      rw [hdrop]
      simpa [ForwardScanner.to_ts_loop, hp, hiso] using
        to_ts_loop_versions isolation_level ts htail n ws fun _ _ h => absurd h hiso

theorem move_write_cursor_to_ts_column (cfg : ScannerConfig K)
    (hs : (pre ++ (k, s) :: rest).Pairwise fun a b => a.1 < b.1)
    (hcf : cfg.write_cf = column KeyState.writes (pre ++ (k, s) :: rest)) {p : Nat × Write}
    {ws : List (Nat × Write)} (hw : s.writes = p :: ws) :
    ForwardScanner.move_write_cursor_to_ts cfg k (versions k s.writes ++ column KeyState.writes rest) =
      if cfg.isolation_level = .RcCheckTs ∧ cfg.ts < p.1 then
        (.error (.WriteConflict cfg.ts 0 p.1), versions k s.writes ++ column KeyState.writes rest)
      else
        (.ok !(s.writes.dropWhile fun q => decide (cfg.ts < q.1)).isEmpty,
          versions k (s.writes.dropWhile fun q => decide (cfg.ts < q.1)) ++
            column KeyState.writes rest) := by
  rw [hw, versions_cons, List.cons_append, ForwardScanner.move_write_cursor_to_ts]
  split_ifs with hrc
  · rw [ForwardScanner.to_ts_loop_of_conflict (e := (k, p)) rfl hrc.2 hrc.1]
  have hhead : ∀ q ∈ (p :: ws).head?, cfg.isolation_level = .RcCheckTs → q.1 ≤ cfg.ts := by
    intro q hq hiso
    cases hq
    exact not_lt.mp fun h => hrc ⟨hiso, h⟩
  have hloop := to_ts_loop_versions cfg.isolation_level cfg.ts (column_head_ne hs)
    (SEEK_BOUND - 1) (p :: ws) hhead
  rw [versions_cons, List.cons_append] at hloop
  rcases hloop with hnone | hsome
  · -- the loop ran out of turns: the seek to `k{ts}` lands on the same place
    obtain ⟨w, hw'⟩ : ∃ w, ForwardScanner.to_ts_loop cfg.isolation_level cfg.ts k (SEEK_BOUND - 1)
        ((k, p) :: (versions k ws ++ column KeyState.writes rest)) = (.ok none, w) :=
      ⟨_, Prod.ext hnone rfl⟩
    rw [hw', seek_write_cf, hcf, dropWhile_column hs, hw]
    cases hd : (p :: ws).dropWhile fun q => decide (cfg.ts < q.1) with
    | nil =>
      cases hr : column KeyState.writes rest with
      | nil => rfl
      | cons e l =>
        have he := column_head_ne hs e (by rw [hr]; rfl)
        simp [he]
    | cons q l => simp
  · rw [hsome]

end Cursor

end Tikv.Mvcc
