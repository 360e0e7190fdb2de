import Tikv.TxnTypes.Lock
import Tikv.Lib.SortedList

/-!
\x60SharedLocks\x60 as components/txn_types/src/lock.rs stores it: a set of flags, and a hash map
from the start ts of each transaction holding the key to a segment, which is the bytes of that
transaction's lock until it is first read (\x60Either::Left\x60) and the parsed lock after
(\x60Either::Right\x60). \x60SharedLocks\x60 of the Lock module is the view the transaction actions
take, with every segment parsed and no flags; here are the flags, the lazily parsed segments,
the bytes, and the calls that change them.

A hash map holds each key once; the model keeps its entries in a list with distinct keys, in an
order that stands for the map's unspecified iteration order. \x60parse\x60 stores each segment
under the start ts its bytes begin with, and the updates store a lock under its own start ts;
what every reachable value keeps is that each segment is stored under the start ts of the lock
it holds. The flags are a \x60bitflags\x60 set of one flag, \x60SHRINK_ONLY\x60, which only
\x60set_shrink_only\x60 changes, and only to set it.

\x60to_bytes\x60 writes every segment as compact bytes, a parsed lock by \x60Lock::to_bytes\x60,
which does not write \x60use_one_pc\x60: the bytes parse back to the same flags and the same
mapping from start ts to lock exactly for the locks that \x60Lock::to_bytes\x60 and
\x60Lock::parse\x60 give back.
-/

namespace Tikv.TxnTypes.Encoded

open Tikv.Codec Tikv.Lib.AssocList Tikv.TxnTypes

def SHARED_LOCK_TXNS_INFO_PREFIX : UInt8 := 'h'.toUInt8

def SHARED_LOCK_FLAGS_PREFIX : UInt8 := 'i'.toUInt8

/-- SharedLocksFlags, a \x60bitflags\x60 set of the one flag SHRINK_ONLY (0b0000_0001): the set is
whether that flag is in it. -/
structure SharedLocksFlags where
  shrink_only : Bool
  deriving DecidableEq, Repr

namespace SharedLocksFlags

def SHRINK_ONLY_BITS : UInt8 := 0b0000_0001

def empty : SharedLocksFlags := ⟨false⟩

def is_empty (self : SharedLocksFlags) : Bool := !self.shrink_only

def bits (self : SharedLocksFlags) : UInt8 := if self.shrink_only then SHRINK_ONLY_BITS else 0

def from_bits (bits : UInt8) : Option SharedLocksFlags :=
  if bits &&& ~~~SHRINK_ONLY_BITS = 0 then some ⟨bits &&& SHRINK_ONLY_BITS != 0⟩ else none

theorem from_bits_bits (f : SharedLocksFlags) : from_bits f.bits = some f := by
  obtain ⟨_ | _⟩ := f <;> decide

end SharedLocksFlags

abbrev Segment := List UInt8 ⊕ Lock

def Segment.lock : Segment → Except Error Lock
  | .inl encoded => Lock.parse encoded
  | .inr lock => .ok lock

def Segment.to_bytes : Segment → Except Error (List UInt8)
  | .inl v => .ok v
  | .inr l => l.to_bytes

structure SharedLocks where
  flags : SharedLocksFlags
  txn_info_segments : List (UInt64 × Segment)
  nodup : (keys txn_info_segments).Nodup

namespace SharedLocks

def new : SharedLocks := ⟨SharedLocksFlags.empty, [], List.nodup_nil⟩

def len (self : SharedLocks) : Nat := self.txn_info_segments.length

def is_empty (self : SharedLocks) : Bool := self.txn_info_segments.isEmpty

def is_shrink_only (self : SharedLocks) : Bool := self.flags.shrink_only

def set_shrink_only (self : SharedLocks) : SharedLocks := { self with flags := ⟨true⟩ }

def contains_start_ts (self : SharedLocks) (start_ts : UInt64) : Bool :=
  (self.txn_info_segments.lookup start_ts).isSome

def iter_ts (self : SharedLocks) : List UInt64 := keys self.txn_info_segments

def insert_segment (self : SharedLocks) (ts : UInt64) (seg : Segment) : SharedLocks :=
  { self with txn_info_segments := insert ts seg self.txn_info_segments,
              nodup := nodup_insert self.nodup }

def remove_segment (self : SharedLocks) (ts : UInt64) : SharedLocks :=
  { self with txn_info_segments := erase ts self.txn_info_segments,
              nodup := nodup_filter self.nodup }

def view (self : SharedLocks) (ts : UInt64) : Option (Except Error Lock) :=
  (self.txn_info_segments.lookup ts).map Segment.lock

def parse_txn_infos : Nat → List UInt8 → SharedLocks → Except Error (SharedLocks × List UInt8)
  | 0, b, segments => .ok (segments, b)
  | len + 1, b, segments => do
    let (lock_bytes, b) ← codec_decode_compact_bytes b
    let lock_ts ← decode_lock_start_ts lock_bytes
    parse_txn_infos len b (segments.insert_segment lock_ts (.inl lock_bytes))

theorem length_parse_txn_infos_le : ∀ {len : Nat} {b : List UInt8} {acc acc' : SharedLocks}
    {rest : List UInt8}, parse_txn_infos len b acc = .ok (acc', rest) → rest.length ≤ b.length
  | 0, b, acc, acc', rest, h => by
    cases h
    exact Nat.le_refl _
  | len + 1, b, acc, acc', rest, h => by
    simp only [parse_txn_infos, bind, Except.bind] at h
    split at h
    · cases h
    · rename_i v hv
      split at h
      · cases h
      · have := consumes_codec_decode_compact_bytes hv
        have := length_parse_txn_infos_le h
        omega

def parse_fields (b : List UInt8) (acc : SharedLocks) : Except Error SharedLocks :=
  match b with
  | [] => .ok acc
  | x :: b =>
    if x = SHARED_LOCK_FLAGS_PREFIX then
      match _h : ReadBytesExt.read_u8 b with
      | .error e => .error e
      | .ok (flags_byte, b') =>
        match SharedLocksFlags.from_bits flags_byte with
        | none => .error .BadFormatLock
        | some flags => parse_fields b' { acc with flags := flags }
    else if x = SHARED_LOCK_TXNS_INFO_PREFIX then
      match _hd : codec_decode_var_u64 b with
      | .error e => .error e
      | .ok (len, b') =>
        match _hs : parse_txn_infos len.toNat b' acc with
        | .error e => .error e
        | .ok (acc', b'') => parse_fields b'' acc'
    -- an unknown byte ends the fields, for forward compatibility
    else .ok acc
termination_by b.length
decreasing_by
  all_goals simp only [List.length_cons]
  · have := consumes_read_u8_io ‹_›
    omega
  · have := consumes_codec_decode_var_u64 ‹_›
    have := length_parse_txn_infos_le ‹_›
    omega

def parse (b : List UInt8) : Except Error SharedLocks := do
  if b.isEmpty then throw .BadFormatLock
  let (lock_type_byte, b) ← ReadBytesExt.read_u8 b
  let some lock_type := LockType.from_u8 lock_type_byte | throw .BadFormatLock
  -- assert!(lock_type == LockType::Shared)
  if lock_type ≠ .Shared then throw .Panic
  if b.isEmpty then return new
  parse_fields b new

def to_bytes (self : SharedLocks) : Except Error (List UInt8) := do
  let segs ← self.txn_info_segments.mapM fun p => p.2.to_bytes
  pure (LockType.Shared.to_u8 ::
    ((if !self.flags.is_empty then [SHARED_LOCK_FLAGS_PREFIX, self.flags.bits] else []) ++
      SHARED_LOCK_TXNS_INFO_PREFIX :: (encode_var_u64 (UInt64.ofNat self.len) ++
        segs.flatMap encode_compact_bytes)))

def get_lock (self : SharedLocks) (ts : UInt64) : Except Error (Option Lock) × SharedLocks :=
  match self.txn_info_segments.lookup ts with
  | none => (.ok none, self)
  | some (.inl encoded) =>
    match Lock.parse encoded with
    | .ok lock => (.ok (some lock), self.insert_segment ts (.inr lock))
    | .error e => (.error e, self)
  | some (.inr lock) => (.ok (some lock), self)

def remove_lock (self : SharedLocks) (ts : UInt64) : Except Error (Option Lock) × SharedLocks :=
  match self.txn_info_segments.lookup ts with
  | none => (.ok none, self)
  | some seg => (seg.lock.map some, self.remove_segment ts)

def insert_lock (self : SharedLocks) (lock : Lock) : Except Error Unit × SharedLocks :=
  -- assert!(matches!(lock_type, LockType::Lock | LockType::Pessimistic))
  if !(lock.lock_type = .Lock || lock.lock_type = .Pessimistic) then (.error .Panic, self)
  else if self.is_shrink_only then
    (.error (.InvalidOperation ("cannot insert new lock #" ++ toString lock.ts ++
      " into shrink-only SharedLocks")), self)
  else if self.contains_start_ts lock.ts then
    (.error (.InvalidOperation ("lock #" ++ toString lock.ts ++ " already exists in SharedLocks")),
      self)
  else (.ok (), self.insert_segment lock.ts (.inr lock))

def update_lock (self : SharedLocks) (lock : Lock) : Except Error Unit × SharedLocks :=
  if !(lock.lock_type = .Lock || lock.lock_type = .Pessimistic) then (.error .Panic, self)
  else if !self.contains_start_ts lock.ts then
    (.error (.InvalidOperation ("lock #" ++ toString lock.ts ++ " does not exist in SharedLocks")),
      self)
  else (.ok (), self.insert_segment lock.ts (.inr lock))

def filter_visit (f : Lock → Bool) :
    List (UInt64 × Segment) → Except Error (List UInt64) × List (UInt64 × Segment)
  | [] => (.ok [], [])
  | (ts, seg) :: rest =>
    match seg.lock with
    | .error e => (.error e, (ts, seg) :: rest)
    | .ok lock =>
      let (to_remove, rest') := filter_visit f rest
      (to_remove.map fun r => if f lock then r else ts :: r, (ts, .inr lock) :: rest')

theorem keys_filter_visit (f : Lock → Bool) :
    ∀ segs : List (UInt64 × Segment), keys (filter_visit f segs).2 = keys segs
  | [] => rfl
  | (ts, seg) :: rest => by
    simp only [filter_visit]
    split
    · rfl
    · rw [keys_cons, keys_cons, keys_filter_visit f rest]

def filter_shared_locks (self : SharedLocks) (f : Lock → Bool) : Except Error Unit × SharedLocks :=
  let visited : SharedLocks := { self with
    txn_info_segments := (filter_visit f self.txn_info_segments).2
    nodup := by rw [keys_filter_visit]; exact self.nodup }
  match (filter_visit f self.txn_info_segments).1 with
  | .error e => (.error e, visited)
  | .ok to_remove => (.ok (), to_remove.foldl remove_segment visited)

def truncate_to (self : SharedLocks) (n : Nat) : SharedLocks :=
  if self.len ≤ n then self
  else
    let all_ts := self.iter_ts.mergeSort fun a b => decide (a ≤ b)
    (all_ts.drop n).foldl remove_segment self

inductive Op
  | get_lock (ts : UInt64)
  | insert_lock (lock : Lock)
  | update_lock (lock : Lock)
  | remove_lock (ts : UInt64)
  | filter_shared_locks (f : Lock → Bool)
  | truncate_to (n : Nat)
  | set_shrink_only

def step (self : SharedLocks) : Op → SharedLocks
  | .get_lock ts => (self.get_lock ts).2
  | .insert_lock lock => (self.insert_lock lock).2
  | .update_lock lock => (self.update_lock lock).2
  | .remove_lock ts => (self.remove_lock ts).2
  | .filter_shared_locks f => (self.filter_shared_locks f).2
  | .truncate_to n => self.truncate_to n
  | .set_shrink_only => self.set_shrink_only

def run (self : SharedLocks) (ops : List Op) : SharedLocks := ops.foldl step self

def Reachable (s : SharedLocks) : Prop :=
  ∃ start ops, (start = new ∨ ∃ b, parse b = .ok start) ∧ s = start.run ops

end SharedLocks

section LockTs

theorem Lock.of_fields_ts {lock_type : LockType} {primary : List UInt8} {ts ttl : UInt64}
    {f : Lock.Fields} {l : Lock} (h : Lock.of_fields lock_type primary ts ttl f = .ok l) :
    l.ts = ts ∧ l.lock_type = lock_type := by
  simp only [Lock.of_fields, bind, Except.bind] at h
  split at h
  · cases h
  · simp only [pure, Except.pure, Except.ok.injEq] at h
    subst h
    split <;> exact ⟨rfl, rfl⟩

theorem Lock.parse_tail_ts {lock_type : LockType} {primary : List UInt8} {ts : UInt64}
    {b : List UInt8} {l : Lock}
    (h : (do
      let (ttl, b) ← if b.isEmpty then pure (0, b) else codec_decode_var_u64 b
      if b.isEmpty then pure (Lock.new lock_type primary ts ttl none 0 0 0 false)
      else do
        let f ← Lock.parse_fields b {}
        Lock.of_fields lock_type primary ts ttl f : Except Error Lock) = .ok l) :
    l.ts = ts ∧ l.lock_type = lock_type := by
  simp only [bind, Except.bind, pure, Except.pure] at h
  repeat' split at h
  all_goals first
    | exact Lock.of_fields_ts h
    | (cases h <;> exact ⟨rfl, rfl⟩)

theorem decode_lock_start_ts_of_parse {b : List UInt8} {l : Lock} (h : Lock.parse b = .ok l) :
    decode_lock_start_ts b = .ok l.ts ∧ l.lock_type ≠ .Shared := by
  match b, h with
  | [], h => nomatch h
  | x :: rest, h =>
    rw [Lock.parse] at h
    simp only [List.isEmpty_cons, ReadBytesExt.read_u8, bind, Except.bind, Bool.false_eq_true,
      if_false] at h
    cases ht : LockType.from_u8 x with
    | none => simp [ht] at h
    | some lock_type =>
      by_cases hs : lock_type = .Shared
      · simp [ht, hs] at h
      simp only [ht, if_neg hs] at h
      cases hp : codec_decode_compact_bytes rest with
      | error e => simp [hp] at h
      | ok v =>
        simp only [hp] at h
        cases hv : codec_decode_var_u64 v.2 with
        | error e => simp [hv] at h
        | ok w =>
          simp only [hv] at h
          obtain ⟨hts, htype⟩ := Lock.parse_tail_ts h
          refine ⟨?_, htype ▸ hs⟩
          -- decode_lock_start_ts reads the type, the primary and the ts as the parse did
          have htype' : decode_lock_type (x :: rest) = .ok lock_type := by
            simp [decode_lock_type, ht]
          rw [decode_lock_start_ts, htype', hts]
          cases lock_type <;> first
            | exact absurd rfl hs
            | simp [List.drop_succ_cons, hp, hv, bind, Except.bind, pure, Except.pure]

end LockTs

def SegmentTs (ts : UInt64) : Segment → Prop
  | .inl encoded => decode_lock_start_ts encoded = .ok ts
  | .inr lock => lock.ts = ts ∧ lock.lock_type ≠ .Shared

theorem SegmentTs.lock {ts : UInt64} {seg : Segment} (h : SegmentTs ts seg) {l : Lock}
    (hl : seg.lock = .ok l) : l.ts = ts ∧ l.lock_type ≠ .Shared := by
  cases seg with
  | inl encoded =>
    obtain ⟨hts, htype⟩ := decode_lock_start_ts_of_parse hl
    rw [SegmentTs, hts, Except.ok.injEq] at h
    exact ⟨h, htype⟩
  | inr lock =>
    cases hl
    exact h

section Reload

/-- The conditions under which \x60Lock::to_bytes\x60 and \x60Lock::parse\x60 give a lock back: not
a shared lock, no one-pc flag (which \x60to_bytes\x60 does not write), a short value that fits its
length byte, secondaries only with async commit, a last change with positive parts, and vectors
that fit in memory. -/
structure Lock.Encodable (l : Lock) : Prop where
  not_shared : l.lock_type ≠ .Shared
  not_one_pc : l.use_one_pc = false
  short_value : ∀ v ∈ l.short_value, v.length ≤ SHORT_VALUE_MAX_LEN
  secondaries : l.use_async_commit = false → l.secondaries = []
  last_change : ∀ ts n, l.last_change = .Exist ts n → 0 < ts ∧ 0 < n
  vec : l.primary.length ≤ ISIZE_MAX ∧ l.secondaries.length ≤ ISIZE_MAX ∧
    (∀ k ∈ l.secondaries, k.length ≤ ISIZE_MAX) ∧ l.rollback_ts.length ≤ ISIZE_MAX

theorem Lock.Encodable.parse_to_bytes {l : Lock} (h : Lock.Encodable l) {v : List UInt8}
    (hv : l.to_bytes = .ok v) : Lock.parse v = .ok l := by
  have hparse := Lock.parse_to_bytes_append l h.not_shared h.not_one_pc h.short_value
    h.secondaries h.last_change h.vec hv [] (by simp)
  rwa [List.append_nil] at hparse

theorem length_primary_le_of_to_bytes {l : Lock} {v : List UInt8} (hv : l.to_bytes = .ok v) :
    l.primary.length ≤ v.length := by
  rw [Lock.to_bytes] at hv
  split at hv
  · cases hv
  · cases hv
    simp only [List.length_cons, List.length_append, encode_compact_bytes]
    omega

theorem SegmentTs.to_bytes_ok {ts : UInt64} {seg : Segment} (h : SegmentTs ts seg) :
    ∃ v, seg.to_bytes = .ok v := by
  cases seg with
  | inl encoded => exact ⟨encoded, rfl⟩
  | inr lock =>
    rw [Segment.to_bytes, Lock.to_bytes, if_neg h.2]
    exact ⟨_, rfl⟩

theorem SegmentTs.decode_to_bytes {ts : UInt64} {seg : Segment} (h : SegmentTs ts seg)
    {v : List UInt8} (hv : seg.to_bytes = .ok v) (hlen : v.length ≤ ISIZE_MAX) :
    decode_lock_start_ts v = .ok ts := by
  cases seg with
  | inl encoded =>
    cases hv
    exact h
  | inr lock =>
    have hdec := decode_lock_start_ts_to_bytes
      (Nat.le_trans (length_primary_le_of_to_bytes hv) hlen) hv []
    rw [List.append_nil, h.1] at hdec
    exact hdec

theorem Segment.parse_to_bytes {seg : Segment}
    (henc : ∀ lock, seg = .inr lock → Lock.Encodable lock) {v : List UInt8}
    (hv : seg.to_bytes = .ok v) : Lock.parse v = seg.lock := by
  cases seg with
  | inl encoded =>
    cases hv
    rfl
  | inr lock => exact (henc lock rfl).parse_to_bytes hv

end Reload

namespace SharedLocks

def Wf (self : SharedLocks) : Prop :=
  ∀ p ∈ self.txn_info_segments, SegmentTs p.1 p.2

section Wf

variable {self : SharedLocks}

theorem wf_new : new.Wf := fun _ h => nomatch h

theorem Wf.insert_segment (hw : self.Wf) {ts : UInt64} {seg : Segment} (hs : SegmentTs ts seg) :
    (self.insert_segment ts seg).Wf := fun p hp => by
  rcases mem_insert hp with rfl | hp
  · exact hs
  · exact hw p hp

theorem Wf.remove_segment (hw : self.Wf) (ts : UInt64) : (self.remove_segment ts).Wf :=
  fun p hp => hw p (List.mem_filter.mp hp).1

theorem Wf.foldl_remove_segment (hw : self.Wf) (tss : List UInt64) :
    (tss.foldl SharedLocks.remove_segment self).Wf := by
  induction tss generalizing self with
  | nil => exact hw
  | cons ts tss ih => exact ih (hw.remove_segment ts)

theorem Wf.set_shrink_only (hw : self.Wf) : self.set_shrink_only.Wf := hw

theorem Wf.get_lock (hw : self.Wf) (ts : UInt64) : (self.get_lock ts).2.Wf := by
  unfold SharedLocks.get_lock
  split
  · exact hw
  · rename_i encoded hl
    split
    · -- the lock parsed from the bytes has the ts they were stored under
      rename_i lock hp
      exact hw.insert_segment ((show SegmentTs ts (.inl encoded) from hw _ (mem_of_lookup hl)).lock hp)
    · exact hw
  · exact hw

theorem Wf.remove_lock (hw : self.Wf) (ts : UInt64) : (self.remove_lock ts).2.Wf := by
  unfold SharedLocks.remove_lock
  split
  · exact hw
  · exact hw.remove_segment ts

theorem SegmentTs.of_lock_type {lock : Lock}
    (h : ¬(!(lock.lock_type = .Lock || lock.lock_type = .Pessimistic)) = true) :
    SegmentTs lock.ts (.inr lock) := by
  refine ⟨rfl, fun hs => ?_⟩
  rw [hs] at h
  exact h rfl

theorem Wf.insert_lock (hw : self.Wf) (lock : Lock) : (self.insert_lock lock).2.Wf := by
  unfold SharedLocks.insert_lock
  split
  · exact hw
  · split
    · exact hw
    · split
      · exact hw
      · rename_i htype _ _
        exact hw.insert_segment (SegmentTs.of_lock_type htype)

theorem Wf.update_lock (hw : self.Wf) (lock : Lock) : (self.update_lock lock).2.Wf := by
  unfold SharedLocks.update_lock
  split
  · exact hw
  · split
    · exact hw
    · rename_i htype _
      exact hw.insert_segment (SegmentTs.of_lock_type htype)

theorem segmentTs_filter_visit (f : Lock → Bool) :
    ∀ {segs : List (UInt64 × Segment)}, (∀ p ∈ segs, SegmentTs p.1 p.2) →
      ∀ p ∈ (filter_visit f segs).2, SegmentTs p.1 p.2
  | [], _ => fun _ h => nomatch h
  | (ts, seg) :: rest, hs => by
    have hhead := hs (ts, seg) List.mem_cons_self
    have hrest := segmentTs_filter_visit f fun p hp => hs p (List.mem_cons_of_mem _ hp)
    simp only [filter_visit]
    split
    · exact hs
    · rename_i lock hl
      intro p hp
      rcases List.mem_cons.mp hp with rfl | hp
      · exact hhead.lock hl
      · exact hrest p hp

theorem Wf.filter_shared_locks (hw : self.Wf) (f : Lock → Bool) :
    (self.filter_shared_locks f).2.Wf := by
  have hvisit : ∀ p ∈ (filter_visit f self.txn_info_segments).2, SegmentTs p.1 p.2 :=
    segmentTs_filter_visit f hw
  unfold SharedLocks.filter_shared_locks
  split
  · exact hvisit
  · refine Wf.foldl_remove_segment ?_ _
    exact hvisit

theorem Wf.truncate_to (hw : self.Wf) (n : Nat) : (self.truncate_to n).Wf := by
  unfold SharedLocks.truncate_to
  split
  · exact hw
  · exact hw.foldl_remove_segment _

theorem Wf.step (hw : self.Wf) (op : Op) : (self.step op).Wf := by
  cases op with
  | get_lock ts => exact hw.get_lock ts
  | insert_lock lock => exact hw.insert_lock lock
  | update_lock lock => exact hw.update_lock lock
  | remove_lock ts => exact hw.remove_lock ts
  | filter_shared_locks f => exact hw.filter_shared_locks f
  | truncate_to n => exact hw.truncate_to n
  | set_shrink_only => exact hw.set_shrink_only

theorem Wf.run (hw : self.Wf) (ops : List Op) : (self.run ops).Wf := by
  induction ops generalizing self with
  | nil => exact hw
  | cons op ops ih => exact ih (hw.step op)

theorem Wf.parse_txn_infos : ∀ {len : Nat} {b : List UInt8} {acc acc' : SharedLocks}
    {rest : List UInt8}, acc.Wf → parse_txn_infos len b acc = .ok (acc', rest) → acc'.Wf
  | 0, _, _, _, _, hw, h => by
    cases h
    exact hw
  | len + 1, b, acc, acc', rest, hw, h => by
    simp only [SharedLocks.parse_txn_infos, bind, Except.bind] at h
    split at h
    · cases h
    · split at h
      · cases h
      · rename_i lock_ts hts
        exact Wf.parse_txn_infos (hw.insert_segment (show SegmentTs lock_ts (.inl _) from hts)) h

theorem Wf.parse_fields {b : List UInt8} {acc s : SharedLocks} (hw : acc.Wf)
    (h : SharedLocks.parse_fields b acc = .ok s) : s.Wf := by
  fun_induction SharedLocks.parse_fields b acc with
  | case1 | case8 =>
    cases h
    exact hw
  | case2 | case3 | case5 | case6 => cases h
  -- the flags field leaves the segments as they were
  | case4 _ _ _ _ _ _ _ ih => exact ih hw h
  | case7 _ _ _ _ _ _ _ hs _ ih => exact ih (hw.parse_txn_infos hs) h

theorem parse_eq_ok {b : List UInt8} {s : SharedLocks} (h : parse b = .ok s) :
    s = new ∨ ∃ rest, SharedLocks.parse_fields rest new = .ok s := by
  unfold SharedLocks.parse at h
  have hb : b.isEmpty = false := by
    cases hb : b.isEmpty
    · rfl
    · simp [hb, throw, throwThe, MonadExceptOf.throw, bind, Except.bind] at h
  cases hr : ReadBytesExt.read_u8 b with
  | error e => simp [hb, hr, bind, Except.bind] at h
  | ok r =>
    obtain ⟨byte, rest⟩ := r
    cases ht : LockType.from_u8 byte with
    | none => simp [hb, hr, ht, throw, throwThe, MonadExceptOf.throw, bind, Except.bind] at h
    | some lock_type =>
      by_cases hs : lock_type = .Shared
      · by_cases he : rest.isEmpty
        · left
          simp [hb, hr, ht, hs, he, bind, Except.bind, pure, Except.pure] at h
          exact h.symm
        · right
          refine ⟨rest, ?_⟩
          simpa [hb, hr, ht, hs, he, bind, Except.bind] using h
      · simp [hb, hr, ht, hs, throw, throwThe, MonadExceptOf.throw, bind, Except.bind] at h

theorem Wf.parse {b : List UInt8} {s : SharedLocks} (h : parse b = .ok s) : s.Wf := by
  rcases parse_eq_ok h with rfl | ⟨rest, hp⟩
  · exact wf_new
  · exact wf_new.parse_fields hp

end Wf

theorem Reachable.wf {s : SharedLocks} (hs : s.Reachable) : s.Wf := by
  obtain ⟨start, ops, hstart, rfl⟩ := hs
  have hw : start.Wf := by
    rcases hstart with rfl | ⟨b, hb⟩
    · exact wf_new
    · exact Wf.parse hb
  exact hw.run ops

section Flags

variable {self : SharedLocks}

theorem flags_foldl_remove_segment (tss : List UInt64) :
    (tss.foldl remove_segment self).flags = self.flags := by
  induction tss generalizing self with
  | nil => rfl
  | cons ts tss ih => exact ih

theorem flags_step (op : Op) :
    (self.step op).flags = self.flags ∨ (self.step op).is_shrink_only = true := by
  cases op with
  | get_lock ts =>
    left
    simp only [step, SharedLocks.get_lock]
    split
    · rfl
    · split <;> rfl
    · rfl
  | insert_lock lock =>
    left
    simp only [step, SharedLocks.insert_lock]
    split_ifs <;> rfl
  | update_lock lock =>
    left
    simp only [step, SharedLocks.update_lock]
    split_ifs <;> rfl
  | remove_lock ts =>
    left
    simp only [step, SharedLocks.remove_lock]
    split <;> rfl
  | filter_shared_locks f =>
    left
    simp only [step, SharedLocks.filter_shared_locks]
    split
    · rfl
    · exact flags_foldl_remove_segment _
  | truncate_to n =>
    left
    simp only [step, SharedLocks.truncate_to]
    split_ifs
    · rfl
    · exact flags_foldl_remove_segment _
  | set_shrink_only => exact .inr rfl

theorem is_shrink_only_run (h : self.is_shrink_only = true) (ops : List Op) :
    (self.run ops).is_shrink_only = true := by
  induction ops generalizing self with
  | nil => exact h
  | cons op ops ih =>
    apply ih
    have hstep : (self.step op).flags = self.flags ∨ (self.step op).is_shrink_only = true :=
      flags_step op
    rcases hstep with hf | hs
    · rw [is_shrink_only, hf]
      exact h
    · exact hs

theorem insert_lock_of_is_shrink_only (h : self.is_shrink_only = true) (lock : Lock) :
    ∃ e, self.insert_lock lock = (.error e, self) := by
  unfold SharedLocks.insert_lock
  split_ifs <;> exact ⟨_, rfl⟩

theorem insert_lock_of_contains_start_ts {lock : Lock}
    (h : self.contains_start_ts lock.ts = true) :
    ∃ e, self.insert_lock lock = (.error e, self) := by
  unfold SharedLocks.insert_lock
  split_ifs <;> exact ⟨_, rfl⟩

end Flags

section Truncate

open Tikv.Lib.SortedList

theorem txn_info_segments_foldl_remove_segment (tss : List UInt64) (self : SharedLocks) :
    (tss.foldl remove_segment self).txn_info_segments =
      self.txn_info_segments.filter fun p => decide (p.1 ∉ tss) := by
  induction tss generalizing self with
  | nil => simp
  | cons ts tss ih =>
    rw [List.foldl_cons, ih]
    simp only [remove_segment, erase, List.filter_filter]
    apply List.filter_congr
    intro p _
    simp [Bool.and_comm]

theorem txn_info_segments_truncate_to (self : SharedLocks) (n : Nat) :
    (self.truncate_to n).txn_info_segments =
      self.txn_info_segments.filter fun p => decide (countLt self.iter_ts p.1 < n) := by
  have hmem : ∀ p ∈ self.txn_info_segments, p.1 ∈ self.iter_ts := fun p hp =>
    List.mem_map_of_mem hp
  unfold SharedLocks.truncate_to
  split
  · -- with at most n segments, every start ts has fewer than n below it
    rename_i hle
    symm
    apply List.filter_eq_self.mpr
    intro p hp
    have hlt := countLt_lt_length (hmem p hp)
    have hlen : self.iter_ts.length = self.len := List.length_map _
    simp only [decide_eq_true_eq]
    omega
  · rw [txn_info_segments_foldl_remove_segment]
    apply List.filter_congr
    intro p hp
    -- the start ts past the first n of the sorted list are those with n or more below them
    have hperm := List.mergeSort_perm self.iter_ts fun a b => decide (a ≤ b)
    have hdrop : p.1 ∈ (self.iter_ts.mergeSort fun a b => decide (a ≤ b)).drop n ↔
        n ≤ countLt self.iter_ts p.1 := by
      rw [mem_drop_iff_le_countLt (pairwise_lt_mergeSort (l := self.iter_ts) self.nodup),
        hperm.mem_iff, countLt_perm hperm]
      exact and_iff_right (hmem p hp)
    simp [hdrop]

theorem len_truncate_to (self : SharedLocks) (n : Nat) : (self.truncate_to n).len = min n self.len := by
  have hperm := List.mergeSort_perm self.iter_ts fun a b => decide (a ≤ b)
  have hsorted := pairwise_lt_mergeSort (l := self.iter_ts) self.nodup
  have hcount : ∀ t, countLt self.iter_ts t = countLt (self.iter_ts.mergeSort fun a b => decide (a ≤ b)) t :=
    fun t => (countLt_perm hperm t).symm
  calc (self.truncate_to n).len
      = (self.iter_ts.filter fun t => decide (countLt self.iter_ts t < n)).length := by
        rw [len, txn_info_segments_truncate_to, iter_ts, keys, List.filter_map, List.length_map]
        rfl
    _ = ((self.iter_ts.mergeSort fun a b => decide (a ≤ b)).filter
          fun t => decide (countLt (self.iter_ts.mergeSort fun a b => decide (a ≤ b)) t < n)).length := by
        simp only [hcount]
        exact ((hperm.filter _).length_eq).symm
    _ = min n self.len := by
        rw [filter_countLt_lt hsorted, List.length_take, List.length_mergeSort, iter_ts, keys,
          List.length_map, len]

end Truncate

section RoundTrip

open Tikv.Lib.Decoder

theorem parse_fields_nil (acc : SharedLocks) : SharedLocks.parse_fields [] acc = .ok acc := by
  rw [SharedLocks.parse_fields]

theorem parse_fields_flags {bits : UInt8} {flags : SharedLocksFlags}
    (h : SharedLocksFlags.from_bits bits = some flags) (b : List UInt8) (acc : SharedLocks) :
    SharedLocks.parse_fields (SHARED_LOCK_FLAGS_PREFIX :: bits :: b) acc =
      SharedLocks.parse_fields b { acc with flags := flags } := by
  rw [SharedLocks.parse_fields]
  simp [ReadBytesExt.read_u8, h]

theorem parse_fields_txn_infos {len : UInt64} {b rest : List UInt8} {acc acc' : SharedLocks}
    (h : parse_txn_infos len.toNat b acc = .ok (acc', rest)) :
    SharedLocks.parse_fields (SHARED_LOCK_TXNS_INFO_PREFIX :: (encode_var_u64 len ++ b)) acc =
      SharedLocks.parse_fields rest acc' := by
  have hne : SHARED_LOCK_TXNS_INFO_PREFIX ≠ SHARED_LOCK_FLAGS_PREFIX := by decide
  rw [SharedLocks.parse_fields, if_neg hne, if_pos rfl]
  -- the matches name their scrutinees, so they are split rather than rewritten
  split
  · rename_i hd
    rw [codec_decode_var_u64_encode_var_u64] at hd
    cases hd
  · rename_i hd
    rw [codec_decode_var_u64_encode_var_u64] at hd
    cases hd
    split
    · rename_i hs
      rw [h] at hs
      cases hs
    · rename_i hs
      rw [h] at hs
      cases hs
      rfl

theorem parse_shared {b : List UInt8} (hb : b ≠ []) :
    parse (LockType.Shared.to_u8 :: b) = SharedLocks.parse_fields b new := by
  simp [SharedLocks.parse, ReadBytesExt.read_u8, LockType.from_u8_to_u8,
    List.isEmpty_eq_false_iff.mpr hb, bind, Except.bind]

theorem parse_txn_infos_to_bytes (rest : List UInt8) :
    ∀ {l : List (UInt64 × Segment)} {segs : List (List UInt8)} (acc : SharedLocks),
      List.Forall₂ (fun p v => p.2.to_bytes = .ok v) l segs →
      (∀ p ∈ l, SegmentTs p.1 p.2) → (∀ v ∈ segs, v.length ≤ ISIZE_MAX) →
      (keys (acc.txn_info_segments ++ l)).Nodup →
      ∃ acc', parse_txn_infos l.length (segs.flatMap encode_compact_bytes ++ rest) acc =
          .ok (acc', rest) ∧ acc'.flags = acc.flags ∧
        acc'.txn_info_segments =
          acc.txn_info_segments ++ List.zipWith (fun p v => (p.1, .inl v)) l segs
  | [], [], acc, .nil, _, _, _ => ⟨acc, rfl, rfl, by simp⟩
  | (ts, seg) :: l, v :: segs, acc, .cons hv hf, hts, hlen, hnd => by
    have hdec := (hts (ts, seg) List.mem_cons_self).decode_to_bytes hv (hlen v List.mem_cons_self)
    -- the start ts is not stored yet, so its segment goes at the end
    have hins : (acc.insert_segment ts (.inl v)).txn_info_segments =
        acc.txn_info_segments ++ [(ts, .inl v)] :=
      insert_of_lookup_eq_none (lookup_eq_none_iff_not_mem_keys.mpr (not_mem_keys_of_split hnd).1)
    obtain ⟨acc', hparse, hflags, hsegs⟩ := parse_txn_infos_to_bytes rest
      (acc.insert_segment ts (.inl v)) hf
      (fun q hq => hts q (List.mem_cons_of_mem _ hq)) (fun w hw => hlen w (List.mem_cons_of_mem v hw))
      (by simpa [hins] using hnd)
    refine ⟨acc', ?_, hflags, ?_⟩
    · simp only [List.length_cons, parse_txn_infos, List.flatMap_cons, List.append_assoc,
        codec_decode_compact_bytes_encode (hlen v List.mem_cons_self), hdec, bind, Except.bind]
      exact hparse
    · rw [hsegs, hins]
      simp

theorem lookup_zipWith_inl (ts : UInt64) :
    ∀ {l : List (UInt64 × Segment)} {segs : List (List UInt8)},
      List.Forall₂ (fun p v => p.2.to_bytes = .ok v) l segs →
      (∀ p ∈ l, ∀ lock, p.2 = .inr lock → Lock.Encodable lock) →
      ((List.zipWith (fun p v => (p.1, (.inl v : Segment))) l segs).lookup ts).map Segment.lock =
        (l.lookup ts).map Segment.lock
  | [], [], .nil, _ => rfl
  | (ts', seg) :: l, v :: segs, .cons hv hf, henc => by
    rw [List.zipWith_cons_cons, lookup_cons_eq, lookup_cons_eq]
    split
    · exact congrArg some (Segment.parse_to_bytes (henc _ List.mem_cons_self) hv)
    · exact lookup_zipWith_inl ts hf fun p hp => henc p (List.mem_cons_of_mem _ hp)

theorem parse_to_bytes_eq {self : SharedLocks} (hw : self.Wf) {bytes : List UInt8}
    (hb : self.to_bytes = .ok bytes) (hlen : bytes.length ≤ ISIZE_MAX) :
    ∃ segs, List.Forall₂ (fun p v => p.2.to_bytes = .ok v) self.txn_info_segments segs ∧
      ∃ s', parse bytes = .ok s' ∧ s'.flags = self.flags ∧
        s'.txn_info_segments =
          List.zipWith (fun p v => (p.1, .inl v)) self.txn_info_segments segs := by
  unfold SharedLocks.to_bytes at hb
  cases hm : self.txn_info_segments.mapM (fun p => p.2.to_bytes) with
  | error e => simp [hm, bind, Except.bind] at hb
  | ok segs =>
    simp only [hm, bind, Except.bind, pure, Except.pure, Except.ok.injEq] at hb
    subst hb
    have hf := forall₂_of_mapM_eq_ok hm
    refine ⟨segs, hf, ?_⟩
    -- the segments' encodings end the bytes: each segment fits, and so does their number
    have hflat : (segs.flatMap encode_compact_bytes).length ≤ ISIZE_MAX := by
      simp only [List.length_cons, List.length_append] at hlen
      omega
    have hsegs : ∀ v ∈ segs, v.length ≤ ISIZE_MAX := fun v hv =>
      Nat.le_trans (Nat.le_trans (by simp [encode_compact_bytes])
        (length_le_length_flatMap_of_mem hv)) hflat
    have hcount : (UInt64.ofNat self.len).toNat = self.txn_info_segments.length := by
      -- every encoding starts with its length, which takes at least a byte
      have hpos := length_le_length_flatMap segs fun v (_ : v ∈ segs) =>
        show 0 < (encode_compact_bytes v).length by
          simp only [encode_compact_bytes, encode_var_i64, encode_var_u64_eq, List.length_append]
          exact Nat.lt_of_lt_of_le (Tikv.Lib.Varint.length_varint_pos _) (Nat.le_add_right _ _)
      apply toNat_ofNat_length_of_lt
      rw [len, hf.length_eq]
      simp only [ISIZE_MAX] at hflat
      omega
    obtain ⟨acc', hparse, hflags, hacc'⟩ := parse_txn_infos_to_bytes []
      { new with flags := self.flags } hf hw hsegs (by simpa [new] using self.nodup)
    rw [List.append_nil, ← hcount] at hparse
    have htail : SharedLocks.parse_fields (SHARED_LOCK_TXNS_INFO_PREFIX ::
        (encode_var_u64 (UInt64.ofNat self.len) ++ segs.flatMap encode_compact_bytes))
        { new with flags := self.flags } = .ok acc' := by
      rw [parse_fields_txn_infos hparse, parse_fields_nil]
    refine ⟨acc', ?_, hflags, by simpa [new] using hacc'⟩
    -- the flags field is written, and read, exactly when the flag is set
    have hflags_eq : self.flags = ⟨self.flags.shrink_only⟩ := rfl
    cases hso : self.flags.shrink_only with
    | false =>
      have hnew : { new with flags := self.flags } = new := by
        rw [hflags_eq, hso]
        rfl
      rw [hnew] at htail
      simp only [SharedLocksFlags.is_empty, hso, Bool.not_not, Bool.false_eq_true, if_false,
        List.nil_append]
      rw [parse_shared (List.cons_ne_nil _ _)]
      exact htail
    | true =>
      simp only [SharedLocksFlags.is_empty, hso, Bool.not_not, if_true, List.cons_append,
        List.nil_append]
      rw [parse_shared (List.cons_ne_nil _ _),
        parse_fields_flags (SharedLocksFlags.from_bits_bits self.flags)]
      exact htail

theorem to_bytes_ok {self : SharedLocks} (hw : self.Wf) : ∃ bytes, self.to_bytes = .ok bytes := by
  obtain ⟨segs, hm⟩ := exists_mapM_eq_ok (f := fun p : UInt64 × Segment => p.2.to_bytes)
    fun p hp => (hw p hp).to_bytes_ok
  rw [SharedLocks.to_bytes, hm]
  exact ⟨_, rfl⟩

theorem view_parse_to_bytes {self : SharedLocks} (hw : self.Wf)
    (henc : ∀ ts lock, (ts, .inr lock) ∈ self.txn_info_segments → Lock.Encodable lock)
    {bytes : List UInt8} (hb : self.to_bytes = .ok bytes) (hlen : bytes.length ≤ ISIZE_MAX) :
    ∃ s', parse bytes = .ok s' ∧ s'.flags = self.flags ∧ ∀ ts, s'.view ts = self.view ts := by
  obtain ⟨segs, hf, s', hparse, hflags, hsegs⟩ := parse_to_bytes_eq hw hb hlen
  refine ⟨s', hparse, hflags, fun ts => ?_⟩
  have henc' : ∀ p ∈ self.txn_info_segments, ∀ lock, p.2 = .inr lock → Lock.Encodable lock := by
    rintro ⟨ts', seg⟩ hp lock rfl
    exact henc ts' lock hp
  rw [view, view, hsegs]
  exact lookup_zipWith_inl ts hf henc'

end RoundTrip

theorem shared_locks_invariants_round_trip {s : SharedLocks} (hs : s.Reachable) :
    (∀ ts seg, (ts, seg) ∈ s.txn_info_segments → ∀ l, seg.lock = .ok l →
      l.ts = ts ∧ l.lock_type ≠ .Shared) ∧
    (s.is_shrink_only = true → ∀ ops, (s.run ops).is_shrink_only = true ∧
      ∀ lock, ∃ e, (s.run ops).insert_lock lock = (.error e, s.run ops)) ∧
    (∀ lock, s.contains_start_ts lock.ts = true → ∃ e, s.insert_lock lock = (.error e, s)) ∧
    (∀ n, (s.truncate_to n).txn_info_segments =
        s.txn_info_segments.filter (fun p => decide (Tikv.Lib.SortedList.countLt s.iter_ts p.1 < n)) ∧
      (s.truncate_to n).len = min n s.len) ∧
    (∃ bytes, s.to_bytes = .ok bytes ∧
      ((∀ ts lock, (ts, .inr lock) ∈ s.txn_info_segments → Lock.Encodable lock) →
        bytes.length ≤ ISIZE_MAX →
          ∃ s', parse bytes = .ok s' ∧ s'.flags = s.flags ∧ ∀ ts, s'.view ts = s.view ts)) := by
  have hw := hs.wf
  obtain ⟨bytes, hb⟩ := to_bytes_ok hw
  refine ⟨fun ts seg hmem l hl => (hw _ hmem).lock hl, fun hso ops => ?_,
    fun lock h => insert_lock_of_contains_start_ts h,
    fun n => ⟨txn_info_segments_truncate_to s n, len_truncate_to s n⟩,
    ⟨bytes, hb, fun henc => view_parse_to_bytes hw henc hb⟩⟩
  have hrun := is_shrink_only_run hso ops
  exact ⟨hrun, insert_lock_of_is_shrink_only hrun⟩

/-- A lock inserted, then the flag set: every later insert fails. -/
theorem shared_locks_invariants_round_trip_shrunk :
    (new.run [.insert_lock (Lock.new .Lock [0x6b] 10 3000 none 0 0 0 false),
      .set_shrink_only]).Reachable ∧
    ∀ lock, ∃ e, (new.run [.insert_lock (Lock.new .Lock [0x6b] 10 3000 none 0 0 0 false),
      .set_shrink_only]).insert_lock lock = (.error e, new.run [.insert_lock
        (Lock.new .Lock [0x6b] 10 3000 none 0 0 0 false), .set_shrink_only]) := by
  have hs : (new.run [.insert_lock (Lock.new .Lock [0x6b] 10 3000 none 0 0 0 false),
      .set_shrink_only]).Reachable := ⟨new, _, .inl rfl, rfl⟩
  exact ⟨hs, ((shared_locks_invariants_round_trip hs).2.1 rfl []).2⟩

def one_pc_lock : Lock := { Lock.new .Lock [0x6b] 10 3000 none 0 0 0 false with use_one_pc := true }

/-- Inserted into a new value and written out, the one-pc lock parses back without its flag. -/
theorem to_bytes_forgets_use_one_pc :
    (new.insert_lock one_pc_lock).2.Reachable ∧
      ∃ bytes s', (new.insert_lock one_pc_lock).2.to_bytes = .ok bytes ∧ parse bytes = .ok s' ∧
        s'.view one_pc_lock.ts ≠ (new.insert_lock one_pc_lock).2.view one_pc_lock.ts := by
  have hreach : (new.insert_lock one_pc_lock).2.Reachable :=
    ⟨new, [.insert_lock one_pc_lock], .inl rfl, rfl⟩
  have hsegs : (new.insert_lock one_pc_lock).2.txn_info_segments = [(10, .inr one_pc_lock)] := rfl
  -- the shared type, the txn-info field of one segment, and the lock's bytes with no flag in them
  have hb : (new.insert_lock one_pc_lock).2.to_bytes =
      .ok [72, 104, 1, 12, 76, 2, 107, 10, 184, 23] := by decide +kernel
  obtain ⟨segs, hf, s', hparse, -, hs'⟩ := parse_to_bytes_eq hreach.wf hb (by decide)
  rw [hsegs] at hf hs'
  obtain ⟨v, hv⟩ : ∃ v, segs = [v] ∧ one_pc_lock.to_bytes = .ok v := by
    cases hf with
    | cons hv hnil =>
      cases hnil
      exact ⟨_, rfl, hv⟩
  obtain ⟨rfl, hv⟩ := hv
  -- the bytes are those of the lock without the flag, which the lock codec gives back
  have hcleared : Lock.parse v = .ok { one_pc_lock with use_one_pc := false } :=
    Lock.Encodable.parse_to_bytes ⟨by decide, rfl, by simp [one_pc_lock, Lock.new],
      fun _ => rfl, by simp [one_pc_lock, Lock.new], by simp [one_pc_lock, Lock.new, ISIZE_MAX]⟩ hv
  refine ⟨hreach, _, s', hb, hparse, ?_⟩
  have hts : one_pc_lock.ts = 10 := rfl
  rw [view, view, hs', hsegs]
  simp only [List.zipWith_cons_cons, List.zipWith_nil_left, lookup_cons_eq, hts, if_true,
    Option.map_some, Segment.lock, hcleared, ne_eq, Option.some.injEq, Except.ok.injEq]
  intro h
  have hflag := congrArg Lock.use_one_pc h
  exact absurd hflag (by decide)

end SharedLocks

end Tikv.TxnTypes.Encoded
