import Tikv.TxnTypes.Write
import Tikv.Lib.AssocList

/-!
The bytes of a lock (components/txn_types/src/lock.rs): the type flag, the primary as compact
bytes, the start ts and the ttl as var u64s, then each field that is not at its default behind a
prefix byte. `Lock::parse` returns at once when the bytes end after the ttl, reads the tagged
fields in any order otherwise, and stops at the first byte it does not know. `use_one_pc` is
never written. A shared lock has its own format (`SharedLocks`), which `parse_lock` hands to a
parser that this model takes as a parameter.

A `Vec` of the source holds at most `isize::MAX` elements; the lengths written as var ints are
within that bound.
-/

namespace Tikv.TxnTypes

open Tikv.Codec Tikv.Lib.Decoder

def ISIZE_MAX : Nat := 2 ^ 63 - 1

inductive LockType
  | Put
  | Delete
  | Lock
  | Pessimistic
  | Shared
  deriving DecidableEq, Repr

namespace Lock

def FLAG_PUT : UInt8 := 'P'.toUInt8

def FLAG_DELETE : UInt8 := 'D'.toUInt8

def FLAG_LOCK : UInt8 := 'L'.toUInt8

def FLAG_PESSIMISTIC : UInt8 := 'S'.toUInt8

def FLAG_SHARED : UInt8 := 'H'.toUInt8

def FOR_UPDATE_TS_PREFIX : UInt8 := 'f'.toUInt8

def TXN_SIZE_PREFIX : UInt8 := 't'.toUInt8

def MIN_COMMIT_TS_PREFIX : UInt8 := 'c'.toUInt8

def ASYNC_COMMIT_PREFIX : UInt8 := 'a'.toUInt8

def ROLLBACK_TS_PREFIX : UInt8 := 'r'.toUInt8

def LAST_CHANGE_PREFIX : UInt8 := 'l'.toUInt8

def TXN_SOURCE_PREFIX : UInt8 := 's'.toUInt8

def PESSIMISTIC_LOCK_WITH_CONFLICT_PREFIX : UInt8 := 'F'.toUInt8

def GENERATION_PREFIX : UInt8 := 'g'.toUInt8

end Lock

def LockType.from_u8 (b : UInt8) : Option LockType :=
  if b = Lock.FLAG_PUT then some .Put
  else if b = Lock.FLAG_DELETE then some .Delete
  else if b = Lock.FLAG_LOCK then some .Lock
  else if b = Lock.FLAG_PESSIMISTIC then some .Pessimistic
  else if b = Lock.FLAG_SHARED then some .Shared
  else none

def LockType.to_u8 : LockType → UInt8
  | .Put => Lock.FLAG_PUT
  | .Delete => Lock.FLAG_DELETE
  | .Lock => Lock.FLAG_LOCK
  | .Pessimistic => Lock.FLAG_PESSIMISTIC
  | .Shared => Lock.FLAG_SHARED

theorem LockType.from_u8_to_u8 (t : LockType) : LockType.from_u8 t.to_u8 = some t := by
  cases t <;> decide

structure Lock where
  lock_type : LockType
  primary : List UInt8
  ts : UInt64
  ttl : UInt64
  short_value : Option (List UInt8)
  for_update_ts : UInt64
  txn_size : UInt64
  min_commit_ts : UInt64
  use_async_commit : Bool
  use_one_pc : Bool
  secondaries : List (List UInt8)
  rollback_ts : List UInt64
  last_change : LastChange
  txn_source : UInt64
  is_locked_with_conflict : Bool
  generation : UInt64
  deriving DecidableEq, Repr

def Lock.new (lock_type : LockType) (primary : List UInt8) (ts ttl : UInt64)
    (short_value : Option (List UInt8)) (for_update_ts txn_size min_commit_ts : UInt64)
    (is_locked_with_conflict : Bool) : Lock :=
  ⟨lock_type, primary, ts, ttl, short_value, for_update_ts, txn_size, min_commit_ts, false, false,
    [], [], .Unknown, 0, is_locked_with_conflict, 0⟩

def Lock.use_async_commit_with (l : Lock) (secondaries : List (List UInt8)) : Lock :=
  { l with use_async_commit := true, secondaries := secondaries }

def Lock.with_rollback_ts (l : Lock) (rollback_ts : List UInt64) : Lock :=
  { l with rollback_ts := rollback_ts }

def Lock.set_last_change (l : Lock) (last_change : LastChange) : Lock :=
  { l with last_change := last_change }

def Lock.set_txn_source (l : Lock) (source : UInt64) : Lock :=
  { l with txn_source := source }

def Lock.with_generation (l : Lock) (generation : UInt64) : Lock :=
  { l with generation := generation }

def nonzero_u64_bytes (pfx : UInt8) (v : UInt64) : List UInt8 :=
  if v ≠ 0 then pfx :: encode_u64 v else []

def async_commit_bytes (use_async_commit : Bool) (secondaries : List (List UInt8)) :
    List UInt8 :=
  if use_async_commit then
    Lock.ASYNC_COMMIT_PREFIX :: encode_var_u64 (UInt64.ofNat secondaries.length) ++
      secondaries.flatMap encode_compact_bytes
  else []

def rollback_ts_bytes (rollback_ts : List UInt64) : List UInt8 :=
  if rollback_ts ≠ [] then
    Lock.ROLLBACK_TS_PREFIX :: encode_var_u64 (UInt64.ofNat rollback_ts.length) ++
      rollback_ts.flatMap encode_u64
  else []

def Lock.to_bytes (l : Lock) : Except Error (List UInt8) :=
  -- assert!(self.lock_type != LockType::Shared)
  if l.lock_type = .Shared then .error .Panic
  else .ok (l.lock_type.to_u8 :: encode_compact_bytes l.primary ++
    (encode_var_u64 l.ts ++
    (encode_var_u64 l.ttl ++
    (short_value_bytes l.short_value ++
    (nonzero_u64_bytes Lock.FOR_UPDATE_TS_PREFIX l.for_update_ts ++
    (nonzero_u64_bytes Lock.TXN_SIZE_PREFIX l.txn_size ++
    (nonzero_u64_bytes Lock.MIN_COMMIT_TS_PREFIX l.min_commit_ts ++
    (async_commit_bytes l.use_async_commit l.secondaries ++
    (rollback_ts_bytes l.rollback_ts ++
    (last_change_bytes Lock.LAST_CHANGE_PREFIX l.last_change ++
    (var_u64_bytes Lock.TXN_SOURCE_PREFIX l.txn_source ++
    (flag_bytes Lock.PESSIMISTIC_LOCK_WITH_CONFLICT_PREFIX l.is_locked_with_conflict ++
    nonzero_u64_bytes Lock.GENERATION_PREFIX l.generation))))))))))))

def Lock.pre_allocate_size (l : Lock) : Nat :=
  1 + MAX_VAR_I64_LEN + l.primary.length + MAX_VAR_U64_LEN * 2 +
    (match l.short_value with
      | some v => 2 + v.length
      | none => 0) +
    (if l.for_update_ts ≠ 0 then 1 + U64_SIZE else 0) +
    (if l.txn_size > 0 then 1 + U64_SIZE else 0) +
    (if l.min_commit_ts ≠ 0 then 1 + U64_SIZE else 0) +
    (if l.use_async_commit then
      1 + MAX_VAR_U64_LEN + (l.secondaries.map fun k => MAX_VAR_I64_LEN + k.length).sum
    else 0) +
    (if l.rollback_ts ≠ [] then 1 + MAX_VAR_U64_LEN + U64_SIZE * l.rollback_ts.length else 0) +
    (match l.last_change with
      | .NotExist | .Exist .. => 1 + U64_SIZE + MAX_VAR_U64_LEN
      | .Unknown => 0) +
    (if l.txn_source ≠ 0 then 1 + MAX_VAR_U64_LEN else 0) +
    (if l.is_locked_with_conflict then 1 else 0) +
    (if l.generation > 0 then 1 + U64_SIZE else 0)

def ReadBytesExt.read_u8 (b : List UInt8) : Except Error (UInt8 × List UInt8) :=
  match b with
  | x :: rest => .ok (x, rest)
  | [] => .error (.Io .UnexpectedEof "failed to fill whole buffer")

theorem consumes_read_u8_io : Consumes ReadBytesExt.read_u8 := by
  intro data rest v h
  rw [ReadBytesExt.read_u8.eq_def] at h
  split at h
  · simp only [Except.ok.injEq, Prod.mk.injEq] at h
    rw [← h.2, List.length_cons]
    omega
  · cases h

def codec_decode_u64 (b : List UInt8) : Except Error (UInt64 × List UInt8) :=
  (decode_u64 b).mapError .Codec

def codec_decode_var_u64 (b : List UInt8) : Except Error (UInt64 × List UInt8) :=
  (decode_var_u64 b).mapError .Codec

def codec_decode_compact_bytes (b : List UInt8) : Except Error (List UInt8 × List UInt8) :=
  (decode_compact_bytes b).mapError .Codec

theorem consumes_codec_decode_u64 : Consumes codec_decode_u64 :=
  consumes_decode_u64.mapError _

theorem consumes_codec_decode_var_u64 : Consumes codec_decode_var_u64 :=
  consumes_decode_var_u64.mapError _

theorem consumes_codec_decode_compact_bytes : Consumes codec_decode_compact_bytes :=
  consumes_decode_compact_bytes.mapError _

structure Lock.Fields where
  short_value : Option (List UInt8) := none
  for_update_ts : UInt64 := 0
  txn_size : UInt64 := 0
  min_commit_ts : UInt64 := 0
  use_async_commit : Bool := false
  secondaries : List (List UInt8) := []
  rollback_ts : List UInt64 := []
  last_change_ts : UInt64 := 0
  estimated_versions_to_last_change : UInt64 := 0
  txn_source : UInt64 := 0
  is_locked_with_conflict : Bool := false
  generation : UInt64 := 0
  deriving DecidableEq, Repr

def Lock.parse_fields (b : List UInt8) (f : Lock.Fields) : Except Error Lock.Fields :=
  match b with
  | [] => .ok f
  | flag :: b =>
    if flag = SHORT_VALUE_PREFIX then
      match _hl : ReadBytesExt.read_u8 b with
      | .error e => .error e
      | .ok (len, b') =>
        if b'.length < len.toNat then .error .Panic
        else Lock.parse_fields (b'.drop len.toNat)
          { f with short_value := some (b'.take len.toNat) }
    else if flag = Lock.FOR_UPDATE_TS_PREFIX then
      match _hd : codec_decode_u64 b with
      | .error e => .error e
      | .ok (for_update_ts, b') => Lock.parse_fields b' { f with for_update_ts := for_update_ts }
    else if flag = Lock.TXN_SIZE_PREFIX then
      match _hd : codec_decode_u64 b with
      | .error e => .error e
      | .ok (txn_size, b') => Lock.parse_fields b' { f with txn_size := txn_size }
    else if flag = Lock.MIN_COMMIT_TS_PREFIX then
      match _hd : codec_decode_u64 b with
      | .error e => .error e
      | .ok (min_commit_ts, b') => Lock.parse_fields b' { f with min_commit_ts := min_commit_ts }
    else if flag = Lock.ASYNC_COMMIT_PREFIX then
      -- use_async_commit is set before the secondaries are read
      match _hd : codec_decode_var_u64 b with
      | .error e => .error e
      | .ok (len, b') =>
        match _hs : decode_n codec_decode_compact_bytes len.toNat b' with
        | .error e => .error e
        | .ok (secondaries, b'') =>
          Lock.parse_fields b'' { f with use_async_commit := true, secondaries := secondaries }
    else if flag = Lock.ROLLBACK_TS_PREFIX then
      match _hd : codec_decode_var_u64 b with
      | .error e => .error e
      | .ok (len, b') =>
        match _hs : decode_n codec_decode_u64 len.toNat b' with
        | .error e => .error e
        | .ok (rollback_ts, b'') => Lock.parse_fields b'' { f with rollback_ts := rollback_ts }
    else if flag = Lock.LAST_CHANGE_PREFIX then
      match _hd : codec_decode_u64 b with
      | .error e => .error e
      | .ok (last_change_ts, b') =>
        match _hv : codec_decode_var_u64 b' with
        | .error e => .error e
        | .ok (versions, b'') =>
          Lock.parse_fields b''
            { f with last_change_ts := last_change_ts, estimated_versions_to_last_change := versions }
    else if flag = Lock.TXN_SOURCE_PREFIX then
      match _hd : codec_decode_var_u64 b with
      | .error e => .error e
      | .ok (txn_source, b') => Lock.parse_fields b' { f with txn_source := txn_source }
    else if flag = Lock.PESSIMISTIC_LOCK_WITH_CONFLICT_PREFIX then
      Lock.parse_fields b { f with is_locked_with_conflict := true }
    else if flag = Lock.GENERATION_PREFIX then
      match _hd : codec_decode_u64 b with
      | .error e => .error e
      | .ok (generation, b') => Lock.parse_fields b' { f with generation := generation }
    -- an unknown byte ends the fields, for forward compatibility
    else .ok f
termination_by b.length
decreasing_by
  all_goals simp only [List.length_cons]
  · have := consumes_read_u8_io ‹_›
    simp only [List.length_drop]
    omega
  · have := consumes_codec_decode_u64 ‹_›
    omega
  · have := consumes_codec_decode_u64 ‹_›
    omega
  · have := consumes_codec_decode_u64 ‹_›
    omega
  · have := consumes_codec_decode_var_u64 ‹_›
    have := consumes_codec_decode_compact_bytes.decode_n _ ‹_›
    omega
  · have := consumes_codec_decode_var_u64 ‹_›
    have := consumes_codec_decode_u64.decode_n _ ‹_›
    omega
  · have := consumes_codec_decode_u64 ‹_›
    have := consumes_codec_decode_var_u64 ‹_›
    omega
  · have := consumes_codec_decode_var_u64 ‹_›
    omega
  · omega
  · have := consumes_codec_decode_u64 ‹_›
    omega

def Lock.of_fields (lock_type : LockType) (primary : List UInt8) (ts ttl : UInt64)
    (f : Lock.Fields) : Except Error Lock := do
  let last_change ← LastChange.from_parts f.last_change_ts f.estimated_versions_to_last_change
  let lock := (((Lock.new lock_type primary ts ttl f.short_value f.for_update_ts f.txn_size
    f.min_commit_ts f.is_locked_with_conflict).set_last_change last_change).set_txn_source
    f.txn_source |>.with_rollback_ts f.rollback_ts).with_generation f.generation
  pure (if f.use_async_commit then lock.use_async_commit_with f.secondaries else lock)

def Lock.parse (b : List UInt8) : Except Error Lock := do
  if b.isEmpty then throw .BadFormatLock
  let (lock_type_byte, b) ← ReadBytesExt.read_u8 b
  let some lock_type := LockType.from_u8 lock_type_byte | throw .BadFormatLock
  -- assert!(lock_type != LockType::Shared)
  if lock_type = .Shared then throw .Panic
  let (primary, b) ← codec_decode_compact_bytes b
  let (ts, b) ← codec_decode_var_u64 b
  let (ttl, b) ← if b.isEmpty then pure (0, b) else codec_decode_var_u64 b
  if b.isEmpty then
    return Lock.new lock_type primary ts ttl none 0 0 0 false
  let f ← Lock.parse_fields b {}
  Lock.of_fields lock_type primary ts ttl f

def decode_lock_type (b : List UInt8) : Except Error LockType :=
  match b with
  | [] => .error .BadFormatLock
  | x :: _ =>
    match LockType.from_u8 x with
    | some lock_type => .ok lock_type
    | none => .error .BadFormatLock

def decode_lock_start_ts (b : List UInt8) : Except Error UInt64 := do
  match ← decode_lock_type b with
  | .Shared => throw .BadFormatLock
  | _ =>
    let (_, b) ← codec_decode_compact_bytes (b.drop 1)
    let (ts, _) ← codec_decode_var_u64 b
    pure ts

def parse_lock {SharedLocks : Type} (shared_locks_parse : List UInt8 → Except Error SharedLocks)
    (b : List UInt8) : Except Error (Lock ⊕ SharedLocks) := do
  match ← decode_lock_type b with
  | .Shared => return .inr (← shared_locks_parse b)
  | _ => return .inl (← Lock.parse b)

section Parse

variable (rest : List UInt8) (f : Lock.Fields)

theorem codec_decode_u64_encode_u64 (v : UInt64) (rest : List UInt8) :
    codec_decode_u64 (encode_u64 v ++ rest) = .ok (v, rest) := by
  rw [codec_decode_u64, decode_u64_encode_u64]
  rfl

theorem codec_decode_var_u64_encode_var_u64 (v : UInt64) (rest : List UInt8) :
    codec_decode_var_u64 (encode_var_u64 v ++ rest) = .ok (v, rest) := by
  rw [codec_decode_var_u64, decode_var_u64_encode_var_u64]
  rfl

theorem codec_decode_compact_bytes_encode {k : List UInt8} (hk : k.length ≤ ISIZE_MAX)
    (rest : List UInt8) :
    codec_decode_compact_bytes (encode_compact_bytes k ++ rest) = .ok (k, rest) := by
  rw [codec_decode_compact_bytes, decode_compact_bytes_encode_compact_bytes _ _
    (by simp only [ISIZE_MAX] at hk; omega)]
  rfl

theorem toNat_ofNat_length_of_lt {n : Nat} (h : n < 2 ^ 64) : (UInt64.ofNat n).toNat = n := by
  rw [UInt64.toNat_ofNat']
  omega

theorem lock_parse_fields_short_value {sv : Option (List UInt8)}
    (hsv : ∀ v ∈ sv, v.length ≤ SHORT_VALUE_MAX_LEN) (hf : f.short_value = none) :
    Lock.parse_fields (short_value_bytes sv ++ rest) f =
      Lock.parse_fields rest { f with short_value := sv } := by
  cases sv with
  | none =>
    cases f
    simp only at hf
    rw [hf]
    rfl
  | some v =>
    rw [short_value_bytes, List.cons_append, Lock.parse_fields, if_pos rfl]
    simp only [List.cons_append, ReadBytesExt.read_u8]
    rw [toNat_ofNat_length (hsv v rfl), if_neg (by simp), List.drop_left, List.take_left]

theorem lock_parse_fields_nonzero_u64 {pfx : UInt8} {set : Lock.Fields → UInt64 → Lock.Fields}
    (harm : ∀ rest f v, Lock.parse_fields (pfx :: encode_u64 v ++ rest) f =
      Lock.parse_fields rest (set f v)) (v : UInt64) (hf : set f 0 = f) :
    Lock.parse_fields (nonzero_u64_bytes pfx v ++ rest) f = Lock.parse_fields rest (set f v) := by
  by_cases hv : v = 0
  · rw [nonzero_u64_bytes, if_neg (not_not_intro hv), List.nil_append, hv, hf]
  · rw [nonzero_u64_bytes, if_pos hv, harm]

theorem lock_parse_fields_for_update_ts (v : UInt64) :
    Lock.parse_fields (Lock.FOR_UPDATE_TS_PREFIX :: encode_u64 v ++ rest) f =
      Lock.parse_fields rest { f with for_update_ts := v } := by
  rw [List.cons_append, Lock.parse_fields, if_neg (by decide), if_pos rfl]
  split
  · rename_i heq
    simp [codec_decode_u64_encode_u64] at heq
  · rename_i heq
    simp only [codec_decode_u64_encode_u64, Except.ok.injEq, Prod.mk.injEq] at heq
    obtain ⟨rfl, rfl⟩ := heq
    rfl

theorem lock_parse_fields_txn_size (v : UInt64) :
    Lock.parse_fields (Lock.TXN_SIZE_PREFIX :: encode_u64 v ++ rest) f =
      Lock.parse_fields rest { f with txn_size := v } := by
  rw [List.cons_append, Lock.parse_fields, if_neg (by decide), if_neg (by decide), if_pos rfl]
  split
  · rename_i heq
    simp [codec_decode_u64_encode_u64] at heq
  · rename_i heq
    simp only [codec_decode_u64_encode_u64, Except.ok.injEq, Prod.mk.injEq] at heq
    obtain ⟨rfl, rfl⟩ := heq
    rfl

theorem lock_parse_fields_min_commit_ts (v : UInt64) :
    Lock.parse_fields (Lock.MIN_COMMIT_TS_PREFIX :: encode_u64 v ++ rest) f =
      Lock.parse_fields rest { f with min_commit_ts := v } := by
  rw [List.cons_append, Lock.parse_fields, if_neg (by decide), if_neg (by decide),
    if_neg (by decide), if_pos rfl]
  split
  · rename_i heq
    simp [codec_decode_u64_encode_u64] at heq
  · rename_i heq
    simp only [codec_decode_u64_encode_u64, Except.ok.injEq, Prod.mk.injEq] at heq
    obtain ⟨rfl, rfl⟩ := heq
    rfl

theorem lock_parse_fields_generation (v : UInt64) :
    Lock.parse_fields (Lock.GENERATION_PREFIX :: encode_u64 v ++ rest) f =
      Lock.parse_fields rest { f with generation := v } := by
  rw [List.cons_append, Lock.parse_fields, if_neg (by decide), if_neg (by decide),
    if_neg (by decide), if_neg (by decide), if_neg (by decide), if_neg (by decide),
    if_neg (by decide), if_neg (by decide), if_neg (by decide), if_pos rfl]
  split
  · rename_i heq
    simp [codec_decode_u64_encode_u64] at heq
  · rename_i heq
    simp only [codec_decode_u64_encode_u64, Except.ok.injEq, Prod.mk.injEq] at heq
    obtain ⟨rfl, rfl⟩ := heq
    rfl

theorem lock_parse_fields_async_commit (uac : Bool) (secondaries : List (List UInt8))
    (hlen : secondaries.length ≤ ISIZE_MAX) (hk : ∀ k ∈ secondaries, k.length ≤ ISIZE_MAX)
    (hsec : uac = false → secondaries = []) (hf1 : f.use_async_commit = false)
    (hf2 : f.secondaries = []) :
    Lock.parse_fields (async_commit_bytes uac secondaries ++ rest) f =
      Lock.parse_fields rest { f with use_async_commit := uac, secondaries := secondaries } := by
  cases uac with
  | false =>
    rw [hsec rfl]
    cases f
    simp only at hf1 hf2
    rw [hf1, hf2]
    rfl
  | true =>
    have hn : (UInt64.ofNat secondaries.length).toNat = secondaries.length :=
      toNat_ofNat_length_of_lt (by simp only [ISIZE_MAX] at hlen; omega)
    have hrun := decode_n_flatMap secondaries
      (fun k hk' rest => codec_decode_compact_bytes_encode (hk k hk') rest) rest
    rw [async_commit_bytes, if_pos rfl, List.append_assoc, List.cons_append, Lock.parse_fields,
      if_neg (by decide), if_neg (by decide), if_neg (by decide), if_neg (by decide), if_pos rfl]
    split
    · rename_i heq
      simp [codec_decode_var_u64_encode_var_u64] at heq
    · rename_i heq
      simp only [codec_decode_var_u64_encode_var_u64, Except.ok.injEq, Prod.mk.injEq] at heq
      obtain ⟨rfl, rfl⟩ := heq
      split
      · rename_i heq
        rw [hn, hrun] at heq
        cases heq
      · rename_i heq
        rw [hn, hrun, Except.ok.injEq, Prod.mk.injEq] at heq
        obtain ⟨rfl, rfl⟩ := heq
        rfl

theorem lock_parse_fields_rollback_ts (rollback_ts : List UInt64)
    (hlen : rollback_ts.length ≤ ISIZE_MAX) (hf : f.rollback_ts = []) :
    Lock.parse_fields (rollback_ts_bytes rollback_ts ++ rest) f =
      Lock.parse_fields rest { f with rollback_ts := rollback_ts } := by
  by_cases hr : rollback_ts = []
  · rw [rollback_ts_bytes, if_neg (not_not_intro hr), List.nil_append, hr]
    cases f
    simp only at hf
    rw [hf]
  · have hn : (UInt64.ofNat rollback_ts.length).toNat = rollback_ts.length :=
      toNat_ofNat_length_of_lt (by simp only [ISIZE_MAX] at hlen; omega)
    have hrun := decode_n_flatMap rollback_ts
      (fun v _ rest => codec_decode_u64_encode_u64 v rest) rest
    rw [rollback_ts_bytes, if_pos hr, List.append_assoc, List.cons_append, Lock.parse_fields,
      if_neg (by decide), if_neg (by decide), if_neg (by decide), if_neg (by decide),
      if_neg (by decide), if_pos rfl]
    split
    · rename_i heq
      simp [codec_decode_var_u64_encode_var_u64] at heq
    · rename_i heq
      simp only [codec_decode_var_u64_encode_var_u64, Except.ok.injEq, Prod.mk.injEq] at heq
      obtain ⟨rfl, rfl⟩ := heq
      split
      · rename_i heq
        rw [hn, hrun] at heq
        cases heq
      · rename_i heq
        rw [hn, hrun, Except.ok.injEq, Prod.mk.injEq] at heq
        obtain ⟨rfl, rfl⟩ := heq
        rfl

theorem lock_parse_fields_last_change (lc : LastChange) (hf1 : f.last_change_ts = 0)
    (hf2 : f.estimated_versions_to_last_change = 0) :
    Lock.parse_fields (last_change_bytes Lock.LAST_CHANGE_PREFIX lc ++ rest) f =
      Lock.parse_fields rest
        { f with last_change_ts := lc.to_parts.1,
                 estimated_versions_to_last_change := lc.to_parts.2 } := by
  have hread (ts versions : UInt64) :
      Lock.parse_fields
          (Lock.LAST_CHANGE_PREFIX :: encode_u64 ts ++ encode_var_u64 versions ++ rest) f =
        Lock.parse_fields rest
          { f with last_change_ts := ts, estimated_versions_to_last_change := versions } := by
    rw [List.append_assoc, List.cons_append, Lock.parse_fields, if_neg (by decide),
      if_neg (by decide), if_neg (by decide), if_neg (by decide), if_neg (by decide),
      if_neg (by decide), if_pos rfl]
    split
    · rename_i heq
      simp [codec_decode_u64_encode_u64] at heq
    · rename_i heq
      simp only [codec_decode_u64_encode_u64, Except.ok.injEq, Prod.mk.injEq] at heq
      obtain ⟨rfl, rfl⟩ := heq
      split
      · rename_i heq
        simp [codec_decode_var_u64_encode_var_u64] at heq
      · rename_i heq
        simp only [codec_decode_var_u64_encode_var_u64, Except.ok.injEq, Prod.mk.injEq] at heq
        obtain ⟨rfl, rfl⟩ := heq
        rfl
  cases lc with
  | Unknown =>
    cases f
    simp only at hf1 hf2
    rw [last_change_bytes, List.nil_append, hf1, hf2]
    rfl
  | NotExist => exact hread _ _
  | Exist ts n => exact hread _ _

theorem lock_parse_fields_txn_source (src : UInt64) (hf : f.txn_source = 0) :
    Lock.parse_fields (var_u64_bytes Lock.TXN_SOURCE_PREFIX src ++ rest) f =
      Lock.parse_fields rest { f with txn_source := src } := by
  by_cases hsrc : src = 0
  · cases f
    simp only at hf
    rw [var_u64_bytes, if_neg (not_not_intro hsrc), List.nil_append, hsrc, hf]
  · rw [var_u64_bytes, if_pos hsrc, List.cons_append, Lock.parse_fields, if_neg (by decide),
      if_neg (by decide), if_neg (by decide), if_neg (by decide), if_neg (by decide),
      if_neg (by decide), if_neg (by decide), if_pos rfl]
    split
    · rename_i heq
      simp [codec_decode_var_u64_encode_var_u64] at heq
    · rename_i heq
      simp only [codec_decode_var_u64_encode_var_u64, Except.ok.injEq, Prod.mk.injEq] at heq
      obtain ⟨rfl, rfl⟩ := heq
      rfl

theorem lock_parse_fields_locked_with_conflict (c : Bool) (hf : f.is_locked_with_conflict = false) :
    Lock.parse_fields (flag_bytes Lock.PESSIMISTIC_LOCK_WITH_CONFLICT_PREFIX c ++ rest) f =
      Lock.parse_fields rest { f with is_locked_with_conflict := c } := by
  cases c with
  | false =>
    cases f
    simp only at hf
    rw [hf]
    rfl
  | true =>
    rw [flag_bytes, if_pos rfl, List.singleton_append, Lock.parse_fields, if_neg (by decide),
      if_neg (by decide), if_neg (by decide), if_neg (by decide), if_neg (by decide),
      if_neg (by decide), if_neg (by decide), if_neg (by decide), if_pos rfl]

def Lock.is_field_prefix (x : UInt8) : Bool :=
  x = SHORT_VALUE_PREFIX || x = Lock.FOR_UPDATE_TS_PREFIX || x = Lock.TXN_SIZE_PREFIX ||
    x = Lock.MIN_COMMIT_TS_PREFIX || x = Lock.ASYNC_COMMIT_PREFIX || x = Lock.ROLLBACK_TS_PREFIX ||
    x = Lock.LAST_CHANGE_PREFIX || x = Lock.TXN_SOURCE_PREFIX ||
    x = Lock.PESSIMISTIC_LOCK_WITH_CONFLICT_PREFIX || x = Lock.GENERATION_PREFIX

theorem lock_parse_fields_stop (h : ∀ x ∈ rest.head?, Lock.is_field_prefix x = false) :
    Lock.parse_fields rest f = .ok f := by
  match rest, h with
  | [], _ => rw [Lock.parse_fields]
  | x :: rest, h =>
    have hx := h x rfl
    simp only [Lock.is_field_prefix, Bool.or_eq_false_iff, decide_eq_false_iff_not] at hx
    obtain ⟨⟨⟨⟨⟨⟨⟨⟨⟨h1, h2⟩, h3⟩, h4⟩, h5⟩, h6⟩, h7⟩, h8⟩, h9⟩, h10⟩ := hx
    rw [Lock.parse_fields, if_neg h1, if_neg h2, if_neg h3, if_neg h4, if_neg h5, if_neg h6,
      if_neg h7, if_neg h8, if_neg h9, if_neg h10]

end Parse

theorem Lock.parse_header {lock_type : LockType} (ht : lock_type ≠ .Shared) {primary : List UInt8}
    (hp : primary.length ≤ ISIZE_MAX) (ts ttl : UInt64) (b : List UInt8) :
    Lock.parse (lock_type.to_u8 :: (encode_compact_bytes primary ++ (encode_var_u64 ts ++
      (encode_var_u64 ttl ++ b)))) =
      Lock.parse_fields b {} >>= Lock.of_fields lock_type primary ts ttl := by
  have httl : (encode_var_u64 ttl ++ b).isEmpty = false := by
    rw [encode_var_u64_eq]
    obtain ⟨x, xs, hx⟩ := List.exists_cons_of_ne_nil
      (List.ne_nil_of_length_pos (Tikv.Lib.Varint.length_varint_pos ttl.toNat))
    rw [hx]
    rfl
  rw [Lock.parse]
  simp only [List.isEmpty_cons, ReadBytesExt.read_u8, LockType.from_u8_to_u8, if_neg ht,
    codec_decode_compact_bytes_encode hp, codec_decode_var_u64_encode_var_u64, httl, bind,
    Except.bind, pure, Except.pure, Bool.false_eq_true, if_false]
  by_cases hb : b = []
  · subst hb
    rw [if_pos List.isEmpty_nil, Lock.parse_fields]
    rfl
  · have hne : b.isEmpty = false := List.isEmpty_eq_false_iff.mpr hb
    simp only [hne, Bool.false_eq_true, if_false]

theorem Lock.parse_to_bytes_append (l : Lock) (ht : l.lock_type ≠ .Shared)
    (h1pc : l.use_one_pc = false) (hsv : ∀ v ∈ l.short_value, v.length ≤ SHORT_VALUE_MAX_LEN)
    (hsec : l.use_async_commit = false → l.secondaries = [])
    (hlc : ∀ ts n, l.last_change = .Exist ts n → 0 < ts ∧ 0 < n)
    (hvec : l.primary.length ≤ ISIZE_MAX ∧ l.secondaries.length ≤ ISIZE_MAX ∧
      (∀ k ∈ l.secondaries, k.length ≤ ISIZE_MAX) ∧ l.rollback_ts.length ≤ ISIZE_MAX)
    {bytes : List UInt8} (hb : l.to_bytes = .ok bytes) (s : List UInt8)
    (hs : ∀ x ∈ s.head?, Lock.is_field_prefix x = false) :
    Lock.parse (bytes ++ s) = .ok l := by
  obtain ⟨hp, hn, hk, hr⟩ := hvec
  rw [Lock.to_bytes, if_neg ht] at hb
  cases hb
  simp only [List.cons_append, List.append_assoc]
  rw [Lock.parse_header ht hp]
  -- the loop reads the fields in the order they were written, then stops at `s`
  rw [lock_parse_fields_short_value _ _ hsv rfl,
    lock_parse_fields_nonzero_u64 _ _ lock_parse_fields_for_update_ts _ rfl,
    lock_parse_fields_nonzero_u64 _ _ lock_parse_fields_txn_size _ rfl,
    lock_parse_fields_nonzero_u64 _ _ lock_parse_fields_min_commit_ts _ rfl,
    lock_parse_fields_async_commit _ _ _ _ hn hk hsec rfl rfl,
    lock_parse_fields_rollback_ts _ _ _ hr rfl, lock_parse_fields_last_change _ _ _ rfl rfl,
    lock_parse_fields_txn_source _ _ _ rfl, lock_parse_fields_locked_with_conflict _ _ _ rfl,
    lock_parse_fields_nonzero_u64 _ _ lock_parse_fields_generation _ rfl,
    lock_parse_fields_stop s _ hs]
  simp only [bind, Except.bind, Lock.of_fields, LastChange.from_parts_to_parts hlc, pure,
    Except.pure]
  obtain ⟨lt, pr, ts, ttl, sv, fu, tsz, mc, uac, u1pc, secs, rts, lc, src, conf, gen⟩ := l
  simp only at h1pc hsec
  subst h1pc
  cases uac with
  | false => rw [hsec rfl]; rfl
  | true => rfl

theorem decode_lock_type_to_bytes {l : Lock} {bytes : List UInt8} (hb : l.to_bytes = .ok bytes)
    (s : List UInt8) : decode_lock_type (bytes ++ s) = .ok l.lock_type := by
  rw [Lock.to_bytes] at hb
  split at hb
  · cases hb
  · cases hb
    simp only [List.cons_append, decode_lock_type, LockType.from_u8_to_u8]

theorem decode_lock_start_ts_to_bytes {l : Lock} (hp : l.primary.length ≤ ISIZE_MAX)
    {bytes : List UInt8} (hb : l.to_bytes = .ok bytes) (s : List UInt8) :
    decode_lock_start_ts (bytes ++ s) = .ok l.ts := by
  have htype := decode_lock_type_to_bytes hb s
  rw [Lock.to_bytes] at hb
  split at hb
  · cases hb
  · rename_i ht
    cases hb
    rw [decode_lock_start_ts, htype]
    simp only [List.cons_append, List.drop_succ_cons, List.drop_zero, List.append_assoc,
      codec_decode_compact_bytes_encode hp, codec_decode_var_u64_encode_var_u64, bind,
      Except.bind, pure, Except.pure]

theorem parse_lock_to_bytes {SharedLocks : Type}
    (shared_locks_parse : List UInt8 → Except Error SharedLocks) {l : Lock}
    {bytes : List UInt8} (hb : l.to_bytes = .ok bytes) (s : List UInt8)
    (hparse : Lock.parse (bytes ++ s) = .ok l) :
    parse_lock shared_locks_parse (bytes ++ s) = .ok (.inl l) := by
  have htype := decode_lock_type_to_bytes hb s
  have ht : l.lock_type ≠ .Shared := by
    intro h
    rw [Lock.to_bytes, if_pos h] at hb
    cases hb
  rw [parse_lock, htype]
  simp only [bind, Except.bind, hparse, pure, Except.pure]

section Size

theorem length_nonzero_u64_bytes (pfx : UInt8) (v : UInt64) :
    (nonzero_u64_bytes pfx v).length = if v ≠ 0 then 1 + U64_SIZE else 0 := by
  by_cases hv : v ≠ 0
  · simp only [nonzero_u64_bytes, if_pos hv, List.length_cons, length_encode_u64, U64_SIZE]
  · simp only [nonzero_u64_bytes, if_neg hv, List.length_nil]

theorem length_async_commit_bytes_le (uac : Bool) (secondaries : List (List UInt8))
    (hk : ∀ k ∈ secondaries, k.length ≤ ISIZE_MAX) :
    (async_commit_bytes uac secondaries).length ≤ if uac then
      1 + MAX_VAR_U64_LEN + (secondaries.map fun k => MAX_VAR_I64_LEN + k.length).sum else 0 := by
  cases uac with
  | false => simp [async_commit_bytes]
  | true =>
    have hlen := length_encode_var_u64_le (UInt64.ofNat secondaries.length)
    have hks : (secondaries.flatMap encode_compact_bytes).length ≤
        (secondaries.map fun k => MAX_VAR_I64_LEN + k.length).sum :=
      length_flatMap_le secondaries fun k hk' => length_encode_compact_bytes_le k
        (by have := hk k hk'; simp only [ISIZE_MAX] at this; omega)
    simp only [async_commit_bytes, if_true, List.cons_append, List.length_cons,
      List.length_append]
    omega

theorem length_flatMap_encode_u64 (vs : List UInt64) :
    (vs.flatMap encode_u64).length = U64_SIZE * vs.length := by
  induction vs with
  | nil => rfl
  | cons v vs ih =>
    rw [List.flatMap_cons, List.length_append, length_encode_u64, ih, List.length_cons,
      Nat.mul_succ, U64_SIZE]
    omega

theorem length_rollback_ts_bytes_le (rollback_ts : List UInt64) :
    (rollback_ts_bytes rollback_ts).length ≤ if rollback_ts ≠ [] then
      1 + MAX_VAR_U64_LEN + U64_SIZE * rollback_ts.length else 0 := by
  by_cases hr : rollback_ts ≠ []
  · have hlen := length_encode_var_u64_le (UInt64.ofNat rollback_ts.length)
    have hts := length_flatMap_encode_u64 rollback_ts
    simp only [rollback_ts_bytes, if_pos hr, List.cons_append, List.length_cons,
      List.length_append]
    omega
  · simp only [rollback_ts_bytes, if_neg hr, List.length_nil, Nat.le_refl]

end Size

theorem Lock.length_to_bytes_le {l : Lock} (hp : l.primary.length ≤ ISIZE_MAX)
    (hk : ∀ k ∈ l.secondaries, k.length ≤ ISIZE_MAX) {bytes : List UInt8}
    (hb : l.to_bytes = .ok bytes) : bytes.length ≤ l.pre_allocate_size := by
  rw [Lock.to_bytes] at hb
  split at hb
  · cases hb
  cases hb
  obtain ⟨lt, pr, ts, ttl, sv, fu, tsz, mc, uac, u1pc, secs, rts, lc, src, conf, gen⟩ := l
  have hpr := length_encode_compact_bytes_le pr (by simp only [ISIZE_MAX] at hp; omega)
  have hts := length_encode_var_u64_le ts
  have httl := length_encode_var_u64_le ttl
  have hfu := length_nonzero_u64_bytes Lock.FOR_UPDATE_TS_PREFIX fu
  have htsz := length_nonzero_u64_bytes Lock.TXN_SIZE_PREFIX tsz
  have hmc := length_nonzero_u64_bytes Lock.MIN_COMMIT_TS_PREFIX mc
  have hac := length_async_commit_bytes_le uac secs hk
  have hrts := length_rollback_ts_bytes_le rts
  have hlc := length_last_change_bytes_le Lock.LAST_CHANGE_PREFIX lc
  have hsrc := length_var_u64_bytes_le Lock.TXN_SOURCE_PREFIX src
  have hconf := length_flag_bytes Lock.PESSIMISTIC_LOCK_WITH_CONFLICT_PREFIX conf
  have hconf' : (if conf = true then 1 else 0) = conf.toNat := by cases conf <;> rfl
  have hgen := length_nonzero_u64_bytes Lock.GENERATION_PREFIX gen
  simp only [Lock.pre_allocate_size, List.cons_append, List.length_cons, List.length_append,
    UInt64.pos_iff_ne_zero, hconf'] at *
  -- the short value and the last change are the two fields whose size is a match
  cases sv <;> cases lc <;> simp only [short_value_bytes, List.length_cons, List.length_nil,
    reduceCtorEq, if_true, if_false] at * <;> omega

theorem lock_record_round_trip {SharedLocks : Type}
    (shared_locks_parse : List UInt8 → Except Error SharedLocks) (l : Lock)
    (ht : l.lock_type ≠ .Shared) (h1pc : l.use_one_pc = false)
    (hsv : ∀ v ∈ l.short_value, v.length ≤ SHORT_VALUE_MAX_LEN)
    (hsec : l.use_async_commit = false → l.secondaries = [])
    (hlc : ∀ ts n, l.last_change = .Exist ts n → 0 < ts ∧ 0 < n)
    (hvec : l.primary.length ≤ ISIZE_MAX ∧ l.secondaries.length ≤ ISIZE_MAX ∧
      (∀ k ∈ l.secondaries, k.length ≤ ISIZE_MAX) ∧ l.rollback_ts.length ≤ ISIZE_MAX) :
    ∃ bytes, l.to_bytes = .ok bytes ∧
      Lock.parse bytes = .ok l ∧ parse_lock shared_locks_parse bytes = .ok (.inl l) ∧
      decode_lock_type bytes = .ok l.lock_type ∧ decode_lock_start_ts bytes = .ok l.ts ∧
      (∀ s : List UInt8, (∀ x ∈ s.head?, Lock.is_field_prefix x = false) →
        Lock.parse (bytes ++ s) = Lock.parse bytes ∧
        parse_lock shared_locks_parse (bytes ++ s) = parse_lock shared_locks_parse bytes ∧
        decode_lock_type (bytes ++ s) = decode_lock_type bytes ∧
        decode_lock_start_ts (bytes ++ s) = decode_lock_start_ts bytes) ∧
      bytes.length ≤ l.pre_allocate_size := by
  obtain ⟨bytes, hb⟩ : ∃ bytes, l.to_bytes = .ok bytes := by
    rw [Lock.to_bytes, if_neg ht]
    exact ⟨_, rfl⟩
  have hparse := Lock.parse_to_bytes_append l ht h1pc hsv hsec hlc hvec hb
  have hnil : ∀ x ∈ ([] : List UInt8).head?, Lock.is_field_prefix x = false := by simp
  -- each reader at `bytes ++ s`, and at `bytes` as the case `s = []`
  have hall : ∀ s : List UInt8, (∀ x ∈ s.head?, Lock.is_field_prefix x = false) →
      Lock.parse (bytes ++ s) = .ok l ∧
      parse_lock shared_locks_parse (bytes ++ s) = .ok (.inl l) ∧
      decode_lock_type (bytes ++ s) = .ok l.lock_type ∧
      decode_lock_start_ts (bytes ++ s) = .ok l.ts := fun s hs =>
    ⟨hparse s hs, parse_lock_to_bytes shared_locks_parse hb s (hparse s hs),
      decode_lock_type_to_bytes hb s, decode_lock_start_ts_to_bytes hvec.1 hb s⟩
  obtain ⟨h1, h2, h3, h4⟩ := hall [] hnil
  rw [List.append_nil] at h1 h2 h3 h4
  refine ⟨bytes, hb, h1, h2, h3, h4, fun s hs => ?_, Lock.length_to_bytes_le hvec.1 hvec.2.2.1 hb⟩
  obtain ⟨g1, g2, g3, g4⟩ := hall s hs
  exact ⟨g1.trans h1.symm, g2.trans h2.symm, g3.trans h3.symm, g4.trans h4.symm⟩

def test_async_commit_lock : Lock :=
  ⟨.Put, [0x6b], 10, 3000, some [0x76], 0, 2, 11, true, false, [[0x61], [0x62]], [7],
    .Exist 5 1, 1, false, 3⟩

theorem lock_record_round_trip_async_commit :
    test_async_commit_lock.lock_type ≠ .Shared ∧ test_async_commit_lock.use_one_pc = false ∧
    (∀ v ∈ test_async_commit_lock.short_value, v.length ≤ SHORT_VALUE_MAX_LEN) ∧
    (test_async_commit_lock.use_async_commit = false → test_async_commit_lock.secondaries = []) ∧
    (∀ ts n, test_async_commit_lock.last_change = .Exist ts n → 0 < ts ∧ 0 < n) ∧
    ∃ bytes, test_async_commit_lock.to_bytes = .ok bytes ∧
      Lock.parse bytes = .ok test_async_commit_lock ∧
      bytes.length ≤ test_async_commit_lock.pre_allocate_size := by
  have ht : test_async_commit_lock.lock_type ≠ .Shared := by decide
  have hsv : ∀ v ∈ test_async_commit_lock.short_value, v.length ≤ SHORT_VALUE_MAX_LEN := by
    simp [test_async_commit_lock, SHORT_VALUE_MAX_LEN]
  have hsec : test_async_commit_lock.use_async_commit = false →
      test_async_commit_lock.secondaries = [] := by
    intro h
    cases h
  have hlc : ∀ ts n, test_async_commit_lock.last_change = .Exist ts n → 0 < ts ∧ 0 < n := by
    intro ts n h
    cases h
    decide
  have hvec : test_async_commit_lock.primary.length ≤ ISIZE_MAX ∧
      test_async_commit_lock.secondaries.length ≤ ISIZE_MAX ∧
      (∀ k ∈ test_async_commit_lock.secondaries, k.length ≤ ISIZE_MAX) ∧
      test_async_commit_lock.rollback_ts.length ≤ ISIZE_MAX := by
    simp [test_async_commit_lock, ISIZE_MAX]
  obtain ⟨bytes, hb, hparse, -, -, -, -, hlen⟩ :=
    lock_record_round_trip (fun _ => (.ok () : Except Error Unit)) test_async_commit_lock ht rfl
      hsv hsec hlc hvec
  exact ⟨ht, rfl, hsv, hsec, hlc, bytes, hb, hparse, hlen⟩

/-! ### Shared locks -/

def Lock.is_pessimistic_txn (l : Lock) : Bool := l.for_update_ts ≠ 0

/-- The shared locks on a key: the sub-lock of each transaction by its start_ts. The source keeps
a segment's bytes until it is first read; the model keeps it parsed. The list's order is the
iteration order of the source's hash map, which the source leaves unspecified. -/
structure SharedLocks where
  txn_info_segments : List (UInt64 × Lock)
  deriving DecidableEq, Repr

namespace SharedLocks

def len (sl : SharedLocks) : Nat := sl.txn_info_segments.length

def is_empty (sl : SharedLocks) : Bool := sl.txn_info_segments.isEmpty

def iter_ts (sl : SharedLocks) : List UInt64 := sl.txn_info_segments.map (·.1)

def remove_lock (sl : SharedLocks) (ts : UInt64) : Option Lock × SharedLocks :=
  (sl.txn_info_segments.lookup ts, ⟨Tikv.Lib.AssocList.erase ts sl.txn_info_segments⟩)

def filter_shared_locks (sl : SharedLocks) (f : Lock → Bool) : SharedLocks :=
  ⟨sl.txn_info_segments.filter fun p => f p.2⟩

def truncate_to (sl : SharedLocks) (n : Nat) : SharedLocks :=
  if sl.len ≤ n then sl
  else
    let all_ts := (sl.iter_ts.mergeSort fun a b => decide (a ≤ b)).take n
    ⟨sl.txn_info_segments.filter fun p => p.1 ∈ all_ts⟩

end SharedLocks

inductive LockOrSharedLocks
  | Left (lock : Lock)
  | Right (shared_locks : SharedLocks)
  deriving DecidableEq, Repr

end Tikv.TxnTypes
