import Tikv.Codec.VarInt
import Tikv.Mvcc.Write

/-!
The bytes of a write record (components/txn_types/src/write.rs): the type flag, the start ts as
a var u64, then each field that is not at its default behind a prefix byte, in a fixed order.
`WriteRef::parse` reads tagged fields in any order and stops at the first byte it does not
know, so that records written by newer versions still parse. A timestamp is the `u64` of
`TimeStamp`. `Write` owns its short value and `WriteRef` borrows it; here both hold a list.

`Panic` stands for a panic of the source (a failed assert, or a short value longer than the
bytes left), which is none of its errors.
-/

namespace Tikv.TxnTypes

open Tikv.Codec Tikv.Lib.Decoder

/-- The variants of ErrorInner (components/txn_types/src/lib.rs) that the codecs and the
shared locks' updates return. -/
inductive Error
  | Io (kind : ErrorKind) (msg : String)
  | Codec (e : Tikv.Codec.Error)
  | BadFormatLock
  | BadFormatWrite
  | InvalidOperation (msg : String)
  | Panic
  deriving DecidableEq, Repr

/-- LastChange of components/txn_types/src/types.rs. -/
inductive LastChange
  | Unknown
  | Exist (last_change_ts : UInt64) (estimated_versions_to_last_change : UInt64)
  | NotExist
  deriving DecidableEq, Repr

def LastChange.make_exist (last_change_ts estimated_versions_to_last_change : UInt64) :
    Except Error LastChange :=
  if last_change_ts = 0 ∨ estimated_versions_to_last_change = 0 then .error .Panic
  else .ok (.Exist last_change_ts estimated_versions_to_last_change)

def LastChange.to_parts : LastChange → UInt64 × UInt64
  | .Unknown => (0, 0)
  | .Exist last_change_ts estimated_versions_to_last_change =>
    (last_change_ts, estimated_versions_to_last_change)
  | .NotExist => (0, 1)

def LastChange.from_parts (last_change_ts estimated_versions_to_last_change : UInt64) :
    Except Error LastChange :=
  if last_change_ts = 0 then
    if estimated_versions_to_last_change > 0 then .ok .NotExist else .ok .Unknown
  else LastChange.make_exist last_change_ts estimated_versions_to_last_change

def SHORT_VALUE_PREFIX : UInt8 := 'v'.toUInt8

def SHORT_VALUE_MAX_LEN : Nat := 255

namespace Write

def FLAG_PUT : UInt8 := 'P'.toUInt8

def FLAG_DELETE : UInt8 := 'D'.toUInt8

def FLAG_LOCK : UInt8 := 'L'.toUInt8

def FLAG_ROLLBACK : UInt8 := 'R'.toUInt8

def FLAG_OVERLAPPED_ROLLBACK : UInt8 := 'R'.toUInt8

def GC_FENCE_PREFIX : UInt8 := 'F'.toUInt8

def LAST_CHANGE_PREFIX : UInt8 := 'l'.toUInt8

def TXN_SOURCE_PREFIX : UInt8 := 'S'.toUInt8

end Write

end Tikv.TxnTypes

namespace Tikv.Mvcc

open Tikv.TxnTypes

def WriteType.from_u8 (b : UInt8) : Option WriteType :=
  if b = Write.FLAG_PUT then some .Put
  else if b = Write.FLAG_DELETE then some .Delete
  else if b = Write.FLAG_LOCK then some .Lock
  else if b = Write.FLAG_ROLLBACK then some .Rollback
  else none

def WriteType.to_u8 : WriteType → UInt8
  | .Put => Write.FLAG_PUT
  | .Delete => Write.FLAG_DELETE
  | .Lock => Write.FLAG_LOCK
  | .Rollback => Write.FLAG_ROLLBACK

theorem WriteType.from_u8_to_u8 (t : WriteType) : WriteType.from_u8 t.to_u8 = some t := by
  cases t <;> decide

end Tikv.Mvcc

namespace Tikv.TxnTypes

open Tikv.Codec Tikv.Lib.Decoder
open Tikv.Mvcc (WriteType)

structure Write where
  write_type : WriteType
  start_ts : UInt64
  short_value : Option (List UInt8)
  has_overlapped_rollback : Bool
  gc_fence : Option UInt64
  last_change : LastChange
  txn_source : UInt64
  deriving DecidableEq, Repr

structure WriteRef where
  write_type : WriteType
  start_ts : UInt64
  short_value : Option (List UInt8)
  has_overlapped_rollback : Bool
  gc_fence : Option UInt64
  last_change : LastChange
  txn_source : UInt64
  deriving DecidableEq, Repr

def Write.new (write_type : WriteType) (start_ts : UInt64) (short_value : Option (List UInt8)) :
    Write :=
  ⟨write_type, start_ts, short_value, false, none, .Unknown, 0⟩

def Write.set_overlapped_rollback (w : Write) (has_overlapped_rollback : Bool)
    (gc_fence : Option UInt64) : Write :=
  { w with has_overlapped_rollback := has_overlapped_rollback, gc_fence := gc_fence }

def Write.set_last_change (w : Write) (last_change : LastChange) : Write :=
  { w with last_change := last_change }

def Write.set_txn_source (w : Write) (source : UInt64) : Write :=
  { w with txn_source := source }

def Write.as_ref (w : Write) : WriteRef :=
  ⟨w.write_type, w.start_ts, w.short_value, w.has_overlapped_rollback, w.gc_fence, w.last_change,
    w.txn_source⟩

def WriteRef.to_owned (w : WriteRef) : Write :=
  ((Write.new w.write_type w.start_ts w.short_value).set_overlapped_rollback
    w.has_overlapped_rollback w.gc_fence |>.set_last_change w.last_change).set_txn_source
    w.txn_source

def Write.parse_type (b : List UInt8) : Except Error WriteType := do
  let (write_type_bytes, _) ← (NumberDecoder.read_u8 b).mapError fun _ => Error.BadFormatWrite
  let some write_type := WriteType.from_u8 write_type_bytes | throw Error.BadFormatWrite
  pure write_type

structure WriteRef.Fields where
  short_value : Option (List UInt8) := none
  has_overlapped_rollback : Bool := false
  gc_fence : Option UInt64 := none
  last_change_ts : UInt64 := 0
  estimated_versions_to_last_change : UInt64 := 0
  txn_source : UInt64 := 0
  deriving DecidableEq, Repr

def WriteRef.parse_fields (b : List UInt8) (f : WriteRef.Fields) : Except Error WriteRef.Fields :=
  match b with
  | [] => .ok f
  | flag :: b =>
    if flag = SHORT_VALUE_PREFIX then
      match _hl : NumberDecoder.read_u8 b with
      | .error _ => .error .BadFormatWrite
      | .ok (len, b') =>
        if b'.length < len.toNat then .error .Panic
        else WriteRef.parse_fields (b'.drop len.toNat)
          { f with short_value := some (b'.take len.toNat) }
    else if flag = Write.FLAG_OVERLAPPED_ROLLBACK then
      WriteRef.parse_fields b { f with has_overlapped_rollback := true }
    else if flag = Write.GC_FENCE_PREFIX then
      match _hd : decode_u64 b with
      | .error e => .error (.Codec e)
      | .ok (gc_fence, b') => WriteRef.parse_fields b' { f with gc_fence := some gc_fence }
    else if flag = Write.LAST_CHANGE_PREFIX then
      match _hd : decode_u64 b with
      | .error e => .error (.Codec e)
      | .ok (last_change_ts, b') =>
        match _hv : decode_var_u64 b' with
        | .error e => .error (.Codec e)
        | .ok (versions, b'') =>
          WriteRef.parse_fields b''
            { f with last_change_ts := last_change_ts, estimated_versions_to_last_change := versions }
    else if flag = Write.TXN_SOURCE_PREFIX then
      match _hd : decode_var_u64 b with
      | .error e => .error (.Codec e)
      | .ok (txn_source, b') => WriteRef.parse_fields b' { f with txn_source := txn_source }
    -- an unknown byte ends the fields, for forward compatibility
    else .ok f
termination_by b.length
decreasing_by
  all_goals simp only [List.length_cons]
  · have := consumes_read_u8 ‹_›
    simp only [List.length_drop]
    omega
  · omega
  · have := consumes_decode_u64 ‹_›
    omega
  · have := consumes_decode_u64 ‹_›
    have := consumes_decode_var_u64 ‹_›
    omega
  · have := consumes_decode_var_u64 ‹_›
    omega

def WriteRef.parse (b : List UInt8) : Except Error WriteRef := do
  let (write_type_bytes, b) ← (NumberDecoder.read_u8 b).mapError fun _ => Error.BadFormatWrite
  let some write_type := WriteType.from_u8 write_type_bytes | throw Error.BadFormatWrite
  let (start_ts, b) ← (NumberDecoder.read_var_u64 b).mapError fun _ => Error.BadFormatWrite
  let f ← WriteRef.parse_fields b {}
  let last_change ← LastChange.from_parts f.last_change_ts f.estimated_versions_to_last_change
  pure ⟨write_type, start_ts, f.short_value, f.has_overlapped_rollback, f.gc_fence, last_change,
    f.txn_source⟩

def short_value_bytes : Option (List UInt8) → List UInt8
  | some v => SHORT_VALUE_PREFIX :: UInt8.ofNat v.length :: v
  | none => []

def flag_bytes (pfx : UInt8) (flag : Bool) : List UInt8 :=
  if flag then [pfx] else []

def opt_u64_bytes (pfx : UInt8) : Option UInt64 → List UInt8
  | some ts => pfx :: encode_u64 ts
  | none => []

def var_u64_bytes (pfx : UInt8) (v : UInt64) : List UInt8 :=
  if v ≠ 0 then pfx :: encode_var_u64 v else []

def last_change_bytes (pfx : UInt8) (last_change : LastChange) : List UInt8 :=
  match last_change with
  | .NotExist | .Exist .. =>
    let (last_change_ts, versions) := last_change.to_parts
    pfx :: encode_u64 last_change_ts ++ encode_var_u64 versions
  | .Unknown => []

def WriteRef.to_bytes (w : WriteRef) : List UInt8 :=
  w.write_type.to_u8 :: encode_var_u64 w.start_ts ++
    (short_value_bytes w.short_value ++
    (flag_bytes Write.FLAG_OVERLAPPED_ROLLBACK w.has_overlapped_rollback ++
    (opt_u64_bytes Write.GC_FENCE_PREFIX w.gc_fence ++
    (last_change_bytes Write.LAST_CHANGE_PREFIX w.last_change ++
    var_u64_bytes Write.TXN_SOURCE_PREFIX w.txn_source))))

def WriteRef.pre_allocate_size (w : WriteRef) : Nat :=
  1 + MAX_VAR_U64_LEN + w.has_overlapped_rollback.toNat +
    (match w.short_value with
      | some v => 2 + v.length
      | none => 0) +
    (if w.gc_fence.isSome then 1 + U64_SIZE else 0) +
    (match w.last_change with
      | .NotExist | .Exist .. => 1 + U64_SIZE + MAX_VAR_U64_LEN
      | .Unknown => 0) +
    (if w.txn_source ≠ 0 then 1 + MAX_VAR_U64_LEN else 0)

theorem LastChange.from_parts_to_parts {lc : LastChange}
    (h : ∀ ts n, lc = .Exist ts n → 0 < ts ∧ 0 < n) :
    LastChange.from_parts lc.to_parts.1 lc.to_parts.2 = .ok lc := by
  cases lc with
  | Unknown => rfl
  | NotExist => rfl
  | Exist ts n =>
    obtain ⟨hts, hn⟩ := h ts n rfl
    have hts' : ts ≠ 0 := by
      rintro rfl
      exact absurd hts (by decide)
    have hn' : n ≠ 0 := by
      rintro rfl
      exact absurd hn (by decide)
    simp only [LastChange.to_parts, LastChange.from_parts, LastChange.make_exist, hts', hn',
      or_self, if_false]

section Parse

variable (rest : List UInt8) (f : WriteRef.Fields)

theorem toNat_ofNat_length {v : List UInt8} (hv : v.length ≤ SHORT_VALUE_MAX_LEN) :
    (UInt8.ofNat v.length).toNat = v.length := by
  rw [UInt8.toNat_ofNat']
  simp only [SHORT_VALUE_MAX_LEN] at hv
  omega

theorem parse_fields_short_value {sv : Option (List UInt8)}
    (hsv : ∀ v ∈ sv, v.length ≤ SHORT_VALUE_MAX_LEN) (hf : f.short_value = none) :
    WriteRef.parse_fields (short_value_bytes sv ++ rest) f =
      WriteRef.parse_fields rest { f with short_value := sv } := by
  cases sv with
  | none =>
    cases f
    simp only at hf
    rw [hf]
    rfl
  | some v =>
    rw [short_value_bytes, List.cons_append, WriteRef.parse_fields, if_pos rfl]
    simp only [List.cons_append, NumberDecoder.read_u8]
    rw [toNat_ofNat_length (hsv v rfl), if_neg (by simp), List.drop_left, List.take_left]

theorem parse_fields_overlapped_rollback (ov : Bool) (hf : f.has_overlapped_rollback = false) :
    WriteRef.parse_fields (flag_bytes Write.FLAG_OVERLAPPED_ROLLBACK ov ++ rest) f =
      WriteRef.parse_fields rest { f with has_overlapped_rollback := ov } := by
  cases ov with
  | false =>
    cases f
    simp only at hf
    rw [hf]
    rfl
  | true =>
    rw [flag_bytes, if_pos rfl, List.singleton_append, WriteRef.parse_fields, if_neg (by decide),
      if_pos rfl]

theorem parse_fields_gc_fence (gc : Option UInt64) (hf : f.gc_fence = none) :
    WriteRef.parse_fields (opt_u64_bytes Write.GC_FENCE_PREFIX gc ++ rest) f =
      WriteRef.parse_fields rest { f with gc_fence := gc } := by
  cases gc with
  | none =>
    cases f
    simp only at hf
    rw [hf]
    rfl
  | some ts =>
    rw [opt_u64_bytes, List.cons_append, WriteRef.parse_fields, if_neg (by decide),
      if_neg (by decide), if_pos rfl]
    split
    · rename_i heq
      simp [decode_u64_encode_u64] at heq
    · rename_i heq
      simp only [decode_u64_encode_u64, Except.ok.injEq, Prod.mk.injEq] at heq
      obtain ⟨rfl, rfl⟩ := heq
      rfl

theorem parse_fields_last_change (lc : LastChange) (hf1 : f.last_change_ts = 0)
    (hf2 : f.estimated_versions_to_last_change = 0) :
    WriteRef.parse_fields (last_change_bytes Write.LAST_CHANGE_PREFIX lc ++ rest) f =
      WriteRef.parse_fields rest
        { f with last_change_ts := lc.to_parts.1,
                 estimated_versions_to_last_change := lc.to_parts.2 } := by
  -- Unknown writes nothing, and its parts are the loop's defaults
  have hread (ts versions : UInt64) :
      WriteRef.parse_fields
          (Write.LAST_CHANGE_PREFIX :: encode_u64 ts ++ encode_var_u64 versions ++ rest) f =
        WriteRef.parse_fields rest
          { f with last_change_ts := ts, estimated_versions_to_last_change := versions } := by
    rw [List.append_assoc, List.cons_append, WriteRef.parse_fields, if_neg (by decide),
      if_neg (by decide), if_neg (by decide), if_pos rfl]
    split
    · rename_i heq
      simp [decode_u64_encode_u64] at heq
    · rename_i heq
      simp only [decode_u64_encode_u64, Except.ok.injEq, Prod.mk.injEq] at heq
      obtain ⟨rfl, rfl⟩ := heq
      split
      · rename_i heq
        simp [decode_var_u64_encode_var_u64] at heq
      · rename_i heq
        simp only [decode_var_u64_encode_var_u64, Except.ok.injEq, Prod.mk.injEq] at heq
        obtain ⟨rfl, rfl⟩ := heq
        rfl
  cases lc with
  | Unknown =>
    cases f
    simp only at hf1 hf2
    rw [last_change_bytes, List.nil_append, hf1, hf2]
    rfl
  | NotExist => exact hread _ _
  | Exist ts n => exact hread _ _

theorem parse_fields_txn_source (src : UInt64) (hf : f.txn_source = 0) :
    WriteRef.parse_fields (var_u64_bytes Write.TXN_SOURCE_PREFIX src ++ rest) f =
      WriteRef.parse_fields rest { f with txn_source := src } := by
  by_cases hsrc : src = 0
  · cases f
    simp only at hf
    rw [var_u64_bytes, if_neg (not_not_intro hsrc), List.nil_append, hsrc, hf]
  · rw [var_u64_bytes, if_pos hsrc, List.cons_append, WriteRef.parse_fields, if_neg (by decide),
      if_neg (by decide), if_neg (by decide), if_neg (by decide), if_pos rfl]
    split
    · rename_i heq
      simp [decode_var_u64_encode_var_u64] at heq
    · rename_i heq
      simp only [decode_var_u64_encode_var_u64, Except.ok.injEq, Prod.mk.injEq] at heq
      obtain ⟨rfl, rfl⟩ := heq
      rfl

theorem parse_fields_stop
    (h : ∀ x ∈ rest.head?, x ≠ SHORT_VALUE_PREFIX ∧ x ≠ Write.FLAG_OVERLAPPED_ROLLBACK ∧
      x ≠ Write.GC_FENCE_PREFIX ∧ x ≠ Write.LAST_CHANGE_PREFIX ∧ x ≠ Write.TXN_SOURCE_PREFIX) :
    WriteRef.parse_fields rest f = .ok f := by
  match rest, h with
  | [], _ => rw [WriteRef.parse_fields]
  | x :: rest, h =>
    obtain ⟨h1, h2, h3, h4, h5⟩ := h x rfl
    rw [WriteRef.parse_fields, if_neg h1, if_neg h2, if_neg h3, if_neg h4, if_neg h5]

end Parse

theorem WriteRef.parse_to_bytes_append (w : WriteRef)
    (hsv : ∀ v ∈ w.short_value, v.length ≤ SHORT_VALUE_MAX_LEN)
    (hlc : ∀ ts n, w.last_change = .Exist ts n → 0 < ts ∧ 0 < n) (s : List UInt8)
    (hs : ∀ x ∈ s.head?, x ≠ SHORT_VALUE_PREFIX ∧ x ≠ Write.FLAG_OVERLAPPED_ROLLBACK ∧
      x ≠ Write.GC_FENCE_PREFIX ∧ x ≠ Write.LAST_CHANGE_PREFIX ∧ x ≠ Write.TXN_SOURCE_PREFIX) :
    WriteRef.parse (w.to_bytes ++ s) = .ok w := by
  rw [WriteRef.parse, WriteRef.to_bytes]
  simp only [List.cons_append, List.append_assoc, NumberDecoder.read_u8, Except.mapError,
    bind, Except.bind, WriteType.from_u8_to_u8]
  rw [read_var_u64_encode_var_u64]
  simp only
  -- the loop reads the fields in the order they were written, then stops at `s`
  rw [parse_fields_short_value _ _ hsv rfl, parse_fields_overlapped_rollback _ _ _ rfl,
    parse_fields_gc_fence _ _ _ rfl, parse_fields_last_change _ _ _ rfl rfl,
    parse_fields_txn_source _ _ _ rfl, parse_fields_stop s _ hs]
  simp only [LastChange.from_parts_to_parts hlc, pure, Except.pure]

theorem Write.parse_type_to_bytes (w : WriteRef) (s : List UInt8) :
    Write.parse_type (w.to_bytes ++ s) = .ok w.write_type := by
  rw [Write.parse_type, WriteRef.to_bytes]
  simp only [List.cons_append, NumberDecoder.read_u8, Except.mapError, bind, Except.bind,
    WriteType.from_u8_to_u8, pure, Except.pure]

section Size

theorem length_flag_bytes (pfx : UInt8) (flag : Bool) :
    (flag_bytes pfx flag).length = flag.toNat := by
  cases flag <;> rfl

theorem length_opt_u64_bytes (pfx : UInt8) (o : Option UInt64) :
    (opt_u64_bytes pfx o).length = if o.isSome then 1 + U64_SIZE else 0 := by
  cases o <;> simp [opt_u64_bytes, U64_SIZE]

theorem length_var_u64_bytes_le (pfx : UInt8) (v : UInt64) :
    (var_u64_bytes pfx v).length ≤ if v ≠ 0 then 1 + MAX_VAR_U64_LEN else 0 := by
  by_cases hv : v ≠ 0
  · have := length_encode_var_u64_le v
    simp only [var_u64_bytes, if_pos hv, List.length_cons]
    omega
  · simp only [var_u64_bytes, if_neg hv, List.length_nil, Nat.le_refl]

theorem length_last_change_bytes_le (pfx : UInt8) (lc : LastChange) :
    (last_change_bytes pfx lc).length ≤ if lc = .Unknown then 0 else 1 + U64_SIZE + MAX_VAR_U64_LEN := by
  have := length_encode_var_u64_le lc.to_parts.2
  cases lc <;> simp [last_change_bytes, U64_SIZE] at this ⊢ <;> omega

end Size

theorem WriteRef.length_to_bytes_le (w : WriteRef) :
    w.to_bytes.length ≤ w.pre_allocate_size := by
  obtain ⟨t, ts, sv, ov, gc, lc, src⟩ := w
  have hts := length_encode_var_u64_le ts
  have hov := length_flag_bytes Write.FLAG_OVERLAPPED_ROLLBACK ov
  have hgc := length_opt_u64_bytes Write.GC_FENCE_PREFIX gc
  have hlc := length_last_change_bytes_le Write.LAST_CHANGE_PREFIX lc
  have hsrc := length_var_u64_bytes_le Write.TXN_SOURCE_PREFIX src
  simp only [WriteRef.to_bytes, WriteRef.pre_allocate_size, List.cons_append, List.length_cons,
    List.length_append] at *
  -- the short value and the last change are the two fields whose size is a match
  cases sv <;> cases lc <;> simp only [short_value_bytes, List.length_cons, List.length_nil,
    reduceCtorEq, if_true, if_false] at * <;> omega

theorem write_record_round_trip (w : Write)
    (hsv : ∀ v ∈ w.short_value, v.length ≤ SHORT_VALUE_MAX_LEN)
    (hlc : ∀ ts n, w.last_change = .Exist ts n → 0 < ts ∧ 0 < n) :
    (WriteRef.parse w.as_ref.to_bytes).map WriteRef.to_owned = .ok w ∧
    Write.parse_type w.as_ref.to_bytes = .ok w.write_type ∧
    (∀ s : List UInt8, (∀ x ∈ s.head?, x ≠ SHORT_VALUE_PREFIX ∧ x ≠ Write.FLAG_OVERLAPPED_ROLLBACK ∧
        x ≠ Write.GC_FENCE_PREFIX ∧ x ≠ Write.LAST_CHANGE_PREFIX ∧ x ≠ Write.TXN_SOURCE_PREFIX) →
      WriteRef.parse (w.as_ref.to_bytes ++ s) = WriteRef.parse w.as_ref.to_bytes) ∧
    w.as_ref.to_bytes.length ≤ w.as_ref.pre_allocate_size := by
  have hparse := WriteRef.parse_to_bytes_append w.as_ref hsv hlc
  refine ⟨?_, ?_, ?_, WriteRef.length_to_bytes_le w.as_ref⟩
  · rw [← List.append_nil w.as_ref.to_bytes, hparse [] (by simp)]
    rfl
  · rw [← List.append_nil w.as_ref.to_bytes, Write.parse_type_to_bytes]
    rfl
  · intro s hs
    rw [hparse s hs, ← List.append_nil w.as_ref.to_bytes, hparse [] (by simp)]

/-- A Put rewritten by an overlapped rollback with no newer version (a GC fence of zero),
whose short value starts with the short value prefix itself. -/
theorem write_record_round_trip_fenced :
    (∀ v ∈ (some [0x76, 0x52] : Option (List UInt8)), v.length ≤ SHORT_VALUE_MAX_LEN) ∧
    (∀ ts n, (LastChange.Exist 390 2) = .Exist ts n → 0 < ts ∧ 0 < n) ∧
    (WriteRef.parse
        (Write.as_ref ⟨.Put, 400, some [0x76, 0x52], true, some 0, .Exist 390 2, 1⟩).to_bytes).map
      WriteRef.to_owned = .ok ⟨.Put, 400, some [0x76, 0x52], true, some 0, .Exist 390 2, 1⟩ := by
  have hsv : ∀ v ∈ (some [0x76, 0x52] : Option (List UInt8)), v.length ≤ SHORT_VALUE_MAX_LEN := by
    simp [SHORT_VALUE_MAX_LEN]
  have hlc : ∀ ts n, (LastChange.Exist 390 2) = .Exist ts n → 0 < ts ∧ 0 < n := by
    intro ts n h
    cases h
    decide
  exact ⟨hsv, hlc,
    (write_record_round_trip ⟨.Put, 400, some [0x76, 0x52], true, some 0, .Exist 390 2, 1⟩
      hsv hlc).1⟩

end Tikv.TxnTypes
