import Tikv.Codec.Key

/-!
The raw values of API v2 (components/api_version/src/lib.rs and api_v2.rs): the user value,
an optional expire ts and a logical delete flag, stored as the user value, the expire ts as
eight big-endian bytes when there is one, and a last byte of meta flags. A raw key is the
memcomparable encoding of the user key with, for a version, its ts appended.
-/

namespace Tikv.ApiVersion

open Tikv.Codec

structure RawValue where
  user_value : List UInt8
  expire_ts : Option UInt64
  is_delete : Bool
  deriving DecidableEq, Repr

namespace RawValue

def is_ttl_expired (v : RawValue) (current_ts : UInt64) : Bool :=
  v.expire_ts.any fun expire_ts => expire_ts ≤ current_ts

def is_valid (v : RawValue) (current_ts : UInt64) : Bool :=
  !v.is_delete && !v.is_ttl_expired current_ts

end RawValue

structure ValueMeta where
  bits : UInt8
  deriving DecidableEq, Repr

namespace ValueMeta

def EXPIRE_TS : ValueMeta := ⟨0b0000_0001⟩

def DELETE_FLAG : ValueMeta := ⟨0b0000_0010⟩

def empty : ValueMeta := ⟨0⟩

def all : ValueMeta := ⟨EXPIRE_TS.bits ||| DELETE_FLAG.bits⟩

def insert (flags other : ValueMeta) : ValueMeta := ⟨flags.bits ||| other.bits⟩

def contains (flags other : ValueMeta) : Bool := flags.bits &&& other.bits == other.bits

def from_bits (bits : UInt8) : Option ValueMeta :=
  if bits &&& ~~~all.bits = 0 then some ⟨bits⟩ else none

end ValueMeta

def checked_sub (a b : Nat) : Option Nat :=
  if b ≤ a then some (a - b) else none

def ok_or {α : Type} (o : Option α) (err : Error) : Except Error α :=
  match o with
  | some a => .ok a
  | none => .error err

def decode_raw_value (bytes : List UInt8) : Except Error RawValue := do
  let rest_len ← ok_or (checked_sub bytes.length 1) .ValueLength
  -- rest_len < bytes.length here, so the default is never read
  let flags ← ok_or (ValueMeta.from_bits (bytes.getD rest_len 0)) .ValueMeta
  let is_delete := flags.contains .DELETE_FLAG
  if flags.contains .EXPIRE_TS then
    -- the source moves rest_len back over the expire ts
    let rest_len ← ok_or (checked_sub rest_len U64_SIZE) .ValueLength
    let (expire_ts, _) ← decode_u64 ((bytes.drop rest_len).take U64_SIZE)
    pure ⟨bytes.take rest_len, some expire_ts, is_delete⟩
  else
    pure ⟨bytes.take rest_len, none, is_delete⟩

def encode_raw_value (value : RawValue) : List UInt8 :=
  let flags := if value.expire_ts.isSome then ValueMeta.empty.insert .EXPIRE_TS else .empty
  let flags := if value.is_delete then flags.insert .DELETE_FLAG else flags
  let expire_ts := match value.expire_ts with
    | some expire_ts => encode_u64 expire_ts
    | none => []
  value.user_value ++ expire_ts ++ [flags.bits]

def encode_raw_key (user_key : List UInt8) (ts : Option UInt64) : Key :=
  let encoded_key := Key.from_raw user_key
  match ts with
  | some ts => encoded_key.append_ts ts
  | none => encoded_key

section RoundTrip

theorem flags_of_encode (expire : Bool) (is_delete : Bool) :
    let flags := if expire then ValueMeta.empty.insert .EXPIRE_TS else .empty
    let flags := if is_delete then flags.insert .DELETE_FLAG else flags
    ValueMeta.from_bits flags.bits = some flags ∧ flags.contains .DELETE_FLAG = is_delete ∧
      flags.contains .EXPIRE_TS = expire := by
  cases expire <;> cases is_delete <;> decide

theorem decode_raw_value_of_flags {u : List UInt8} {f : ValueMeta}
    (hf : ValueMeta.from_bits f.bits = some f) (he : f.contains .EXPIRE_TS = false) :
    decode_raw_value (u ++ [f.bits]) = .ok ⟨u, none, f.contains .DELETE_FLAG⟩ := by
  have hlen : checked_sub (u ++ [f.bits]).length 1 = some u.length := by
    simp [checked_sub]
  have hbyte : (u ++ [f.bits]).getD u.length 0 = f.bits := by
    simp [List.getD_eq_getElem?_getD]
  have htake : (u ++ [f.bits]).take u.length = u := by simp
  simp only [decode_raw_value, hlen, ok_or, hbyte, hf, he, Bool.false_eq_true, if_false, htake,
    bind, Except.bind, pure, Except.pure]

theorem decode_raw_value_of_flags_expire {u : List UInt8} {t : UInt64} {f : ValueMeta}
    (hf : ValueMeta.from_bits f.bits = some f) (he : f.contains .EXPIRE_TS = true) :
    decode_raw_value (u ++ encode_u64 t ++ [f.bits]) = .ok ⟨u, some t, f.contains .DELETE_FLAG⟩ := by
  have hlen : checked_sub (u ++ encode_u64 t ++ [f.bits]).length 1 = some (u.length + 8) := by
    simp [checked_sub]
  have hts : checked_sub (u.length + 8) U64_SIZE = some u.length := by
    simp [checked_sub, U64_SIZE]
  have hslice : ((u ++ encode_u64 t ++ [f.bits]).drop u.length).take U64_SIZE =
      encode_u64 t ++ [] := by
    simp [U64_SIZE]
  have htake : (u ++ encode_u64 t ++ [f.bits]).take u.length = u := by simp
  have hbyte : (u ++ encode_u64 t ++ [f.bits]).getD (u.length + 8) 0 = f.bits := by
    simp [List.getD_eq_getElem?_getD]
  simp only [decode_raw_value, hlen, ok_or, hbyte, hf, he, if_true, hts, hslice,
    decode_u64_encode_u64, htake, bind, Except.bind, pure, Except.pure]

theorem decode_raw_value_encode_raw_value (v : RawValue) :
    decode_raw_value (encode_raw_value v) = .ok v := by
  obtain ⟨u, expire_ts, is_delete⟩ := v
  cases expire_ts with
  | none =>
    obtain ⟨hf, hd, he⟩ := flags_of_encode false is_delete
    have h := decode_raw_value_of_flags (u := u) hf he
    rw [hd] at h
    simpa [encode_raw_value] using h
  | some t =>
    obtain ⟨hf, hd, he⟩ := flags_of_encode true is_delete
    have h := decode_raw_value_of_flags_expire (u := u) (t := t) hf he
    rw [hd] at h
    simpa [encode_raw_value] using h

end RoundTrip

end Tikv.ApiVersion
