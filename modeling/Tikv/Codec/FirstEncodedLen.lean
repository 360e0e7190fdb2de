import Tikv.Codec.VarIntDecoders

/-!
The scanners that find where the first encoding in a buffer ends, against the decoders. The
scanners skip the data and read markers only: tikv_util's \x60encoded_bytes_len\x60 and the codec
crate's \x60get_first_encoded_len\x60 step from one nine-byte chunk's marker to the next until a
marker is not a full group's, and \x60get_first_encoded_var_int_len\x60 stops at the first byte
below 0x80. Wherever a memcomparable decoder succeeds, the bytes it consumed are one encoding
(\x60decode_bytes_loop_canonical\x60), and on an encoding the scan stops at its end.
-/

namespace Tikv.Codec

open Tikv.Lib.Buffer MemComparableByteCodec

section Bytes

variable (desc : Bool)

theorem scan_marker_full :
    (desc && marker_byte desc 0 != 0 || !desc && marker_byte desc 0 != ENC_MARKER) = false := by
  cases desc <;> decide

theorem scan_marker_last {p : Nat} (hp : 0 < p) (hp8 : p ≤ ENC_GROUP_SIZE) :
    (desc && marker_byte desc p != 0 || !desc && marker_byte desc p != ENC_MARKER) = true := by
  have hpad := pad_size_marker_byte desc hp8
  cases desc
  · simp only [Bool.false_eq_true, if_false] at hpad
    have hne : marker_byte false p ≠ ENC_MARKER := by
      intro h
      rw [h, show ENC_MARKER - ENC_MARKER = 0 from rfl] at hpad
      simp at hpad
      omega
    simpa using hne
  · simp only [if_true] at hpad
    have hne : marker_byte true p ≠ 0 := by
      intro h
      rw [h] at hpad
      simp at hpad
      omega
    simpa using hne

theorem encoded_bytes_len_loop_group_encode (k : List UInt8) {data : List UInt8} {offset : Nat}
    (s : List UInt8) (h : data.drop offset = adjust_bytes_order (group_encode k) desc ++ s) :
    encoded_bytes_len_loop data desc (offset + ENC_GROUP_SIZE) =
      offset + (group_encode k).length := by
  induction k using group_encode.induct generalizing offset with
  | case1 k hk ih =>
    have hge := group_encode_full hk
    rw [hge, adjust_append, adjust_full_marker, List.append_assoc, List.cons_append] at h
    have hb : (adjust_bytes_order (k.take 8) desc).length = ENC_GROUP_SIZE := by
      simp [ENC_GROUP_SIZE]
      omega
    have hm : data.getD (offset + ENC_GROUP_SIZE) 0 = marker_byte desc 0 :=
      getD_of_drop_eq_cons (by rw [← List.drop_drop, h, List.drop_left' hb]) 0
    have hlen : ¬ data.length < offset + ENC_GROUP_SIZE + 1 := by
      have := congrArg List.length h
      simp only [List.length_drop, List.length_append, List.length_cons, hb] at this
      omega
    -- a full group: the scan goes on from the next chunk's marker
    rw [encoded_bytes_len_loop, if_neg hlen]
    simp only [hm, scan_marker_full, Bool.false_eq_true, if_false]
    rw [show offset + ENC_GROUP_SIZE + ENC_GROUP_SIZE + 1 =
      offset + (ENC_GROUP_SIZE + 1) + ENC_GROUP_SIZE by omega, ih (drop_chunk h hb), hge]
    simp only [List.length_append, List.length_cons, List.length_take, ENC_GROUP_SIZE]
    omega
  | case2 k hk =>
    have hp : 8 - k.length ≤ ENC_GROUP_SIZE := by simp [ENC_GROUP_SIZE]
    have hge := group_encode_last (show k.length < 8 by omega)
    rw [hge, ← List.append_assoc, adjust_append, adjust_last_marker, List.append_assoc,
      List.singleton_append, adjust_append] at h
    have hb : (adjust_bytes_order k desc ++
        adjust_bytes_order (List.replicate (8 - k.length) 0) desc).length = ENC_GROUP_SIZE := by
      simp [ENC_GROUP_SIZE]
      omega
    have hm : data.getD (offset + ENC_GROUP_SIZE) 0 = marker_byte desc (8 - k.length) :=
      getD_of_drop_eq_cons (by rw [← List.drop_drop, h, List.drop_left' hb]) 0
    have hlen : ¬ data.length < offset + ENC_GROUP_SIZE + 1 := by
      have := congrArg List.length h
      simp only [List.length_drop, List.length_append, List.length_cons] at this hb
      omega
    -- the last group: its marker counts at least one pad byte
    rw [encoded_bytes_len_loop, if_neg hlen]
    simp only [hm, scan_marker_last desc (show 0 < 8 - k.length by omega) hp, if_true, hge]
    simp only [List.length_append, List.length_replicate, List.length_singleton, ENC_GROUP_SIZE]
    omega

theorem encoded_bytes_len_of_decode {d k rest : List UInt8} (h : decode_bytes d desc = .ok (k, rest)) :
    encoded_bytes_len d desc = d.length - rest.length := by
  obtain ⟨k', -, hd⟩ := decode_bytes_loop_canonical desc h
  have hscan := @encoded_bytes_len_loop_group_encode desc k' d 0 rest hd
  rw [List.drop_zero] at hd
  rw [Nat.zero_add, Nat.zero_add] at hscan
  rw [encoded_bytes_len, hscan, hd, List.length_append, length_adjust]
  omega

theorem parse_padding_size_pos_iff (m : UInt8) :
    0 < (if desc then Descending else Ascending).parse_padding_size m ↔
      (desc && m != 0 || !desc && m != ENC_MARKER) = true := by
  have hm := m.toNat_lt
  have hsize : UInt8.size = 256 := rfl
  cases desc
  · simp only [Bool.false_eq_true, if_false, Ascending, UInt8.toNat_not, Bool.false_and,
      Bool.not_false, Bool.true_and, Bool.false_or, bne_iff_ne, ne_eq, ENC_MARKER,
      ← UInt8.toNat_inj, UInt8.reduceToNat]
    omega
  · simp only [if_true, Descending, Bool.true_and, Bool.not_true, Bool.false_and, Bool.or_false,
      bne_iff_ne, ne_eq, ← UInt8.toNat_inj, UInt8.reduceToNat]
    omega

theorem get_first_encoded_len_loop_eq (d : List UInt8) (idx : Nat) :
    get_first_encoded_len_loop (if desc then Descending else Ascending) d idx =
      encoded_bytes_len_loop d desc idx := by
  rw [get_first_encoded_len_loop, encoded_bytes_len_loop]
  by_cases hlen : d.length < idx + 1
  · rw [if_pos hlen, if_pos hlen]
  · rw [if_neg hlen, if_neg hlen]
    simp only
    by_cases hend : (desc && d.getD idx 0 != 0 || !desc && d.getD idx 0 != ENC_MARKER) = true
    · rw [if_pos ((parse_padding_size_pos_iff desc _).mpr hend), if_pos hend]
    · rw [if_neg (fun h => hend ((parse_padding_size_pos_iff desc _).mp h)), if_neg hend,
        get_first_encoded_len_loop_eq d (idx + (MEMCMP_GROUP_SIZE + 1))]
      rfl
termination_by d.length - idx

theorem get_first_encoded_len_of_decode {d dest dest' : List UInt8} {read written : Nat}
    (h : try_decode_first_loop (if desc then Descending else Ascending) d 0 0 dest =
      (.ok (read, written), dest')) (hlen : d.length ≤ dest.length) :
    get_first_encoded_len_internal (if desc then Descending else Ascending) d = read := by
  have ha := decode_agree_of_length desc d dest hlen
  rw [h] at ha
  generalize hdec : decode_bytes d desc = r at ha
  cases ha with
  | ok k rest _ _ _ _ _ hread hrest =>
    rw [get_first_encoded_len_internal, get_first_encoded_len_loop_eq,
      show MEMCMP_GROUP_SIZE = ENC_GROUP_SIZE from rfl, ← encoded_bytes_len,
      encoded_bytes_len_of_decode desc hdec, hrest, List.length_drop]
    omega

theorem internal_of_short {T : MemComparableCodecHelper} {d dest : List UInt8}
    (h : ¬ d.length ≤ dest.length) : try_decode_first_internal T d dest = none := by
  rw [try_decode_first_internal, if_pos (by omega)]

end Bytes

theorem get_first_encoded_len_write_compact_bytes (x s : List UInt8) (hx : x.length < 2 ^ 63) :
    CompactByteCodec.get_first_encoded_len (CompactByteEncoder.write_compact_bytes x ++ s) =
      (CompactByteEncoder.write_compact_bytes x).length := by
  have hle := (length_encode_var_u64_bounds
    (if Int64.ofNat x.length < 0 then ~~~((Int64.ofNat x.length).toUInt64 <<< 1)
      else (Int64.ofNat x.length).toUInt64 <<< 1)).2
  have hn : (encode_var_i64 (Int64.ofNat x.length)).length ≤ 10 := by
    rw [encode_var_i64]
    exact hle
  have hsum : ((Int64.ofNat x.length).toUInt64 +
      UInt64.ofNat (encode_var_i64 (Int64.ofNat x.length)).length).toNat =
      x.length + (encode_var_i64 (Int64.ofNat x.length)).length := by
    rw [Int64.toUInt64_ofNat', UInt64.toNat_add, UInt64.toNat_ofNat', UInt64.toNat_ofNat']
    omega
  rw [CompactByteCodec.get_first_encoded_len, CompactByteEncoder.write_compact_bytes,
    List.append_assoc, try_decode_var_i64_encode_var_i64]
  dsimp only
  rw [hsum, List.length_append, List.length_append, List.length_append]
  omega

/-- The scanners agree with the decoders on where the first encoding ends: whenever a
memcomparable decoder succeeds, the scanner of its crate and order counts the bytes it
consumed; and on an encoded var u64 or compact bytes, followed by anything, the codec crate's
scanners return the length of the encoding. -/
theorem first_encoded_len_scanners_agree :
    (∀ d desc k rest, decode_bytes d desc = .ok (k, rest) →
      encoded_bytes_len d desc = d.length - rest.length) ∧
    (∀ d dest read written dest', try_decode_first d dest = some (.ok (read, written), dest') →
      get_first_encoded_len d = read) ∧
    (∀ d dest read written dest', try_decode_first_desc d dest = some (.ok (read, written), dest') →
      get_first_encoded_len_desc d = read) ∧
    (∀ (v : UInt64) (s : List UInt8),
      get_first_encoded_var_int_len (encode_var_u64 v ++ s) = (encode_var_u64 v).length) ∧
    (∀ x s : List UInt8, x.length < 2 ^ 63 →
      CompactByteCodec.get_first_encoded_len (CompactByteEncoder.write_compact_bytes x ++ s) =
        (CompactByteEncoder.write_compact_bytes x).length) := by
  refine ⟨fun d desc k rest h => encoded_bytes_len_of_decode desc h,
    fun d dest read written dest' h => ?_, fun d dest read written dest' h => ?_,
    fun v s => get_first_encoded_var_int_len_of_ok (try_decode_var_u64_encode_var_u64 v s),
    get_first_encoded_len_write_compact_bytes⟩
  · have hlen : d.length ≤ dest.length := by
      by_contra hl
      rw [try_decode_first, internal_of_short hl] at h
      cases h
    rw [try_decode_first_eq d dest hlen, Option.some.injEq] at h
    exact get_first_encoded_len_of_decode false h hlen
  · have hlen : d.length ≤ dest.length := by
      by_contra hl
      rw [try_decode_first_desc, internal_of_short hl] at h
      cases h
    rw [try_decode_first_desc_eq d dest hlen] at h
    split at h
    · rename_i r w dest'' hloop
      simp only [Option.some.injEq, Prod.mk.injEq, Except.ok.injEq] at h
      obtain ⟨⟨rfl, -⟩, -⟩ := h
      exact get_first_encoded_len_of_decode true hloop hlen
    · cases h

end Tikv.Codec
