import Tikv.Codec.MemComparable
import Tikv.Codec.Number
import Tikv.Lib.Buffer

/-!
The memcomparable bytes codec of components/tikv_util/src/codec/bytes.rs: `encode_bytes`
writes the key eight bytes at a time with a marker after each group, `decode_bytes` reads
nine-byte chunks off a slice, and `decode_bytes_in_place` decodes inside the buffer, moving
each group down over the marker bytes already read.

Each is shown to be the format of `MemComparable`: the encoder emits `group_encode`, in the
descending order its complement; the decoders read back exactly what it emits, and
`decode_bytes` accepts nothing else.
-/

namespace Tikv.Codec

open Tikv.Lib.Buffer

def ENC_GROUP_SIZE : Nat := 8

def ENC_MARKER : UInt8 := 0xFF

def ENC_ASC_PADDING : List UInt8 := List.replicate ENC_GROUP_SIZE 0

def ENC_DESC_PADDING : List UInt8 := List.replicate ENC_GROUP_SIZE (~~~0)

def max_encoded_bytes_size (n : Nat) : Nat :=
  (n / ENC_GROUP_SIZE + 1) * (ENC_GROUP_SIZE + 1)

def adjust_bytes_order (bs : List UInt8) (desc : Bool) : List UInt8 :=
  if desc then bs.map (~~~ ·) else bs

def encode_bytes_loop (key : List UInt8) (desc : Bool) (index : Nat) (out : List UInt8) :
    List UInt8 :=
  if index ≤ key.length then
    let remain := key.length - index
    let (out, pad) :=
      if remain > ENC_GROUP_SIZE then
        (out ++ adjust_bytes_order ((key.drop index).take ENC_GROUP_SIZE) desc, 0)
      else
        let pad := ENC_GROUP_SIZE - remain
        let out := out ++ adjust_bytes_order (key.drop index) desc
        (if desc then out ++ ENC_DESC_PADDING.take pad else out ++ ENC_ASC_PADDING.take pad, pad)
    encode_bytes_loop key desc (index + ENC_GROUP_SIZE)
      (out ++ adjust_bytes_order [ENC_MARKER - UInt8.ofNat pad] desc)
  else out
termination_by key.length + 1 - index
decreasing_by simp only [ENC_GROUP_SIZE]; omega

def BytesEncoder.encode_bytes (out key : List UInt8) (desc : Bool) : List UInt8 :=
  encode_bytes_loop key desc 0 out

def encode_order_bytes (bs : List UInt8) (desc : Bool) : List UInt8 :=
  BytesEncoder.encode_bytes [] bs desc

def encode_bytes (bs : List UInt8) : List UInt8 :=
  encode_order_bytes bs false

def encode_bytes_desc (bs : List UInt8) : List UInt8 :=
  encode_order_bytes bs true

def decode_bytes_loop (data : List UInt8) (desc : Bool) (offset : Nat) (key : List UInt8) :
    Except Error (List UInt8 × List UInt8) :=
  let chunk_len := ENC_GROUP_SIZE + 1
  let next_offset := offset + chunk_len
  if next_offset ≤ data.length then
    let chunk := (data.drop offset).take chunk_len
    -- chunk.split_last(): the chunk is never empty
    let marker := chunk.getLastD 0
    let bytes := chunk.dropLast
    let pad_size := if desc then marker.toNat else (ENC_MARKER - marker).toNat
    if pad_size = 0 then decode_bytes_loop data desc next_offset (key ++ bytes)
    else if pad_size > ENC_GROUP_SIZE then .error .KeyPadding
    else
      let key := key ++ bytes.take (ENC_GROUP_SIZE - pad_size)
      let padding := bytes.drop (ENC_GROUP_SIZE - pad_size)
      let pad_byte : UInt8 := if desc then ~~~0 else 0
      if padding.any (· != pad_byte) then .error .KeyPadding
      else .ok (if desc then key.map (~~~ ·) else key, data.drop next_offset)
  else .error Error.unexpected_eof
termination_by data.length - offset
decreasing_by simp only [ENC_GROUP_SIZE] at *; omega

def decode_bytes (data : List UInt8) (desc : Bool) : Except Error (List UInt8 × List UInt8) :=
  decode_bytes_loop data desc 0 []

/-- The loop of decode_bytes_in_place. The buffer is returned with the result, as the source
changes it also on the way to an error. -/
def decode_bytes_in_place_loop (data : List UInt8) (desc : Bool) (write_offset read_offset : Nat) :
    List UInt8 × Except Error Unit :=
  let marker_offset := read_offset + ENC_GROUP_SIZE
  if marker_offset ≥ data.length then (data, .error Error.unexpected_eof)
  else
    let data' := copy_within data read_offset write_offset ENC_GROUP_SIZE
    let write_offset := write_offset + ENC_GROUP_SIZE
    let marker := data'.getD marker_offset 0
    let pad_size := if desc then marker.toNat else (ENC_MARKER - marker).toNat
    if pad_size > 0 then
      if pad_size > ENC_GROUP_SIZE then (data', .error .KeyPadding)
      else
        let padding_slice :=
          if desc then ENC_DESC_PADDING.take pad_size else ENC_ASC_PADDING.take pad_size
        if (data'.drop (write_offset - pad_size)).take pad_size ≠ padding_slice then
          (data', .error .KeyPadding)
        else
          let data' := data'.take (write_offset - pad_size)
          (if desc then data'.map (~~~ ·) else data', .ok ())
    else decode_bytes_in_place_loop data' desc write_offset (read_offset + ENC_GROUP_SIZE + 1)
termination_by data.length - read_offset
decreasing_by simp only [length_copy_within, ENC_GROUP_SIZE] at *; omega

def decode_bytes_in_place (data : List UInt8) (desc : Bool) : List UInt8 × Except Error Unit :=
  decode_bytes_in_place_loop data desc 0 0

def encoded_bytes_len_loop (encoded : List UInt8) (desc : Bool) (idx : Nat) : Nat :=
  if encoded.length < idx + 1 then encoded.length
  else
    let marker := encoded.getD idx 0
    if desc && marker != 0 || !desc && marker != ENC_MARKER then idx + 1
    else encoded_bytes_len_loop encoded desc (idx + ENC_GROUP_SIZE + 1)
termination_by encoded.length - idx

def encoded_bytes_len (encoded : List UInt8) (desc : Bool) : Nat :=
  encoded_bytes_len_loop encoded desc ENC_GROUP_SIZE

def marker_byte (desc : Bool) (pad : Nat) : UInt8 :=
  if desc then ~~~(ENC_MARKER - UInt8.ofNat pad) else ENC_MARKER - UInt8.ofNat pad

section Adjust

variable (desc : Bool)

@[simp]
theorem adjust_append (s t : List UInt8) :
    adjust_bytes_order (s ++ t) desc =
      adjust_bytes_order s desc ++ adjust_bytes_order t desc := by
  cases desc <;> simp [adjust_bytes_order]

@[simp]
theorem adjust_adjust (bs : List UInt8) :
    adjust_bytes_order (adjust_bytes_order bs desc) desc = bs := by
  cases desc <;> simp [adjust_bytes_order, Function.comp_def]

@[simp]
theorem adjust_nil : adjust_bytes_order [] desc = [] := by
  cases desc <;> rfl

@[simp]
theorem length_adjust (bs : List UInt8) : (adjust_bytes_order bs desc).length = bs.length := by
  cases desc <;> simp [adjust_bytes_order]

theorem adjust_cons (x : UInt8) (bs : List UInt8) :
    adjust_bytes_order (x :: bs) desc =
      (if desc then ~~~x else x) :: adjust_bytes_order bs desc := by
  cases desc <;> simp [adjust_bytes_order]

theorem adjust_eq_flip (bs : List UInt8) :
    adjust_bytes_order bs desc = if desc then flip bs else bs := by
  cases desc <;> rfl

theorem adjust_marker (pad : Nat) :
    adjust_bytes_order [ENC_MARKER - UInt8.ofNat pad] desc = [marker_byte desc pad] := by
  cases desc <;> rfl

theorem padding_take {pad : Nat} (hp : pad ≤ ENC_GROUP_SIZE) :
    (if desc then ENC_DESC_PADDING.take pad else ENC_ASC_PADDING.take pad) =
      adjust_bytes_order (List.replicate pad 0) desc := by
  cases desc <;>
    simp [ENC_DESC_PADDING, ENC_ASC_PADDING, adjust_bytes_order, List.take_replicate,
      Nat.min_eq_left hp]

theorem toNat_ff_sub (x : UInt8) : (0xFF - x).toNat = 255 - x.toNat := by
  rw [UInt8.toNat_sub_of_le _ _ (UInt8.le_iff_toNat_le.mpr (by have := x.toNat_lt; simp; omega))]
  rfl

theorem pad_size_eq_iff {m : UInt8} {p : Nat} (hp : p ≤ ENC_GROUP_SIZE) :
    (if desc then m.toNat else (ENC_MARKER - m).toNat) = p ↔ m = marker_byte desc p := by
  have hm := m.toNat_lt
  simp only [ENC_GROUP_SIZE] at hp
  have hp' : (UInt8.ofNat p).toNat = p := by
    rw [UInt8.toNat_ofNat', Nat.mod_eq_of_lt (by omega)]
  cases desc
  · simp only [Bool.false_eq_true, if_false, marker_byte, ENC_MARKER, ← UInt8.toNat_inj,
      toNat_ff_sub, hp']
    omega
  · simp only [if_true, marker_byte, ENC_MARKER, ← UInt8.toNat_inj, UInt8.toNat_not,
      toNat_ff_sub, hp', UInt8.size]
    omega

end Adjust

section Encode

variable (key : List UInt8) (desc : Bool)

theorem encode_bytes_loop_full {index : Nat} (out : List UInt8)
    (h : index + ENC_GROUP_SIZE < key.length) :
    encode_bytes_loop key desc index out =
      encode_bytes_loop key desc (index + ENC_GROUP_SIZE)
        (out ++ adjust_bytes_order ((key.drop index).take ENC_GROUP_SIZE) desc ++
          [marker_byte desc 0]) := by
  have hle : index ≤ key.length := by omega
  have hgt : key.length - index > ENC_GROUP_SIZE := by omega
  rw [encode_bytes_loop]
  simp only [if_pos hle, if_pos hgt, adjust_marker]

theorem encode_bytes_loop_last {index : Nat} (out : List UInt8) (h : index ≤ key.length)
    (h' : key.length ≤ index + ENC_GROUP_SIZE) :
    encode_bytes_loop key desc index out =
      encode_bytes_loop key desc (index + ENC_GROUP_SIZE)
        (out ++ adjust_bytes_order (key.drop index) desc ++
          adjust_bytes_order (List.replicate (ENC_GROUP_SIZE - (key.length - index)) 0) desc ++
          [marker_byte desc (ENC_GROUP_SIZE - (key.length - index))]) := by
  have hng : ¬ key.length - index > ENC_GROUP_SIZE := by omega
  rw [encode_bytes_loop]
  simp only [if_pos h, if_neg hng, adjust_marker]
  rw [← padding_take desc (by omega)]
  cases desc <;> simp

theorem encode_bytes_loop_done {index : Nat} (out : List UInt8) (h : key.length < index) :
    encode_bytes_loop key desc index out = out := by
  rw [encode_bytes_loop, if_neg (by omega)]

theorem encode_bytes_loop_eq (index : Nat) (out : List UInt8) (h : index ≤ key.length) :
    encode_bytes_loop key desc index out =
      out ++ adjust_bytes_order (group_encode (key.drop index)) desc := by
  have hdrop : (key.drop index).drop 8 = key.drop (index + ENC_GROUP_SIZE) := by
    rw [List.drop_drop]
    congr 1
  by_cases hfull : index + ENC_GROUP_SIZE < key.length
  · have hlen : 8 ≤ (key.drop index).length := by simp [ENC_GROUP_SIZE] at hfull ⊢; omega
    rw [encode_bytes_loop_full key desc out hfull,
      encode_bytes_loop_eq (index + ENC_GROUP_SIZE) _ (by omega), group_encode_full hlen, hdrop]
    simp [ENC_GROUP_SIZE, adjust_cons, marker_byte, ENC_MARKER]
  · rw [encode_bytes_loop_last key desc out h (by omega)]
    by_cases hend : index + ENC_GROUP_SIZE ≤ key.length
    · -- a last group of eight bytes is full, and the loop goes round once more for the
      -- empty group that ends the encoding
      have hlen : (key.drop index).length = 8 := by simp [ENC_GROUP_SIZE] at hfull hend ⊢; omega
      have hempty : key.drop (index + ENC_GROUP_SIZE) = [] :=
        List.drop_eq_nil_of_le (by omega)
      have hzero : ENC_GROUP_SIZE - (key.length - index) = 0 := by omega
      rw [encode_bytes_loop_eq (index + ENC_GROUP_SIZE) _ hend,
        group_encode_full (show 8 ≤ (key.drop index).length by omega), hdrop, hempty,
        List.take_of_length_le (show (key.drop index).length ≤ 8 by omega)]
      simp [hzero, adjust_cons, marker_byte, ENC_MARKER]
    · have hlen : (key.drop index).length < 8 := by simp [ENC_GROUP_SIZE] at hend ⊢; omega
      rw [encode_bytes_loop_done key desc _ (by omega), group_encode_last hlen]
      simp [ENC_GROUP_SIZE, adjust_cons, marker_byte, ENC_MARKER]
termination_by key.length + 1 - index
decreasing_by all_goals simp only [ENC_GROUP_SIZE] at *; omega

theorem encode_order_bytes_eq : encode_order_bytes key desc =
    adjust_bytes_order (group_encode key) desc := by
  rw [encode_order_bytes, BytesEncoder.encode_bytes, encode_bytes_loop_eq key desc 0 [] (by omega),
    List.drop_zero, List.nil_append]

theorem encode_bytes_eq : encode_bytes key = group_encode key :=
  encode_order_bytes_eq key false

theorem encode_bytes_desc_eq : encode_bytes_desc key = flip (group_encode key) :=
  encode_order_bytes_eq key true

end Encode

section Decode
variable (desc : Bool)

theorem drop_chunk {data bytes rest : List UInt8} {offset : Nat} {m : UInt8}
    (hdrop : data.drop offset = bytes ++ m :: rest) (hb : bytes.length = ENC_GROUP_SIZE) :
    data.drop (offset + (ENC_GROUP_SIZE + 1)) = rest := by
  rw [← List.drop_drop, hdrop, List.drop_append,
    List.drop_eq_nil_of_le (show bytes.length ≤ ENC_GROUP_SIZE + 1 by omega), hb]
  simp

theorem decode_bytes_loop_eof {data : List UInt8} {offset : Nat} (key : List UInt8)
    (h : ¬ offset + (ENC_GROUP_SIZE + 1) ≤ data.length) :
    decode_bytes_loop data desc offset key = .error Error.unexpected_eof := by
  rw [decode_bytes_loop]
  simp only [if_neg h]

theorem decode_bytes_loop_chunk {data bytes rest : List UInt8} {offset : Nat} {m : UInt8}
    (hdrop : data.drop offset = bytes ++ m :: rest) (hb : bytes.length = ENC_GROUP_SIZE)
    (key : List UInt8) :
    decode_bytes_loop data desc offset key =
      let pad_size := if desc then m.toNat else (ENC_MARKER - m).toNat
      if pad_size = 0 then decode_bytes_loop data desc (offset + (ENC_GROUP_SIZE + 1)) (key ++ bytes)
      else if pad_size > ENC_GROUP_SIZE then .error .KeyPadding
      else if (bytes.drop (ENC_GROUP_SIZE - pad_size)).any (· != if desc then ~~~0 else 0) then
        .error .KeyPadding
      else .ok (adjust_bytes_order (key ++ bytes.take (ENC_GROUP_SIZE - pad_size)) desc, rest) := by
  have hlen : offset + (ENC_GROUP_SIZE + 1) ≤ data.length := by
    have := congrArg List.length hdrop
    simp at this
    omega
  have hchunk : (data.drop offset).take (ENC_GROUP_SIZE + 1) = bytes ++ [m] := by
    rw [hdrop, List.take_append, List.take_of_length_le (by omega), hb]
    simp
  rw [decode_bytes_loop]
  simp only [if_pos hlen, hchunk, drop_chunk hdrop hb, List.getLastD_concat, List.dropLast_concat]
  rfl
theorem adjust_full_marker (bs : List UInt8) :
    adjust_bytes_order (0xFF :: bs) desc = marker_byte desc 0 :: adjust_bytes_order bs desc := by
  cases desc <;> rfl

theorem adjust_last_marker (pad : Nat) :
    adjust_bytes_order [0xFF - UInt8.ofNat pad] desc = [marker_byte desc pad] :=
  adjust_marker desc pad

theorem pad_size_marker_byte {p : Nat} (hp : p ≤ ENC_GROUP_SIZE) :
    (if desc then (marker_byte desc p).toNat else (ENC_MARKER - marker_byte desc p).toNat) = p :=
  (pad_size_eq_iff desc hp).mpr rfl

theorem any_adjust_replicate (p : Nat) :
    (adjust_bytes_order (List.replicate p 0) desc).any (· != if desc then ~~~0 else 0) = false := by
  cases desc <;> simp [adjust_bytes_order]

theorem decode_bytes_loop_group_encode (k : List UInt8) {data : List UInt8} {offset : Nat}
    (acc s : List UInt8) (h : data.drop offset = adjust_bytes_order (group_encode k) desc ++ s) :
    decode_bytes_loop data desc offset (adjust_bytes_order acc desc) = .ok (acc ++ k, s) := by
  induction k using group_encode.induct generalizing offset acc with
  | case1 k hk ih =>
    rw [group_encode_full hk, adjust_append, adjust_full_marker, List.append_assoc,
      List.cons_append] at h
    have hb : (adjust_bytes_order (k.take 8) desc).length = ENC_GROUP_SIZE := by
      simp [ENC_GROUP_SIZE]; omega
    rw [decode_bytes_loop_chunk desc h hb]
    simp only [pad_size_marker_byte desc (show 0 ≤ ENC_GROUP_SIZE by omega), if_true]
    rw [← adjust_append, ih (acc ++ k.take 8) (drop_chunk h hb), List.append_assoc,
      List.take_append_drop]
  | case2 k hk =>
    have hp : 8 - k.length ≤ ENC_GROUP_SIZE := by simp [ENC_GROUP_SIZE]
    rw [group_encode_last (by omega), ← List.append_assoc, adjust_append, adjust_last_marker,
      List.append_assoc, List.singleton_append, adjust_append] at h
    have hb : (adjust_bytes_order k desc ++ adjust_bytes_order (List.replicate (8 - k.length) 0) desc).length = ENC_GROUP_SIZE := by
      simp [ENC_GROUP_SIZE]; omega
    have hkeep : ENC_GROUP_SIZE - (8 - k.length) = (adjust_bytes_order k desc).length := by
      simp [ENC_GROUP_SIZE]; omega
    rw [decode_bytes_loop_chunk desc h hb]
    simp only [pad_size_marker_byte desc hp, hkeep, List.drop_left, List.take_left,
      any_adjust_replicate, if_neg (show ¬ 8 - k.length = 0 by omega),
      if_neg (show ¬ 8 - k.length > ENC_GROUP_SIZE by omega)]
    simp

theorem eq_adjust_replicate_of_any {bs : List UInt8} {p : Nat} (hlen : bs.length = p)
    (h : bs.any (· != if desc then ~~~0 else 0) = false) :
    bs = adjust_bytes_order (List.replicate p 0) desc := by
  have hall : ∀ x ∈ bs, x = if desc then ~~~0 else 0 := by
    simpa using h
  cases desc <;> simpa [adjust_bytes_order, List.eq_replicate_iff, hlen] using hall

theorem decode_bytes_loop_canonical {data : List UInt8} {offset : Nat} {key r rest : List UInt8}
    (h : decode_bytes_loop data desc offset key = .ok (r, rest)) :
    ∃ k, r = adjust_bytes_order key desc ++ k ∧
      data.drop offset = adjust_bytes_order (group_encode k) desc ++ rest := by
  by_cases hlen : offset + (ENC_GROUP_SIZE + 1) ≤ data.length
  · obtain ⟨bytes, m, rest', hdrop, hb⟩ :=
      exists_eq_append_cons (show ENC_GROUP_SIZE < (data.drop offset).length by simp; omega)
    rw [decode_bytes_loop_chunk desc hdrop hb] at h
    simp only at h
    generalize hpad : (if desc then m.toNat else (ENC_MARKER - m).toNat) = p at h
    by_cases h0 : p = 0
    · -- a full group: the rest of the encoding comes from the recursive call
      rw [if_pos h0] at h
      obtain ⟨k', hr, hk'⟩ := decode_bytes_loop_canonical h
      have hm : m = marker_byte desc 0 := (pad_size_eq_iff desc (by omega)).mp (hpad.trans h0)
      refine ⟨adjust_bytes_order bytes desc ++ k', ?_, ?_⟩
      · rw [hr, adjust_append, List.append_assoc]
      · rw [hdrop, group_encode_append_full (by simp [hb, ENC_GROUP_SIZE]), adjust_append,
          adjust_adjust, adjust_full_marker, ← hm, List.append_assoc, List.cons_append, ← hk',
          ← drop_chunk hdrop hb]
    rw [if_neg h0] at h
    by_cases h8 : p > ENC_GROUP_SIZE
    · rw [if_pos h8] at h
      cases h
    rw [if_neg h8] at h
    by_cases hany : (bytes.drop (ENC_GROUP_SIZE - p)).any (· != if desc then ~~~0 else 0) = true
    · rw [if_pos hany] at h
      cases h
    -- the last group: the marker and the padding are the encoder's
    rw [if_neg hany] at h
    obtain ⟨hr, hrest⟩ := Except.ok.inj h |> Prod.mk.inj
    have hm : m = marker_byte desc p := (pad_size_eq_iff desc (by omega)).mp hpad
    have hpadding := eq_adjust_replicate_of_any desc (p := p) (by simp [hb]; omega)
      (Bool.eq_false_iff.mpr hany)
    refine ⟨adjust_bytes_order (bytes.take (ENC_GROUP_SIZE - p)) desc, ?_, ?_⟩
    · simp only [← hr, adjust_append]
    · have hklen : (adjust_bytes_order (bytes.take (ENC_GROUP_SIZE - p)) desc).length = 8 - p := by
        simp [hb, ENC_GROUP_SIZE]
      have hp : 8 - (8 - p) = p := by simp only [ENC_GROUP_SIZE] at h8; omega
      rw [group_encode_last (by omega), hklen, hp, adjust_append, adjust_append, adjust_adjust,
        adjust_last_marker, ← hm, ← hrest, hdrop, ← hpadding]
      simp only [ENC_GROUP_SIZE] at *
      rw [← List.append_assoc, List.take_append_drop, List.append_assoc, List.singleton_append]
  · rw [decode_bytes_loop_eof desc _ hlen] at h
    cases h
termination_by data.length - offset
decreasing_by simp only [ENC_GROUP_SIZE] at *; omega

theorem decode_bytes_in_place_loop_chunk {data bytes rest : List UInt8} {w r : Nat} {m : UInt8}
    (hdrop : data.drop r = bytes ++ m :: rest) (hb : bytes.length = ENC_GROUP_SIZE) (hw : w ≤ r) :
    decode_bytes_in_place_loop data desc w r =
      let data' := write_at data w bytes
      let pad_size := if desc then m.toNat else (ENC_MARKER - m).toNat
      if pad_size > 0 then
        if pad_size > ENC_GROUP_SIZE then (data', .error .KeyPadding)
        else if (data'.drop (w + ENC_GROUP_SIZE - pad_size)).take pad_size ≠
            (if desc then ENC_DESC_PADDING.take pad_size else ENC_ASC_PADDING.take pad_size) then
          (data', .error .KeyPadding)
        else (adjust_bytes_order (data'.take (w + ENC_GROUP_SIZE - pad_size)) desc, .ok ())
      else decode_bytes_in_place_loop data' desc (w + ENC_GROUP_SIZE) (r + ENC_GROUP_SIZE + 1) := by
  have hlen : r + ENC_GROUP_SIZE < data.length := by
    have := congrArg List.length hdrop
    simp at this
    omega
  have hcopy : copy_within data r w ENC_GROUP_SIZE = write_at data w bytes := by
    rw [copy_within, hdrop, List.take_append_of_le_length (by omega), List.take_of_length_le (by omega)]
  have hmarker : (write_at data w bytes).getD (r + ENC_GROUP_SIZE) 0 = m := by
    apply getD_of_drop_eq_cons
    rw [drop_write_at_of_le (by omega) (by omega), ← List.drop_drop, hdrop,
      List.drop_left' hb]
  rw [decode_bytes_in_place_loop]
  simp only [if_neg (show ¬ r + ENC_GROUP_SIZE ≥ data.length by omega), hcopy, hmarker]
  rfl
theorem decode_bytes_in_place_loop_group_encode (k : List UInt8) {data : List UInt8} {w r : Nat}
    (acc s : List UInt8) (hw : w ≤ r) (hacc : acc.length = w)
    (htake : data.take w = adjust_bytes_order acc desc)
    (hdrop : data.drop r = adjust_bytes_order (group_encode k) desc ++ s) :
    decode_bytes_in_place_loop data desc w r = (acc ++ k, .ok ()) := by
  induction k using group_encode.induct generalizing data w r acc with
  | case1 k hk ih =>
    rw [group_encode_full hk, adjust_append, adjust_full_marker, List.append_assoc,
      List.cons_append] at hdrop
    have hb : (adjust_bytes_order (k.take 8) desc).length = ENC_GROUP_SIZE := by
      simp [ENC_GROUP_SIZE]; omega
    have hbound : w + ENC_GROUP_SIZE < data.length := by
      have := congrArg List.length hdrop
      simp [ENC_GROUP_SIZE] at this hb ⊢
      omega
    rw [decode_bytes_in_place_loop_chunk desc hdrop hb hw]
    simp only [pad_size_marker_byte desc (show 0 ≤ ENC_GROUP_SIZE by omega), gt_iff_lt,
      Nat.lt_irrefl, if_false]
    rw [show acc ++ k = (acc ++ k.take 8) ++ k.drop 8 by simp]
    apply ih (acc ++ k.take 8) (by omega) (by simp [hacc, ENC_GROUP_SIZE]; omega)
    · rw [← hb, take_write_at (by omega), htake, adjust_append]
    · rw [drop_write_at_of_le (by omega) (by omega), Nat.add_assoc, drop_chunk hdrop hb]
  | case2 k hk =>
    have hp : 8 - k.length ≤ ENC_GROUP_SIZE := by simp [ENC_GROUP_SIZE]
    rw [group_encode_last (by omega), ← List.append_assoc, adjust_append, adjust_last_marker,
      List.append_assoc, List.singleton_append, adjust_append] at hdrop
    have hb : (adjust_bytes_order k desc ++
        adjust_bytes_order (List.replicate (8 - k.length) 0) desc).length = ENC_GROUP_SIZE := by
      simp [ENC_GROUP_SIZE]; omega
    have hbound : w + ENC_GROUP_SIZE < data.length := by
      have := congrArg List.length hdrop
      simp [ENC_GROUP_SIZE] at this hb ⊢
      omega
    rw [decode_bytes_in_place_loop_chunk desc hdrop hb hw]
    simp only [pad_size_marker_byte desc hp, if_pos (show 8 - k.length > 0 by omega),
      if_neg (show ¬ 8 - k.length > ENC_GROUP_SIZE by omega), padding_take desc hp]
    -- the group moved down ends in its padding, and cutting it off leaves the key
    have hwritten : (write_at data w (adjust_bytes_order k desc ++
        adjust_bytes_order (List.replicate (8 - k.length) 0) desc)).take (w + ENC_GROUP_SIZE) =
        (adjust_bytes_order acc desc ++ adjust_bytes_order k desc) ++
          adjust_bytes_order (List.replicate (8 - k.length) 0) desc := by
      rw [← hb, take_write_at (by omega), htake, List.append_assoc]
    have hkeep : (adjust_bytes_order acc desc ++ adjust_bytes_order k desc).length =
        w + ENC_GROUP_SIZE - (8 - k.length) := by
      simp [hacc, ENC_GROUP_SIZE]; omega
    have hpadding : ((write_at data w (adjust_bytes_order k desc ++
        adjust_bytes_order (List.replicate (8 - k.length) 0) desc)).drop
          (w + ENC_GROUP_SIZE - (8 - k.length))).take (8 - k.length) =
        adjust_bytes_order (List.replicate (8 - k.length) 0) desc := by
      rw [List.take_drop, show w + ENC_GROUP_SIZE - (8 - k.length) + (8 - k.length) =
        w + ENC_GROUP_SIZE by simp only [ENC_GROUP_SIZE]; omega, hwritten, List.drop_left' hkeep]
    have hkey : (write_at data w (adjust_bytes_order k desc ++
        adjust_bytes_order (List.replicate (8 - k.length) 0) desc)).take
          (w + ENC_GROUP_SIZE - (8 - k.length)) =
        adjust_bytes_order acc desc ++ adjust_bytes_order k desc := by
      have h := congrArg (List.take (w + ENC_GROUP_SIZE - (8 - k.length))) hwritten
      rw [List.take_take, Nat.min_eq_left (by omega), List.take_left' hkeep] at h
      exact h
    rw [if_neg (fun hne => hne hpadding), hkey, ← adjust_append, adjust_adjust]
theorem memcmp_bytes_round_trip :
    (∀ k desc s, decode_bytes (encode_order_bytes k desc ++ s) desc = .ok (k, s)) ∧
    (∀ k desc, decode_bytes_in_place (encode_order_bytes k desc) desc = (k, .ok ())) ∧
    (∀ d desc k rest, decode_bytes d desc = .ok (k, rest) →
      ∃ n, d.take n = encode_order_bytes k desc ∧ d.drop n = rest) := by
  refine ⟨fun k desc s => ?_, fun k desc => ?_, fun d desc k rest h => ?_⟩
  · have h := @decode_bytes_loop_group_encode desc k (encode_order_bytes k desc ++ s) 0 [] s
      (by rw [List.drop_zero, encode_order_bytes_eq])
    rwa [adjust_nil, List.nil_append] at h
  · have h := @decode_bytes_in_place_loop_group_encode desc k (encode_order_bytes k desc) 0 0 [] []
      (le_refl 0) rfl (by simp) (by rw [List.drop_zero, encode_order_bytes_eq, List.append_nil])
    rwa [List.nil_append] at h
  · obtain ⟨k', hk, hd⟩ := decode_bytes_loop_canonical desc h
    rw [adjust_nil, List.nil_append] at hk
    subst hk
    rw [List.drop_zero, ← encode_order_bytes_eq] at hd
    refine ⟨(encode_order_bytes k desc).length, ?_, ?_⟩
    · rw [hd, List.take_left]
    · rw [hd, List.drop_left]

end Decode

/-! ### Checking an encoding against a raw key -/

def check_single_chunk (desc : Bool) (encoded raw : List UInt8) : Bool :=
  let len := raw.length
  let pad := UInt8.ofNat (ENC_GROUP_SIZE - len)
  if desc then
    encoded.getD ENC_GROUP_SIZE 0 == ~~~(ENC_MARKER - pad) &&
      ((encoded.take len).zip raw).all (fun p => p.1 == ~~~p.2) &&
      ((encoded.take (encoded.length - 1)).drop len).all (· == ENC_MARKER)
  else
    encoded.getD ENC_GROUP_SIZE 0 == ENC_MARKER - pad && encoded.take len == raw &&
      ((encoded.take (encoded.length - 1)).drop len).all (· == ~~~ENC_MARKER)

def is_encoded_from (encoded raw : List UInt8) (desc : Bool) : Bool :=
  if encoded.length % (ENC_GROUP_SIZE + 1) ≠ 0 then false
  else
    let raw_full := raw.length / ENC_GROUP_SIZE * ENC_GROUP_SIZE
    match (encoded.toChunks (ENC_GROUP_SIZE + 1)).reverse with
    | [] => false
    | last :: rev_encoded_chunks =>
      check_single_chunk desc last (raw.drop raw_full) &&
        rev_encoded_chunks.length == raw.length / ENC_GROUP_SIZE &&
        (rev_encoded_chunks.zip ((raw.take raw_full).toChunks ENC_GROUP_SIZE).reverse).all
          fun p => check_single_chunk desc p.1 p.2

example : is_encoded_from [1, 2, 3, 0, 0, 0, 0, 0, 0xFA] [1, 2, 3] false = true := by decide

example : is_encoded_from [1, 2, 3, 4, 5, 6, 7, 8, 0xFF, 9, 0, 0, 0, 0, 0, 0, 0, 0xF8]
    [1, 2, 3, 4, 5, 6, 7, 8, 9] false = true := by decide

example : is_encoded_from [1, 2, 3, 0, 0, 0, 0, 0, 0xFA] [1, 2, 4] false = false := by decide

end Tikv.Codec
