import Tikv.Codec.Key
import Tikv.Lib.Chunks

/-!
\x60is_encoded_from\x60 of components/tikv_util/src/codec/bytes.rs checks an encoding against a raw
key without building the encoding: it cuts the encoding into nine-byte chunks from the end and
the key into eight-byte chunks, checks the last chunk against what is left of the key, the
count of the other chunks, and each pair. Read chunk by chunk, the encoder writes one chunk for
each eight bytes of the key and one for what is left (\x60encode_order_bytes_chunks\x60), and the
check of a chunk holds exactly of the chunk the encoder writes (\x60check_single_chunk_iff\x60); so
the checker accepts exactly the encoding.
-/

namespace Tikv.Codec

open Tikv.Lib.Chunks

def encode_chunk (desc : Bool) (raw : List UInt8) : List UInt8 :=
  adjust_bytes_order (raw ++ List.replicate (ENC_GROUP_SIZE - raw.length) 0) desc ++
    [marker_byte desc (ENC_GROUP_SIZE - raw.length)]

section Chunks

variable (desc : Bool)

theorem length_encode_chunk {raw : List UInt8} (h : raw.length ≤ ENC_GROUP_SIZE) :
    (encode_chunk desc raw).length = ENC_GROUP_SIZE + 1 := by
  simp only [encode_chunk, List.length_append, length_adjust, List.length_replicate,
    List.length_singleton]
  omega

theorem encode_order_bytes_chunks (raw : List UInt8) :
    encode_order_bytes raw desc =
      (((raw.take (raw.length / ENC_GROUP_SIZE * ENC_GROUP_SIZE)).toChunks ENC_GROUP_SIZE ++
        [raw.drop (raw.length / ENC_GROUP_SIZE * ENC_GROUP_SIZE)]).map (encode_chunk desc)).flatten := by
  rw [encode_order_bytes_eq]
  simp only [ENC_GROUP_SIZE]
  induction raw using group_encode.induct with
  | case1 k h ih =>
    -- a full group, then the encoding of the rest of the key
    have hfull : k.length / 8 * 8 = 8 + (k.drop 8).length / 8 * 8 := by
      rw [List.length_drop]
      omega
    have hmarker : adjust_bytes_order [0xFF] desc = [marker_byte desc 0] := adjust_marker desc 0
    rw [group_encode_full h, hfull, List.take_add, ← List.drop_drop,
      toChunks_append (by decide) (by simp; omega), List.cons_append,
      List.map_cons, List.flatten_cons, ← ih, show (0xFF : UInt8) :: group_encode (k.drop 8) =
        [0xFF] ++ group_encode (k.drop 8) from rfl, adjust_append, adjust_append, hmarker,
      encode_chunk, List.length_take_of_le h]
    simp [ENC_GROUP_SIZE, List.append_assoc]
  | case2 k h =>
    have hzero : k.length / 8 * 8 = 0 := by
      rw [Nat.div_eq_of_lt (by omega), Nat.zero_mul]
    rw [group_encode_last (by omega), hzero, List.take_zero, toChunks_nil, List.drop_zero,
      List.nil_append, List.map_singleton, List.flatten_singleton, encode_chunk,
      show (0xFF : UInt8) - UInt8.ofNat (8 - k.length) =
        ENC_MARKER - UInt8.ofNat (ENC_GROUP_SIZE - k.length) from rfl,
      ← List.append_assoc, adjust_append desc (k ++ _), adjust_marker]
    rfl

theorem all_beq_iff {l : List UInt8} {a : UInt8} :
    l.all (· == a) = true ↔ l = List.replicate l.length a := by
  rw [List.all_eq_true, List.eq_replicate_iff]
  simp

theorem zip_all_not_iff : ∀ {l₁ l₂ : List UInt8}, l₁.length = l₂.length →
    (((l₁.zip l₂).all fun p => p.1 == ~~~p.2) = true ↔ l₁ = l₂.map (~~~ ·))
  | [], [], _ => by simp
  | x :: xs, y :: ys, h => by
    simp only [List.zip_cons_cons, List.all_cons, Bool.and_eq_true, beq_iff_eq, List.map_cons,
      List.cons.injEq]
    rw [zip_all_not_iff (by simpa using h)]
  | [], _ :: _, h => by simp at h
  | _ :: _, [], h => by simp at h

theorem chunk_split {e : List UInt8} (he : e.length = ENC_GROUP_SIZE + 1) {len : Nat}
    (hl : len ≤ ENC_GROUP_SIZE) :
    e = e.take len ++ ((e.take (e.length - 1)).drop len ++ [e.getD ENC_GROUP_SIZE 0]) := by
  have hne : e ≠ [] := List.ne_nil_of_length_pos (by omega)
  have hlast : e.getLast hne = e.getD ENC_GROUP_SIZE 0 := by
    rw [List.getLast_eq_getElem, List.getD_eq_getElem?_getD,
      List.getElem?_eq_getElem (by simp only [ENC_GROUP_SIZE] at he ⊢; omega)]
    simp only [he, Nat.add_sub_cancel, Option.getD_some]
  have htake : (e.take (e.length - 1)).take len = e.take len := by
    rw [List.take_take, Nat.min_eq_left (by omega)]
  rw [← List.append_assoc, ← htake, List.take_append_drop, ← List.dropLast_eq_take, ← hlast,
    List.dropLast_concat_getLast]

theorem append_three_eq_iff {a b x y : List UInt8} {m z : UInt8} (ha : a.length = x.length)
    (hb : b.length = y.length) :
    a ++ (b ++ [m]) = x ++ (y ++ [z]) ↔ m = z ∧ a = x ∧ b = y := by
  constructor
  · intro h
    obtain ⟨rfl, h'⟩ := List.append_inj h ha
    obtain ⟨rfl, h''⟩ := List.append_inj h' hb
    exact ⟨by simpa using h'', rfl, rfl⟩
  · rintro ⟨rfl, rfl, rfl⟩
    rfl

theorem check_single_chunk_iff {e c : List UInt8} (he : e.length = ENC_GROUP_SIZE + 1)
    (hc : c.length ≤ ENC_GROUP_SIZE) :
    check_single_chunk desc e c = true ↔ e = encode_chunk desc c := by
  have hpad : ((e.take (e.length - 1)).drop c.length).length = ENC_GROUP_SIZE - c.length := by
    simp only [List.length_drop, List.length_take, he]
    omega
  have htake : (e.take c.length).length = c.length := by
    rw [List.length_take]
    omega
  rw [encode_chunk, adjust_append, List.append_assoc]
  conv => rhs; lhs; rw [chunk_split he hc]
  rw [append_three_eq_iff (by rw [htake, length_adjust]) (by rw [hpad, length_adjust,
    List.length_replicate])]
  -- the pad: the check compares each byte, the encoder writes the pad byte of the order
  have hpad_iff : ∀ a : UInt8, (((e.take (e.length - 1)).drop c.length).all (· == a) = true ↔
      (e.take (e.length - 1)).drop c.length = List.replicate (ENC_GROUP_SIZE - c.length) a) := by
    intro a
    rw [all_beq_iff, hpad]
  cases desc
  · simp only [check_single_chunk, Bool.false_eq_true, ↓reduceIte, Bool.and_eq_true, beq_iff_eq,
      hpad_iff, adjust_bytes_order, marker_byte, and_assoc]
    rfl
  · simp only [check_single_chunk, ↓reduceIte, Bool.and_eq_true, beq_iff_eq, hpad_iff,
      adjust_bytes_order, marker_byte, and_assoc, zip_all_not_iff htake, List.map_replicate]
    rfl

theorem zip_all_check_iff : ∀ {E R : List (List UInt8)}, E.length = R.length →
    (∀ e ∈ E, e.length = ENC_GROUP_SIZE + 1) → (∀ c ∈ R, c.length ≤ ENC_GROUP_SIZE) →
    (((E.zip R).all fun p => check_single_chunk desc p.1 p.2) = true ↔
      E = R.map (encode_chunk desc))
  | [], [], _, _, _ => by simp
  | e :: E, c :: R, hl, hE, hR => by
    simp only [List.zip_cons_cons, List.all_cons, Bool.and_eq_true, List.map_cons,
      List.cons.injEq]
    rw [check_single_chunk_iff desc (hE e List.mem_cons_self) (hR c List.mem_cons_self),
      zip_all_check_iff (by simpa using hl) (fun e' h => hE e' (List.mem_cons_of_mem _ h))
        (fun c' h => hR c' (List.mem_cons_of_mem _ h))]
  | [], _ :: _, hl, _, _ => by simp at hl
  | _ :: _, [], hl, _, _ => by simp at hl

end Chunks

/-! ### The checker -/

section Checker

variable (desc : Bool) (raw : List UInt8)

theorem raw_chunks :
    (∀ c ∈ (raw.take (raw.length / ENC_GROUP_SIZE * ENC_GROUP_SIZE)).toChunks ENC_GROUP_SIZE,
      c.length = ENC_GROUP_SIZE) ∧
    ((raw.take (raw.length / ENC_GROUP_SIZE * ENC_GROUP_SIZE)).toChunks ENC_GROUP_SIZE).length =
      raw.length / ENC_GROUP_SIZE := by
  have hlen : (raw.take (raw.length / ENC_GROUP_SIZE * ENC_GROUP_SIZE)).length =
      raw.length / ENC_GROUP_SIZE * ENC_GROUP_SIZE := by
    rw [List.length_take]
    exact Nat.min_eq_left (Nat.div_mul_le_self _ _)
  have h := toChunks_of_dvd (show 0 < ENC_GROUP_SIZE by decide) (raw.take (raw.length / ENC_GROUP_SIZE * ENC_GROUP_SIZE))
    (by rw [hlen]; exact Nat.dvd_mul_left _ _)
  rwa [hlen, Nat.mul_div_cancel _ (by decide)] at h

theorem length_raw_rest :
    (raw.drop (raw.length / ENC_GROUP_SIZE * ENC_GROUP_SIZE)).length ≤ ENC_GROUP_SIZE := by
  rw [List.length_drop]
  simp only [ENC_GROUP_SIZE]
  omega

theorem is_encoded_from_iff (encoded : List UInt8) :
    is_encoded_from encoded raw desc = true ↔ encoded = encode_order_bytes raw desc := by
  obtain ⟨hR, hRlen⟩ := raw_chunks raw
  have hrest := length_raw_rest raw
  have hcR : ∀ c ∈ (raw.take (raw.length / ENC_GROUP_SIZE * ENC_GROUP_SIZE)).toChunks ENC_GROUP_SIZE,
      c.length ≤ ENC_GROUP_SIZE := fun c hc => Nat.le_of_eq (hR c hc)
  simp only [is_encoded_from]
  constructor
  · intro h
    split at h
    · cases h
    rename_i hmod
    have hE := toChunks_of_dvd (show 0 < ENC_GROUP_SIZE + 1 by decide) encoded (Nat.dvd_of_mod_eq_zero (by simpa using hmod))
    split at h
    · cases h
    rename_i last rev heq
    simp only [Bool.and_eq_true, beq_iff_eq] at h
    obtain ⟨⟨hlast, hcount⟩, hpairs⟩ := h
    -- every chunk cut off the encoding has nine bytes
    have hmem : ∀ e ∈ last :: rev, e.length = ENC_GROUP_SIZE + 1 := fun e he =>
      hE.1 e (List.mem_reverse.mp (heq ▸ he))
    have hrev := (zip_all_check_iff desc (by rw [List.length_reverse, hRlen, hcount])
      (fun e he => hmem e (List.mem_cons_of_mem _ he))
      (fun c hc => hcR c (List.mem_reverse.mp hc))).mp hpairs
    have hl := (check_single_chunk_iff desc (hmem last List.mem_cons_self) hrest).mp hlast
    rw [← flatten_toChunks (show 0 < ENC_GROUP_SIZE + 1 by decide) encoded,
      ← List.reverse_reverse (encoded.toChunks _), heq, hrev, hl, List.reverse_cons,
      List.map_reverse, List.reverse_reverse, encode_order_bytes_chunks, List.map_append,
      List.map_singleton]
  · rintro rfl
    have hlen : (encode_order_bytes raw desc).length % (ENC_GROUP_SIZE + 1) = 0 := by
      rw [encode_order_bytes_eq, length_adjust, length_group_encode]
      exact Nat.mul_mod_left _ _
    have hlens : ∀ e ∈ ((raw.take (raw.length / ENC_GROUP_SIZE * ENC_GROUP_SIZE)).toChunks
        ENC_GROUP_SIZE ++ [raw.drop (raw.length / ENC_GROUP_SIZE * ENC_GROUP_SIZE)]).map
          (encode_chunk desc), e.length = ENC_GROUP_SIZE + 1 := by
      intro e he
      obtain ⟨c, hc, rfl⟩ := List.mem_map.mp he
      rcases List.mem_append.mp hc with hc | hc
      · exact length_encode_chunk desc (hcR c hc)
      · rw [List.mem_singleton.mp hc]
        exact length_encode_chunk desc hrest
    rw [if_neg (by simpa using hlen)]
    rw [encode_order_bytes_chunks, toChunks_flatten (by decide) hlens, List.map_append,
      List.map_singleton, List.reverse_append, List.reverse_singleton, List.singleton_append]
    simp only [Bool.and_eq_true, beq_iff_eq]
    refine ⟨⟨(check_single_chunk_iff desc (length_encode_chunk desc hrest) hrest).mpr rfl,
      by rw [List.length_reverse, List.length_map, hRlen]⟩, ?_⟩
    rw [← List.map_reverse]
    exact (zip_all_check_iff desc (by simp) (fun e he => by
      obtain ⟨c, hc, rfl⟩ := List.mem_map.mp he
      exact length_encode_chunk desc (hcR c (List.mem_reverse.mp hc)))
      (fun c hc => hcR c (List.mem_reverse.mp hc))).mpr rfl

end Checker

/-- The checkers decide the encoding relation: `is_encoded_from(encoded, raw, desc)` holds
exactly when `encoded` is the encoding of `raw` in that order, and
`Key::is_encoded_from(raw)` exactly when the key is `Key::from_raw(raw)`. -/
theorem is_encoded_from_decides_encoding :
    (∀ encoded raw desc, is_encoded_from encoded raw desc = true ↔
      encoded = encode_order_bytes raw desc) ∧
    (∀ (k : Key) raw, k.is_encoded_from raw = true ↔ k = Key.from_raw raw) := by
  refine ⟨fun encoded raw desc => is_encoded_from_iff desc raw encoded, fun k raw => ?_⟩
  rw [Key.is_encoded_from, is_encoded_from_iff]
  constructor
  · intro h
    cases k
    exact congrArg Key.mk h
  · rintro rfl
    rfl

end Tikv.Codec
