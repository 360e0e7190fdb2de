import Tikv.Codec.Bytes

/-!
`MemComparableByteCodec` of components/codec/src/byte.rs, the second implementation of the
memcomparable format. `encode_all` copies into a separate buffer; `encode_all_in_place`
encodes `src[..len]` inside `src`, writing the last group first and then the full groups
backwards so that no group is overwritten before it is copied; the descending forms flip
the written bytes afterwards. `try_decode_first_internal` copies each group into `dest`
and reads the padding off the copy.

A pointer is an offset into its buffer; an `assert!` that fails is a panic, `none` here.
Both are shown to agree with components/tikv_util/src/codec/bytes.rs: the encoders write
`group_encode`, and the decoder succeeds exactly when `decode_bytes` does, with the same key
and the same number of bytes read.
-/

namespace Tikv.Codec

open Tikv.Lib.Buffer

def MEMCMP_GROUP_SIZE : Nat := 8

def MEMCMP_PAD_BYTE : UInt8 := 0

inductive ErrorInner
  | Io (kind : ErrorKind) (msg : String)
  | BadPadding
  | KeyNotFound
  deriving DecidableEq, Repr

def ErrorInner.eof : ErrorInner :=
  .Io .UnexpectedEof "Unexpected EOF"

def ErrorInner.bad_padding : ErrorInner :=
  .BadPadding

structure MemComparableCodecHelper where
  PADDING : List UInt8
  parse_padding_size : UInt8 → Nat

def Ascending : MemComparableCodecHelper where
  PADDING := List.replicate MEMCMP_GROUP_SIZE MEMCMP_PAD_BYTE
  parse_padding_size raw_marker := (~~~raw_marker).toNat

def Descending : MemComparableCodecHelper where
  PADDING := List.replicate MEMCMP_GROUP_SIZE (~~~MEMCMP_PAD_BYTE)
  parse_padding_size raw_marker := raw_marker.toNat

namespace MemComparableByteCodec

def encoded_len (src_len : Nat) : Nat :=
  (src_len / MEMCMP_GROUP_SIZE + 1) * (MEMCMP_GROUP_SIZE + 1)

def encode_all_loop (src : List UInt8) : Nat → List UInt8 → Nat → Nat → List UInt8 × Nat × Nat
  | 0, dest, src_ptr, dest_ptr => (dest, src_ptr, dest_ptr)
  | g + 1, dest, src_ptr, dest_ptr =>
    let dest := write_at dest dest_ptr ((src.drop src_ptr).take MEMCMP_GROUP_SIZE)
    let src_ptr := src_ptr + MEMCMP_GROUP_SIZE
    let dest_ptr := dest_ptr + MEMCMP_GROUP_SIZE
    let dest := write_at dest dest_ptr [~~~0]
    encode_all_loop src g dest src_ptr (dest_ptr + 1)

def encode_all (src dest : List UInt8) : Option (List UInt8 × Nat) :=
  if dest.length < encoded_len src.length then none
  else
    let zero_padding_groups := src.length / MEMCMP_GROUP_SIZE
    let (dest, src_ptr, dest_ptr) := encode_all_loop src zero_padding_groups dest 0 0
    let remaining_size := src.length - src_ptr
    let padding_size := MEMCMP_GROUP_SIZE - remaining_size
    let padding_marker := ~~~(UInt8.ofNat padding_size)
    let dest := write_at dest dest_ptr ((src.drop src_ptr).take remaining_size)
    let dest := write_at dest (dest_ptr + remaining_size)
      (List.replicate padding_size MEMCMP_PAD_BYTE)
    let dest_ptr := dest_ptr + MEMCMP_GROUP_SIZE
    let dest := write_at dest dest_ptr [padding_marker]
    some (dest, dest_ptr + 1)

def encode_all_in_place_loop : Nat → List UInt8 → Nat → Nat → List UInt8
  | 0, src, _, _ => src
  | g + 1, src, src_ptr, dest_ptr =>
    let dest_ptr := dest_ptr - 1
    let src := write_at src dest_ptr [~~~0]
    let src_ptr := src_ptr - MEMCMP_GROUP_SIZE
    let dest_ptr := dest_ptr - MEMCMP_GROUP_SIZE
    let src := copy_within src src_ptr dest_ptr MEMCMP_GROUP_SIZE
    encode_all_in_place_loop g src src_ptr dest_ptr

def encode_all_in_place (src : List UInt8) (len : Nat) : Option (List UInt8 × Nat) :=
  let src_len := len
  let dest_len := encoded_len src_len
  if src.length < dest_len then none
  else
    let zero_padding_groups := src_len / MEMCMP_GROUP_SIZE
    let last_group_size := src_len - MEMCMP_GROUP_SIZE * zero_padding_groups
    let padding_size := MEMCMP_GROUP_SIZE - last_group_size
    let padding_marker := ~~~(UInt8.ofNat padding_size)
    let src_ptr := src_len - last_group_size
    let dest_ptr := dest_len - (MEMCMP_GROUP_SIZE + 1)
    let src := copy_within src src_ptr dest_ptr last_group_size
    let src := write_at src (dest_ptr + last_group_size)
      (List.replicate padding_size MEMCMP_PAD_BYTE)
    let src := write_at src (dest_ptr + MEMCMP_GROUP_SIZE) [padding_marker]
    some (encode_all_in_place_loop zero_padding_groups src src_ptr dest_ptr, dest_len)

def flip_bytes_in_place (src : List UInt8) (len : Nat) : List UInt8 :=
  (src.take len).map (~~~ ·) ++ src.drop len

def encode_all_desc (src dest : List UInt8) : Option (List UInt8 × Nat) := do
  let (dest, encoded_len) ← encode_all src dest
  pure (flip_bytes_in_place dest encoded_len, encoded_len)

def encode_all_in_place_desc (src : List UInt8) (len : Nat) : Option (List UInt8 × Nat) := do
  let (src, encoded_len) ← encode_all_in_place src len
  pure (flip_bytes_in_place src encoded_len, encoded_len)

/-- The loop of try_decode_first_internal, `src_ptr` and `dest_ptr` being what the source
computes `read_bytes` and `written_bytes` from. -/
def try_decode_first_loop (T : MemComparableCodecHelper) (src : List UInt8)
    (src_ptr dest_ptr : Nat) (dest : List UInt8) : Except ErrorInner (Nat × Nat) × List UInt8 :=
  let src_ptr_next := src_ptr + (MEMCMP_GROUP_SIZE + 1)
  if src_ptr_next > src.length then (.error ErrorInner.eof, dest)
  else
    let dest := write_at dest dest_ptr ((src.drop src_ptr).take MEMCMP_GROUP_SIZE)
    let padding_size := T.parse_padding_size (src.getD (src_ptr + MEMCMP_GROUP_SIZE) 0)
    let dest_ptr := dest_ptr + MEMCMP_GROUP_SIZE
    if padding_size > 0 then
      if padding_size > MEMCMP_GROUP_SIZE then (.error ErrorInner.bad_padding, dest)
      else if (dest.drop (dest_ptr - padding_size)).take padding_size ≠
          T.PADDING.take padding_size then (.error ErrorInner.bad_padding, dest)
      else (.ok (src_ptr_next, dest_ptr - padding_size), dest)
    else try_decode_first_loop T src src_ptr_next dest_ptr dest
termination_by src.length - src_ptr
decreasing_by simp only [MEMCMP_GROUP_SIZE] at *; omega

def try_decode_first_internal (T : MemComparableCodecHelper) (src dest : List UInt8) :
    Option (Except ErrorInner (Nat × Nat) × List UInt8) :=
  if dest.length < src.length then none
  else some (try_decode_first_loop T src 0 0 dest)

def try_decode_first (src dest : List UInt8) : Option (Except ErrorInner (Nat × Nat) × List UInt8) :=
  try_decode_first_internal Ascending src dest

def try_decode_first_desc (src dest : List UInt8) :
    Option (Except ErrorInner (Nat × Nat) × List UInt8) := do
  let (r, dest) ← try_decode_first_internal Descending src dest
  match r with
  | .ok (read_bytes, written_bytes) =>
    pure (.ok (read_bytes, written_bytes), flip_bytes_in_place dest written_bytes)
  | .error e => pure (.error e, dest)


def get_first_encoded_len_loop (T : MemComparableCodecHelper) (encoded : List UInt8) (idx : Nat) :
    Nat :=
  if encoded.length < idx + 1 then encoded.length
  else
    let marker := encoded.getD idx 0
    if T.parse_padding_size marker > 0 then idx + 1
    else get_first_encoded_len_loop T encoded (idx + (MEMCMP_GROUP_SIZE + 1))
termination_by encoded.length - idx

def get_first_encoded_len_internal (T : MemComparableCodecHelper) (encoded : List UInt8) : Nat :=
  get_first_encoded_len_loop T encoded MEMCMP_GROUP_SIZE

def get_first_encoded_len (encoded : List UInt8) : Nat :=
  get_first_encoded_len_internal Ascending encoded

def get_first_encoded_len_desc (encoded : List UInt8) : Nat :=
  get_first_encoded_len_internal Descending encoded

theorem not_eq_ff_sub (x : UInt8) : ~~~x = 0xFF - x := by
  apply UInt8.toNat_inj.mp
  have := x.toNat_lt
  rw [UInt8.toNat_not, toNat_ff_sub]
  simp only [UInt8.size]

theorem not_zero : (~~~(0 : UInt8)) = 0xFF := by decide

theorem group_encode_drop {k : List UInt8} {sp : Nat} (h : sp + 8 ≤ k.length) :
    group_encode (k.drop sp) = (k.drop sp).take 8 ++ 0xFF :: group_encode (k.drop (sp + 8)) := by
  rw [group_encode_full (by simp; omega), List.drop_drop]

theorem encode_all_loop_spec (src : List UInt8) (g : Nat) :
    ∀ (dest : List UInt8) (sp dp : Nat), sp + 8 * g ≤ src.length → dp + 9 * g ≤ dest.length →
      (encode_all_loop src g dest sp dp).2 = (sp + 8 * g, dp + 9 * g) ∧
      (encode_all_loop src g dest sp dp).1.length = dest.length ∧
      (encode_all_loop src g dest sp dp).1.take (dp + 9 * g) ++
          group_encode (src.drop (sp + 8 * g)) =
        dest.take dp ++ group_encode (src.drop sp) := by
  induction g with
  | zero => intro dest sp dp _ _; simp [encode_all_loop]
  | succ g ih =>
    intro dest sp dp hsp hdp
    have hg : ((src.drop sp).take MEMCMP_GROUP_SIZE).length = 8 := by
      simp [MEMCMP_GROUP_SIZE]; omega
    have h1 : dp + ((src.drop sp).take MEMCMP_GROUP_SIZE).length ≤ dest.length := by omega
    set dest1 := write_at dest dp ((src.drop sp).take MEMCMP_GROUP_SIZE) with hdest1
    have h2 : dp + MEMCMP_GROUP_SIZE + [~~~(0 : UInt8)].length ≤ dest1.length := by
      simp [hdest1, MEMCMP_GROUP_SIZE]; omega
    set dest2 := write_at dest1 (dp + MEMCMP_GROUP_SIZE) [~~~0] with hdest2
    obtain ⟨hptr, hlen, heq⟩ := ih dest2 (sp + MEMCMP_GROUP_SIZE) (dp + MEMCMP_GROUP_SIZE + 1)
      (by simp [MEMCMP_GROUP_SIZE]; omega) (by simp [hdest2, hdest1, MEMCMP_GROUP_SIZE]; omega)
    have hstep : dest2.take (dp + MEMCMP_GROUP_SIZE + 1) =
        dest.take dp ++ ((src.drop sp).take MEMCMP_GROUP_SIZE ++ [0xFF]) := by
      rw [hdest2, take_write_at_eq h2 (by simp), hdest1,
        take_write_at_eq h1 (by rw [hg]; rfl), not_zero, List.append_assoc]
    refine ⟨?_, ?_, ?_⟩
    · rw [encode_all_loop, hptr]
      simp only [MEMCMP_GROUP_SIZE]
      ext <;> simp <;> omega
    · rw [encode_all_loop, hlen, hdest2, length_write_at, hdest1, length_write_at]
    · rw [encode_all_loop, show dp + 9 * (g + 1) = dp + MEMCMP_GROUP_SIZE + 1 + 9 * g by
          simp only [MEMCMP_GROUP_SIZE]; omega,
        show sp + 8 * (g + 1) = sp + MEMCMP_GROUP_SIZE + 8 * g by simp only [MEMCMP_GROUP_SIZE]; omega,
        heq, hstep, group_encode_drop (show sp + 8 ≤ src.length by omega)]
      simp [MEMCMP_GROUP_SIZE]
theorem encoded_len_eq (n : Nat) : encoded_len n = 9 * (n / 8) + 9 := by
  simp only [encoded_len, MEMCMP_GROUP_SIZE]
  omega

theorem last_group_writes {buf rem : List UInt8} {dp p : Nat} (hrem : rem.length + p = 8)
    (hb : dp + 9 ≤ buf.length) :
    write_at (write_at (write_at buf dp rem) (dp + rem.length) (List.replicate p 0)) (dp + 8)
        [~~~(UInt8.ofNat p)] =
      buf.take dp ++ (rem ++ List.replicate p 0 ++ [0xFF - UInt8.ofNat p]) ++ buf.drop (dp + 9) := by
  have h1 : dp + rem.length ≤ buf.length := by omega
  have h2 : dp + rem.length + (List.replicate p (0 : UInt8)).length ≤
      (write_at buf dp rem).length := by simp; omega
  have h3 : dp + 8 + [~~~(UInt8.ofNat p)].length ≤
      (write_at (write_at buf dp rem) (dp + rem.length) (List.replicate p 0)).length := by
    simp; omega
  have hend : dp + rem.length + (List.replicate p (0 : UInt8)).length = dp + 8 := by simp; omega
  rw [write_at_eq h3, take_write_at_eq h2 hend.symm, take_write_at_eq h1 rfl,
    List.length_singleton, drop_write_at_of_le h2 (by omega), drop_write_at_of_le h1 (by omega),
    not_eq_ff_sub]
  simp

theorem encode_all_spec (src dest : List UInt8) (h : encoded_len src.length ≤ dest.length) :
    ∃ dest', encode_all src dest = some (dest', encoded_len src.length) ∧
      dest'.take (encoded_len src.length) = group_encode src := by
  have hz := encoded_len_eq src.length
  obtain ⟨hptr, hlen, heq⟩ := encode_all_loop_spec src (src.length / 8) dest 0 0
    (by omega) (by omega)
  generalize hr : encode_all_loop src (src.length / 8) dest 0 0 = r at hptr hlen heq
  obtain ⟨d1, sp, dp⟩ := r
  simp only [Prod.mk.injEq] at hptr
  obtain ⟨rfl, rfl⟩ := hptr
  simp only [Nat.zero_add, List.take_zero, List.nil_append, List.drop_zero] at heq hlen
  simp only [Nat.zero_add] at hr
  have hrem : (src.drop (8 * (src.length / 8))).length < 8 := by simp; omega
  have hremlen : ((src.drop (8 * (src.length / 8))).take (src.length - 8 * (src.length / 8))).length +
      (8 - (src.length - 8 * (src.length / 8))) = 8 := by simp; omega
  refine ⟨write_at (write_at (write_at d1 (9 * (src.length / 8))
      ((src.drop (8 * (src.length / 8))).take (src.length - 8 * (src.length / 8))))
      (9 * (src.length / 8) + (src.length - 8 * (src.length / 8)))
      (List.replicate (8 - (src.length - 8 * (src.length / 8))) 0))
      (9 * (src.length / 8) + 8) [~~~(UInt8.ofNat (8 - (src.length - 8 * (src.length / 8))))],
    ?_, ?_⟩
  · rw [encode_all, if_neg (by omega)]
    simp only [MEMCMP_GROUP_SIZE, hr, MEMCMP_PAD_BYTE]
    rw [encoded_len_eq]
  · have hbuf := last_group_writes hremlen (show 9 * (src.length / 8) + 9 ≤ d1.length by omega)
    rw [List.length_take, Nat.min_eq_left (by simp)] at hbuf
    rw [encoded_len_eq, hbuf, List.take_left' (by simp; omega), ← heq, group_encode_last hrem,
      List.take_of_length_le (show (src.drop (8 * (src.length / 8))).length ≤
        src.length - 8 * (src.length / 8) by simp)]
    simp

theorem encode_all_in_place_loop_spec (orig key tail : List UInt8) (hkey : key = orig.take key.length)
    (j : Nat) (hj : 8 * j ≤ key.length) (J : List UInt8) (hJ : J.length = j) :
    encode_all_in_place_loop j (orig.take (8 * j) ++ J ++ (group_encode (key.drop (8 * j)) ++ tail))
        (8 * j) (9 * j) = group_encode key ++ tail := by
  induction j generalizing J with
  | zero =>
    rw [List.length_eq_zero_iff] at hJ
    subst hJ
    simp [encode_all_in_place_loop]
  | succ j ih =>
    have hlen : 8 * (j + 1) ≤ orig.length := by
      have := congrArg List.length hkey
      simp at this
      omega
    -- the group about to be moved, and the buffer cut where the writes fall
    have hG : ((orig.drop (8 * j)).take 8).length = 8 := by simp; omega
    have horig : orig.take (8 * (j + 1)) = orig.take (8 * j) ++ (orig.drop (8 * j)).take 8 := by
      rw [show 8 * (j + 1) = 8 * j + 8 by omega, List.take_add]
    have hGkey : (orig.drop (8 * j)).take 8 = (key.drop (8 * j)).take 8 := by
      rw [hkey, List.drop_take, List.take_take, Nat.min_eq_left (by omega)]
    have hne : J ≠ [] := by
      rintro rfl
      simp at hJ
    obtain ⟨J0, x, rfl⟩ : ∃ J0 x, J = J0 ++ [x] :=
      ⟨J.dropLast, J.getLast hne, (List.dropLast_append_getLast hne).symm⟩
    have hJ0 : J0.length = j := by simp at hJ; omega
    generalize hGdef : (orig.drop (8 * j)).take 8 = G at hG horig hGkey
    generalize hrest : group_encode (key.drop (8 * (j + 1))) ++ tail = rest
    -- the marker goes over the last junk byte
    have h1 : write_at (orig.take (8 * (j + 1)) ++ (J0 ++ [x]) ++ rest) (9 * j + 8) [~~~0] =
        orig.take (8 * j) ++ (G ++ (J0 ++ ([~~~0] ++ rest))) := by
      have h := write_at_append (orig.take (8 * (j + 1)) ++ J0) [x] rest [~~~0] rfl
      rw [show (orig.take (8 * (j + 1)) ++ J0).length = 9 * j + 8 by simp; omega, horig] at h
      rw [horig]
      simp only [List.append_assoc] at h ⊢
      exact h
    -- the group is read from below the junk and written just above it
    have hsrc : ((orig.take (8 * j) ++ (G ++ (J0 ++ ([~~~0] ++ rest)))).drop (8 * j)).take 8 = G := by
      rw [List.drop_left' (by simp; omega), List.take_left' hG]
    have h2 : write_at (orig.take (8 * j) ++ (G ++ (J0 ++ ([~~~0] ++ rest)))) (9 * j) G =
        orig.take (8 * j) ++ ((G ++ J0).take j ++ (G ++ ([~~~0] ++ rest))) := by
      have h := write_at_append (orig.take (8 * j) ++ (G ++ J0).take j) ((G ++ J0).drop j)
        ([~~~0] ++ rest) G (by simp; omega)
      rw [show (orig.take (8 * j) ++ (G ++ J0).take j).length = 9 * j by simp; omega] at h
      have hsplit : G ++ (J0 ++ ([~~~0] ++ rest)) =
          (G ++ J0).take j ++ ((G ++ J0).drop j ++ ([~~~0] ++ rest)) := by
        rw [← List.append_assoc ((G ++ J0).take j), List.take_append_drop, List.append_assoc]
      simp only [List.append_assoc] at h
      rw [hsplit, h]
    have hformat : G ++ ([~~~0] ++ rest) = group_encode (key.drop (8 * j)) ++ tail := by
      rw [← hrest, hGkey, group_encode_drop (show 8 * j + 8 ≤ key.length by omega), not_zero,
        show 8 * j + 8 = 8 * (j + 1) by omega]
      simp
    rw [encode_all_in_place_loop]
    simp only [MEMCMP_GROUP_SIZE, show 9 * (j + 1) - 1 = 9 * j + 8 by omega,
      show 8 * (j + 1) - 8 = 8 * j by omega, show 9 * j + 8 - 8 = 9 * j by omega, h1, copy_within,
      hsrc, h2, hformat]
    rw [← List.append_assoc]
    exact ih (by omega) _ (by simp; omega)
theorem encode_all_in_place_spec (src : List UInt8) (len : Nat)
    (h : encoded_len len ≤ src.length) :
    ∃ buf, encode_all_in_place src len = some (buf, encoded_len len) ∧
      buf.take (encoded_len len) = group_encode (src.take len) := by
  have hz := encoded_len_eq len
  have hkey : (src.take len).length = len := by simp; omega
  have hR : (src.drop (8 * (len / 8))).take (len - 8 * (len / 8)) =
      (src.take len).drop (8 * (len / 8)) := by
    rw [List.drop_take]
  have hremlen : ((src.drop (8 * (len / 8))).take (len - 8 * (len / 8))).length +
      (8 - (len - 8 * (len / 8))) = 8 := by simp; omega
  have hrlen : ((src.drop (8 * (len / 8))).take (len - 8 * (len / 8))).length =
      len - 8 * (len / 8) := by simp; omega
  have hbuf := last_group_writes hremlen (show 9 * (len / 8) + 9 ≤ src.length by omega)
  rw [hrlen] at hbuf
  -- below the last group's slot lie the full groups, still unread, and `len / 8` bytes of junk
  have hsplit : src.take (9 * (len / 8)) =
      src.take (8 * (len / 8)) ++ (src.drop (8 * (len / 8))).take (len / 8) := by
    rw [show 9 * (len / 8) = 8 * (len / 8) + len / 8 by omega, List.take_add]
  have hlast : (src.drop (8 * (len / 8))).take (len - 8 * (len / 8)) ++
      List.replicate (8 - (len - 8 * (len / 8))) 0 ++
        [0xFF - UInt8.ofNat (8 - (len - 8 * (len / 8)))] =
      group_encode ((src.take len).drop (8 * (len / 8))) := by
    rw [group_encode_last (by simp; omega), hR]
    simp [hkey]
  have hloop := encode_all_in_place_loop_spec src (src.take len) (src.drop (encoded_len len))
    (by rw [hkey]) (len / 8) (by omega) ((src.drop (8 * (len / 8))).take (len / 8)) (by simp; omega)
  refine ⟨group_encode (src.take len) ++ src.drop (encoded_len len), ?_, ?_⟩
  · rw [encode_all_in_place, if_neg (by omega)]
    simp only [MEMCMP_GROUP_SIZE, MEMCMP_PAD_BYTE, copy_within, hz,
      show len - (len - 8 * (len / 8)) = 8 * (len / 8) by omega,
      show 9 * (len / 8) + 9 - (8 + 1) = 9 * (len / 8) by omega, hbuf, hsplit, hlast]
    rw [hz] at hloop
    simp only [List.append_assoc] at hloop ⊢
    rw [hloop]
  · rw [List.take_left' (by rw [length_group_encode, hkey, hz]; omega)]

section Decode

variable (desc : Bool)

theorem parse_padding_size_eq (m : UInt8) :
    (if desc then Descending else Ascending).parse_padding_size m =
      if desc then m.toNat else (ENC_MARKER - m).toNat := by
  cases desc
  · simp only [Bool.false_eq_true, if_false, Ascending, ENC_MARKER, not_eq_ff_sub]
  · rfl

theorem PADDING_take {p : Nat} (hp : p ≤ 8) :
    (if desc then Descending else Ascending).PADDING.take p =
      adjust_bytes_order (List.replicate p 0) desc := by
  have hp' : p ≤ MEMCMP_GROUP_SIZE := hp
  cases desc
  · show (List.replicate MEMCMP_GROUP_SIZE MEMCMP_PAD_BYTE).take p = List.replicate p 0
    rw [List.take_replicate, Nat.min_eq_left hp']
    rfl
  · show (List.replicate MEMCMP_GROUP_SIZE (~~~MEMCMP_PAD_BYTE)).take p =
      (List.replicate p 0).map (~~~ ·)
    rw [List.take_replicate, Nat.min_eq_left hp', List.map_replicate]
    rfl

theorem any_ne_iff {l : List UInt8} {p : Nat} (hl : l.length = p) :
    l.any (· != if desc then ~~~0 else 0) = true ↔ l ≠ adjust_bytes_order (List.replicate p 0) desc := by
  constructor
  · rintro h rfl
    rw [any_adjust_replicate] at h
    cases h
  · intro h
    by_contra hne
    exact h (eq_adjust_replicate_of_any desc hl (Bool.eq_false_iff.mpr hne))

theorem try_decode_first_loop_eof (T : MemComparableCodecHelper) {src : List UInt8} {sp : Nat}
    (dp : Nat) (dest : List UInt8) (h : ¬ sp + (ENC_GROUP_SIZE + 1) ≤ src.length) :
    try_decode_first_loop T src sp dp dest = (.error ErrorInner.eof, dest) := by
  have h' : sp + (MEMCMP_GROUP_SIZE + 1) > src.length := by
    simp only [MEMCMP_GROUP_SIZE, ENC_GROUP_SIZE] at *
    omega
  rw [try_decode_first_loop]
  simp only [h', ↓reduceIte]

theorem try_decode_first_loop_chunk (T : MemComparableCodecHelper) {src bytes rest : List UInt8}
    {sp : Nat} {m : UInt8} (hdrop : src.drop sp = bytes ++ m :: rest) (hb : bytes.length = ENC_GROUP_SIZE)
    (dp : Nat) (dest : List UInt8) :
    try_decode_first_loop T src sp dp dest =
      let dest' := write_at dest dp bytes
      let padding_size := T.parse_padding_size m
      if padding_size > 0 then
        if padding_size > ENC_GROUP_SIZE then (.error ErrorInner.bad_padding, dest')
        else if (dest'.drop (dp + ENC_GROUP_SIZE - padding_size)).take padding_size ≠
            T.PADDING.take padding_size then (.error ErrorInner.bad_padding, dest')
        else (.ok (sp + (ENC_GROUP_SIZE + 1), dp + ENC_GROUP_SIZE - padding_size), dest')
      else try_decode_first_loop T src (sp + (ENC_GROUP_SIZE + 1)) (dp + ENC_GROUP_SIZE) dest' := by
  have hlen : ¬ sp + (MEMCMP_GROUP_SIZE + 1) > src.length := by
    have := congrArg List.length hdrop
    simp [ENC_GROUP_SIZE] at this hb
    simp only [MEMCMP_GROUP_SIZE]
    omega
  have hb' : bytes.length = MEMCMP_GROUP_SIZE := hb
  have hbytes : (src.drop sp).take MEMCMP_GROUP_SIZE = bytes := by
    rw [hdrop, List.take_left' hb']
  have hmarker : src.getD (sp + MEMCMP_GROUP_SIZE) 0 = m := by
    apply getD_of_drop_eq_cons (t := rest)
    rw [← List.drop_drop, hdrop, List.drop_left' hb']
  rw [try_decode_first_loop]
  simp only [if_neg hlen, hbytes, hmarker]
  rfl

/-- The outcomes of tikv_util's decode loop and of the codec crate's on one input agree:
both fail, or both succeed with the same key, still complemented in the descending order in
the codec crate's buffer, having read the same bytes. -/
inductive DecodeAgree (src : List UInt8) :
    Except Error (List UInt8 × List UInt8) → Except ErrorInner (Nat × Nat) × List UInt8 → Prop
  | error (e : Error) (e' : ErrorInner) (dest : List UInt8) : DecodeAgree src (.error e) (.error e', dest)
  | ok (k rest : List UInt8) (read written : Nat) (dest : List UInt8) (hw : written = k.length)
      (hk : dest.take written = adjust_bytes_order k desc) (hread : read ≤ src.length)
      (hrest : rest = src.drop read) :
      DecodeAgree src (.ok (k, rest)) (.ok (read, written), dest)

theorem decode_loops_agree (src : List UInt8) (offset : Nat) (key dest : List UInt8)
    (hdest : dest.take key.length = key) (hkey : key.length ≤ offset)
    (hsrc : src.length ≤ dest.length) :
    DecodeAgree desc src (decode_bytes_loop src desc offset key)
      (try_decode_first_loop (if desc then Descending else Ascending) src offset key.length dest) := by
  by_cases hlen : offset + (ENC_GROUP_SIZE + 1) ≤ src.length
  · obtain ⟨bytes, m, rest, hdrop, hb⟩ :=
      exists_eq_append_cons (show ENC_GROUP_SIZE < (src.drop offset).length by simp; omega)
    rw [decode_bytes_loop_chunk desc hdrop hb, try_decode_first_loop_chunk _ hdrop hb,
      parse_padding_size_eq]
    simp only
    have hin : key.length + bytes.length ≤ dest.length := by
      simp only [ENC_GROUP_SIZE] at *
      omega
    have hwritten : (write_at dest key.length bytes).take (key.length + ENC_GROUP_SIZE) =
        key ++ bytes := by
      rw [take_write_at_eq hin (by rw [hb]), hdest]
    generalize hpad : (if desc then m.toNat else (ENC_MARKER - m).toNat) = p
    by_cases h0 : p = 0
    · -- a full group: both loops go on with the eight bytes added
      rw [if_pos h0, if_neg (show ¬ p > 0 by omega)]
      have h := decode_loops_agree src (offset + (ENC_GROUP_SIZE + 1)) (key ++ bytes)
        (write_at dest key.length bytes) (by rw [List.length_append, hb, hwritten])
        (by simp only [List.length_append, hb]; omega) (by rw [length_write_at]; exact hsrc)
      rwa [List.length_append, hb] at h
    rw [if_neg h0, if_pos (show p > 0 by omega)]
    by_cases h8 : p > ENC_GROUP_SIZE
    · rw [if_pos h8, if_pos h8]
      exact .error _ _ _
    rw [if_neg h8, if_neg h8]
    -- the padding both check is the tail of the group just read
    have hpadding : ((write_at dest key.length bytes).drop (key.length + ENC_GROUP_SIZE - p)).take p =
        bytes.drop (ENC_GROUP_SIZE - p) := by
      rw [List.take_drop, show key.length + ENC_GROUP_SIZE - p + p = key.length + ENC_GROUP_SIZE by
        omega, hwritten, List.drop_append,
        List.drop_eq_nil_of_le (show key.length ≤ key.length + ENC_GROUP_SIZE - p by omega),
        List.nil_append]
      congr 1
      omega
    rw [hpadding, PADDING_take desc (show p ≤ 8 by simp only [ENC_GROUP_SIZE] at h8; omega)]
    have hplen : (bytes.drop (ENC_GROUP_SIZE - p)).length = p := by simp only [List.length_drop]; omega
    by_cases hany : (bytes.drop (ENC_GROUP_SIZE - p)).any (· != if desc then ~~~0 else 0) = true
    · rw [if_pos hany, if_pos ((any_ne_iff desc hplen).mp hany)]
      exact .error _ _ _
    rw [if_neg hany, if_neg (fun h => hany ((any_ne_iff desc hplen).mpr h))]
    -- the last group: the same key, read up to the end of the chunk
    apply DecodeAgree.ok
    · simp only [length_adjust, List.length_append, List.length_take, hb]
      omega
    · rw [adjust_adjust, show key.length + ENC_GROUP_SIZE - p = key.length + (ENC_GROUP_SIZE - p) by
        omega]
      have h := congrArg (List.take (key.length + (ENC_GROUP_SIZE - p))) hwritten
      rw [List.take_take, Nat.min_eq_left (by omega), List.take_append,
        List.take_of_length_le (show key.length ≤ key.length + (ENC_GROUP_SIZE - p) by omega),
        Nat.add_sub_cancel_left] at h
      exact h
    · omega
    · exact (drop_chunk hdrop hb).symm
  · rw [decode_bytes_loop_eof desc _ hlen, try_decode_first_loop_eof _ _ _ hlen]
    exact .error _ _ _
termination_by src.length - offset
decreasing_by simp only [ENC_GROUP_SIZE] at *; omega

theorem decode_agree_of_length (src dest : List UInt8) (h : src.length ≤ dest.length) :
    DecodeAgree desc src (decode_bytes src desc)
      (try_decode_first_loop (if desc then Descending else Ascending) src 0 0 dest) :=
  decode_loops_agree desc src 0 [] dest (by simp) (Nat.le_refl 0) h

end Decode

theorem take_flip_bytes_in_place (buf : List UInt8) (n : Nat) :
    (flip_bytes_in_place buf n).take n = flip (buf.take n) := by
  rw [flip_bytes_in_place, List.take_append, List.take_of_length_le (by simp)]
  by_cases hn : n ≤ buf.length
  · rw [List.length_map, List.length_take, Nat.min_eq_left hn, Nat.sub_self, List.take_zero,
      List.append_nil]
    rfl
  · rw [List.drop_eq_nil_of_le (by omega), List.take_nil, List.append_nil]
    rfl

theorem encode_all_desc_spec (src dest : List UInt8) (h : encoded_len src.length ≤ dest.length) :
    ∃ dest', encode_all_desc src dest = some (dest', encoded_len src.length) ∧
      dest'.take (encoded_len src.length) = flip (group_encode src) := by
  obtain ⟨dest', hsome, htake⟩ := encode_all_spec src dest h
  refine ⟨flip_bytes_in_place dest' (encoded_len src.length), ?_, ?_⟩
  · rw [encode_all_desc, hsome]
    rfl
  · rw [take_flip_bytes_in_place, htake]

theorem encode_all_in_place_desc_spec (src : List UInt8) (len : Nat)
    (h : encoded_len len ≤ src.length) :
    ∃ buf, encode_all_in_place_desc src len = some (buf, encoded_len len) ∧
      buf.take (encoded_len len) = flip (group_encode (src.take len)) := by
  obtain ⟨buf, hsome, htake⟩ := encode_all_in_place_spec src len h
  refine ⟨flip_bytes_in_place buf (encoded_len len), ?_, ?_⟩
  · rw [encode_all_in_place_desc, hsome]
    rfl
  · rw [take_flip_bytes_in_place, htake]

theorem try_decode_first_eq (src dest : List UInt8) (h : src.length ≤ dest.length) :
    try_decode_first src dest = some (try_decode_first_loop Ascending src 0 0 dest) := by
  rw [try_decode_first, try_decode_first_internal, if_neg (by omega)]

theorem try_decode_first_desc_eq (src dest : List UInt8) (h : src.length ≤ dest.length) :
    try_decode_first_desc src dest =
      match try_decode_first_loop Descending src 0 0 dest with
      | (.ok (read_bytes, written_bytes), dest) =>
        some (.ok (read_bytes, written_bytes), flip_bytes_in_place dest written_bytes)
      | (.error e, dest) => some (.error e, dest) := by
  rw [try_decode_first_desc, try_decode_first_internal, if_neg (by omega)]
  obtain ⟨r, dest'⟩ := try_decode_first_loop Descending src 0 0 dest
  cases r <;> rfl

theorem memcmp_codecs_agree :
    (∀ k dest : List UInt8, encoded_len k.length ≤ dest.length →
      ∃ dest', encode_all k dest = some (dest', encoded_len k.length) ∧
        dest'.take (encoded_len k.length) = encode_bytes k) ∧
    (∀ k dest : List UInt8, encoded_len k.length ≤ dest.length →
      ∃ dest', encode_all_desc k dest = some (dest', encoded_len k.length) ∧
        dest'.take (encoded_len k.length) = encode_bytes_desc k) ∧
    (∀ (src : List UInt8) (len : Nat), encoded_len len ≤ src.length →
      ∃ buf, encode_all_in_place src len = some (buf, encoded_len len) ∧
        buf.take (encoded_len len) = encode_bytes (src.take len)) ∧
    (∀ (src : List UInt8) (len : Nat), encoded_len len ≤ src.length →
      ∃ buf, encode_all_in_place_desc src len = some (buf, encoded_len len) ∧
        buf.take (encoded_len len) = encode_bytes_desc (src.take len)) ∧
    (∀ d dest : List UInt8, d.length ≤ dest.length →
      (∀ k rest, decode_bytes d false = .ok (k, rest) →
        ∃ dest', try_decode_first d dest = some (.ok (d.length - rest.length, k.length), dest') ∧
          dest'.take k.length = k) ∧
      (∀ read written dest', try_decode_first d dest = some (.ok (read, written), dest') →
        decode_bytes d false = .ok (dest'.take written, d.drop read))) ∧
    (∀ d dest : List UInt8, d.length ≤ dest.length →
      (∀ k rest, decode_bytes d true = .ok (k, rest) →
        ∃ dest', try_decode_first_desc d dest =
            some (.ok (d.length - rest.length, k.length), dest') ∧ dest'.take k.length = k) ∧
      (∀ read written dest', try_decode_first_desc d dest = some (.ok (read, written), dest') →
        decode_bytes d true = .ok (dest'.take written, d.drop read))) := by
  refine ⟨fun k dest h => ?_, fun k dest h => ?_, fun src len h => ?_, fun src len h => ?_,
    fun d dest h => ⟨fun k rest hk => ?_, fun read written dest' hr => ?_⟩,
    fun d dest h => ⟨fun k rest hk => ?_, fun read written dest' hr => ?_⟩⟩
  · rw [encode_bytes_eq]
    exact encode_all_spec k dest h
  · rw [encode_bytes_desc_eq]
    exact encode_all_desc_spec k dest h
  · rw [encode_bytes_eq]
    exact encode_all_in_place_spec src len h
  · rw [encode_bytes_desc_eq]
    exact encode_all_in_place_desc_spec src len h
  · have ha := decode_agree_of_length false d dest h
    simp only [Bool.false_eq_true, if_false] at ha
    rw [hk] at ha
    rw [try_decode_first_eq d dest h]
    generalize try_decode_first_loop Ascending d 0 0 dest = r at ha
    cases ha with
    | ok _ _ read written dest' hw htake hread hrest =>
      subst hw hrest
      refine ⟨dest', ?_, htake⟩
      simp only [List.length_drop, Nat.sub_sub_self hread]
  · have ha := decode_agree_of_length false d dest h
    rw [try_decode_first_eq d dest h, Option.some.injEq] at hr
    simp only [Bool.false_eq_true, if_false] at ha
    rw [hr] at ha
    generalize decode_bytes d false = r at ha
    cases ha with
    | ok k rest _ _ _ hw htake _ hrest =>
      rw [htake, hrest]
      rfl
  · have ha := decode_agree_of_length true d dest h
    rw [hk] at ha
    rw [try_decode_first_desc_eq d dest h]
    simp only [if_true] at ha
    generalize try_decode_first_loop Descending d 0 0 dest = r at ha
    cases ha with
    | ok _ _ read written dest' hw htake hread hrest =>
      subst hw hrest
      refine ⟨flip_bytes_in_place dest' k.length, ?_, ?_⟩
      · simp only [List.length_drop, Nat.sub_sub_self hread]
      · rw [take_flip_bytes_in_place, htake, adjust_eq_flip, if_pos rfl, flip_flip]
  · have ha := decode_agree_of_length true d dest h
    rw [try_decode_first_desc_eq d dest h] at hr
    simp only [if_true] at ha
    generalize try_decode_first_loop Descending d 0 0 dest = r at ha hr
    generalize decode_bytes d true = r' at ha
    cases ha with
    | error => simp at hr
    | ok k rest read' written' dest'' hw htake _ hrest =>
      simp only [Option.some.injEq, Prod.mk.injEq, Except.ok.injEq] at hr
      obtain ⟨⟨rfl, rfl⟩, rfl⟩ := hr
      rw [take_flip_bytes_in_place, htake, adjust_eq_flip, if_pos rfl, flip_flip, hrest]

end MemComparableByteCodec

end Tikv.Codec
