import Tikv.Lib.Lex

/-!
The memcomparable format of byte strings (the MyRocks record format that
components/tikv_util/src/codec/bytes.rs and components/codec/src/byte.rs both implement),
stated on its own: the key in groups of eight bytes, each group followed by a marker. A full
group with more of the key after it is marked 0xFF; the last group is padded with zero bytes
to eight and marked 0xFF minus the number of pad bytes, so a key whose length is a multiple
of eight ends with an empty group marked 0xF7. The descending form is the bitwise complement.

The point of the format is `group_encode_diffLt`: a key below another has an encoding that
differs from the other's at a position inside both, so the order survives anything written
after the encodings (a timestamp, another column).
-/

namespace Tikv.Codec

open Tikv.Lib.Lex

def group_encode (k : List UInt8) : List UInt8 :=
  if 8 ≤ k.length then k.take 8 ++ 0xFF :: group_encode (k.drop 8)
  else k ++ List.replicate (8 - k.length) 0 ++ [0xFF - UInt8.ofNat (8 - k.length)]
termination_by k.length
decreasing_by simp only [List.length_drop]; omega

def flip (bs : List UInt8) : List UInt8 :=
  bs.map (~~~ ·)

theorem group_encode_full {k : List UInt8} (h : 8 ≤ k.length) :
    group_encode k = k.take 8 ++ 0xFF :: group_encode (k.drop 8) := by
  rw [group_encode, if_pos h]

theorem group_encode_last {k : List UInt8} (h : k.length < 8) :
    group_encode k = k ++ (List.replicate (8 - k.length) 0 ++ [0xFF - UInt8.ofNat (8 - k.length)]) := by
  rw [group_encode, if_neg (by omega), List.append_assoc]

theorem group_encode_append_full {g : List UInt8} (hg : g.length = 8) (k : List UInt8) :
    group_encode (g ++ k) = g ++ 0xFF :: group_encode k := by
  rw [group_encode_full (by simp; omega), List.take_left' hg, List.drop_left' hg]

theorem length_group_encode (k : List UInt8) :
    (group_encode k).length = (k.length / 8 + 1) * 9 := by
  induction k using group_encode.induct with
  | case1 k h ih =>
    rw [group_encode_full h, List.length_append, List.length_cons, ih, List.length_take,
      List.length_drop]
    omega
  | case2 k h =>
    rw [group_encode_last (by omega)]
    simp only [List.length_append, List.length_replicate, List.length_singleton]
    omega

theorem marker_lt {p q : Nat} (hp : p ≤ 8) (hq : q < p) :
    (0xFF - UInt8.ofNat p : UInt8) < 0xFF - UInt8.ofNat q := by
  rw [UInt8.lt_iff_toNat_lt, UInt8.toNat_sub, UInt8.toNat_sub, UInt8.toNat_ofNat',
    UInt8.toNat_ofNat']
  simp only [UInt8.reduceToNat]
  omega

theorem zero_lt_of_ne {x : UInt8} (h : x ≠ 0) : 0 < x :=
  UInt8.pos_iff_ne_zero.mpr h

theorem not_lt_not {x y : UInt8} (h : x < y) : ~~~y < ~~~x := by
  have hy := y.toNat_lt
  rw [UInt8.lt_iff_toNat_lt] at *
  simp only [UInt8.toNat_not, UInt8.size] at *
  omega

@[simp]
theorem flip_flip (bs : List UInt8) : flip (flip bs) = bs := by
  simp [flip, Function.comp_def]

theorem diffLt_flip {s t : List UInt8} (h : DiffLt (· < ·) s t) :
    DiffLt (· < ·) (flip t) (flip s) :=
  h.map (fun x : UInt8 => ~~~x) fun _ _ => not_lt_not

theorem pad_diffLt {p : Nat} (hp : 1 ≤ p ∧ p ≤ 8) {c : List UInt8} (hc : c.length = p)
    (rest : List UInt8) :
    DiffLt (· < ·) (List.replicate p 0 ++ [0xFF - UInt8.ofNat p]) (c ++ 0xFF :: rest) := by
  rcases eq_replicate_or_diffLt (fun _ => zero_lt_of_ne) c with h | h
  · rw [h, hc]
    apply DiffLt.append_left
    apply DiffLt.head
    simpa using marker_lt hp.2 hp.1
  · rw [hc] at h
    exact h.append _ _

theorem group_encode_diffLt {a b : List UInt8} (h : a < b) :
    DiffLt (· < ·) (group_encode a) (group_encode b) := by
  induction a using group_encode.induct generalizing b with
  | case1 a ha ih =>
    by_cases hb : 8 ≤ b.length
    · -- both keys fill their first group: it decides, or it is shared and the rest decides
      rw [group_encode_full ha, group_encode_full hb]
      have hsplit : List.Lex (· < ·) (a.take 8 ++ a.drop 8) (b.take 8 ++ b.drop 8) := by
        rw [List.take_append_drop, List.take_append_drop]
        exact h
      rcases lex_append_of_length_eq (by simp; omega) hsplit with hd | ⟨heq, hrest⟩
      · exact hd.append _ _
      · rw [heq]
        exact DiffLt.append_left _ (DiffLt.cons _ (ih hrest))
    · rw [group_encode_full ha, group_encode_last (show b.length < 8 by omega)]
      rcases lex_cases h with ⟨u, _, hu⟩ | hd
      · have := congrArg List.length hu
        simp at this
        omega
      · exact (hd.take_left (show b.length ≤ 8 by omega)).append _ _
  | case2 a ha =>
    by_cases hb : 8 ≤ b.length
    · rw [group_encode_last (show a.length < 8 by omega), group_encode_full hb]
      rcases lex_cases h with ⟨u, _, rfl⟩ | hd
      · have ht : (a ++ u).take 8 = a ++ u.take (8 - a.length) := by
          rw [List.take_append, List.take_of_length_le (show a.length ≤ 8 by omega)]
        rw [ht, List.append_assoc]
        apply DiffLt.append_left
        exact pad_diffLt (by omega) (by simp at hb ⊢; omega) _
      · exact (hd.take_right (show a.length ≤ 8 by omega)).append _ _
    · rw [group_encode_last (show a.length < 8 by omega),
        group_encode_last (show b.length < 8 by omega)]
      rcases lex_cases h with ⟨u, hu, rfl⟩ | hd
      · -- b extends a inside the group: a's pad covers the extension and the rest of b's pad
        have hulen : 1 ≤ u.length := List.length_pos_of_ne_nil hu
        have hsplit : 8 - a.length = u.length + (8 - (a ++ u).length) := by simp at hb ⊢; omega
        rw [hsplit, List.replicate_add]
        simp only [List.append_assoc]
        apply DiffLt.append_left
        rcases eq_replicate_or_diffLt (fun _ => zero_lt_of_ne) u with hz | hz
        · rw [← hz]
          apply DiffLt.append_left
          apply DiffLt.append_left
          apply DiffLt.head
          exact marker_lt (by simp at hb ⊢; omega) (by omega)
        · exact hz.append _ _
      · exact hd.append _ _

end Tikv.Codec
