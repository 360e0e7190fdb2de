import Mathlib

/-!
LEB128, the variable-length format of unsigned numbers: seven bits a byte, the lowest group
first, the high bit set on every byte but the last. A decoder that reads the bytes by index
sees at position `i` the first byte of the encoding of `n / 128 ^ i`, so its low seven bits
are the next group and its high bit says whether another byte follows.
-/

namespace Tikv.Lib.Varint

def varint (n : Nat) : List UInt8 :=
  if n < 128 then [UInt8.ofNat n] else UInt8.ofNat (n % 128 + 128) :: varint (n / 128)
termination_by n
decreasing_by omega

theorem varint_of_lt {n : Nat} (h : n < 128) : varint n = [UInt8.ofNat n] := by
  rw [varint, if_pos h]

theorem varint_of_le {n : Nat} (h : 128 ≤ n) :
    varint n = UInt8.ofNat (n % 128 + 128) :: varint (n / 128) := by
  rw [varint, if_neg (by omega)]

theorem length_varint_pos (n : Nat) : 0 < (varint n).length := by
  rw [varint]
  split <;> simp

theorem length_varint_eq_one_iff (n : Nat) : (varint n).length = 1 ↔ n < 128 := by
  by_cases h : n < 128
  · simp [varint_of_lt h, h]
  · have := length_varint_pos (n / 128)
    rw [varint_of_le (by omega), List.length_cons]
    omega

theorem length_varint_le {n k : Nat} (hk : 0 < k) (h : n < 128 ^ k) : (varint n).length ≤ k := by
  induction k generalizing n with
  | zero => omega
  | succ k ih =>
    by_cases hn : n < 128
    · simp [varint_of_lt hn]
    · have hk' : 0 < k := by
        rcases Nat.eq_zero_or_pos k with rfl | hk'
        · simp at h; omega
        · exact hk'
      have hdiv : n / 128 < 128 ^ k := by
        rw [Nat.div_lt_iff_lt_mul (by omega), ← Nat.pow_succ]
        exact h
      rw [varint_of_le (by omega), List.length_cons]
      have := ih hk' hdiv
      omega

theorem drop_varint {n i : Nat} (h : i < (varint n).length) :
    (varint n).drop i = varint (n / 128 ^ i) := by
  induction i generalizing n with
  | zero => simp
  | succ i ih =>
    have hn : 128 ≤ n := by
      by_contra hn
      rw [varint_of_lt (by omega)] at h
      simp at h
    rw [varint_of_le hn, List.length_cons] at h
    rw [varint_of_le hn, List.drop_succ_cons, ih (by omega), Nat.div_div_eq_div_mul,
      ← Nat.pow_succ']

theorem toNat_headD_varint (n : Nat) :
    ((varint n).headD 0).toNat = n % 128 + if n < 128 then 0 else 128 := by
  by_cases h : n < 128
  · simp [varint_of_lt h, h, Nat.mod_eq_of_lt (show n < 256 by omega), Nat.mod_eq_of_lt h]
  · rw [varint_of_le (by omega), List.headD_cons, UInt8.toNat_ofNat', if_neg h]
    omega

theorem toNat_getD_varint_append {n i : Nat} (s : List UInt8) (h : i < (varint n).length) :
    ((varint n ++ s).getD i 0).toNat =
      n / 128 ^ i % 128 + if n / 128 ^ i < 128 then 0 else 128 := by
  have hd : (varint n ++ s).drop i = varint (n / 128 ^ i) ++ s := by
    rw [List.drop_append_of_le_length (by omega), drop_varint h]
  obtain ⟨b, bs, hb⟩ := List.exists_cons_of_ne_nil
    (List.ne_nil_of_length_pos (length_varint_pos (n / 128 ^ i)))
  rw [← toNat_headD_varint, List.getD_eq_getElem?_getD, ← List.head?_drop, hd, hb]
  simp

theorem lt_length_varint_iff {n i : Nat} (h : i < (varint n).length) :
    i + 1 < (varint n).length ↔ 128 ≤ n / 128 ^ i := by
  have hl : ((varint n).drop i).length = (varint (n / 128 ^ i)).length := by rw [drop_varint h]
  rw [List.length_drop] at hl
  have := length_varint_eq_one_iff (n / 128 ^ i)
  omega

theorem lt_pow_length_varint (n : Nat) : n < 128 ^ (varint n).length := by
  obtain ⟨i, hi⟩ : ∃ i, (varint n).length = i + 1 :=
    ⟨(varint n).length - 1, by have := length_varint_pos n; omega⟩
  have hlast : n / 128 ^ i < 128 := by
    have := (lt_length_varint_iff (show i < (varint n).length by omega)).not
    omega
  rw [hi, Nat.pow_succ, Nat.mul_comm]
  exact (Nat.div_lt_iff_lt_mul (Nat.pow_pos (by omega))).mp hlast

theorem mod_or_group (n i : Nat) :
    n % 128 ^ i ||| (n / 128 ^ i % 128) <<< (7 * i) = n % 128 ^ (i + 1) := by
  have hp : 128 ^ i = 2 ^ (7 * i) := by rw [Nat.pow_mul]
  have hlt : n % 128 ^ i < 2 ^ (7 * i) := hp ▸ Nat.mod_lt n (Nat.pow_pos (by omega))
  rw [Nat.or_comm, ← Nat.shiftLeft_add_eq_or_of_lt hlt, Nat.shiftLeft_eq, ← hp, Nat.pow_succ,
    Nat.mod_mul, Nat.mul_comm (n / 128 ^ i % 128)]
  omega

end Tikv.Lib.Varint
