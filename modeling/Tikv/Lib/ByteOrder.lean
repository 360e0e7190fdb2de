import Tikv.Lib.Lex
import Mathlib

/-!
Numbers as byte strings. `to_be_bytes n v` is the big-endian form of `v` in `n` bytes (what
`write_u64::<BigEndian>` emits for `n = 8`), read back by `from_be`; `from_le` reads the
little-endian form. Big-endian bytes of numbers below `256 ^ n` are ordered as the numbers.
Flipping the top bit of a number, as the memcomparable form of a signed integer does, adds or
takes away that bit (`xor_two_pow_of_lt`).
-/

namespace Tikv.Lib.ByteOrder

open Tikv.Lib.Lex

def to_be_bytes : Nat → Nat → List UInt8
  | 0, _ => []
  | n + 1, v => UInt8.ofNat (v / 256 ^ n) :: to_be_bytes n (v % 256 ^ n)

def from_be : List UInt8 → Nat
  | [] => 0
  | b :: l => b.toNat * 256 ^ l.length + from_be l

def from_le : List UInt8 → Nat
  | [] => 0
  | b :: l => b.toNat + 256 * from_le l

@[simp]
theorem length_to_be_bytes (n v : Nat) : (to_be_bytes n v).length = n := by
  induction n generalizing v with
  | zero => rfl
  | succ n ih => simp [to_be_bytes, ih]

def to_le_bytes : Nat → Nat → List UInt8
  | 0, _ => []
  | n + 1, v => UInt8.ofNat v :: to_le_bytes n (v / 256)

@[simp]
theorem length_to_le_bytes (n v : Nat) : (to_le_bytes n v).length = n := by
  induction n generalizing v with
  | zero => rfl
  | succ n ih => simp [to_le_bytes, ih]

theorem from_le_to_le_bytes (n v : Nat) : from_le (to_le_bytes n v) = v % 256 ^ n := by
  induction n generalizing v with
  | zero => simp [to_le_bytes, from_le, Nat.mod_one]
  | succ n ih =>
    rw [to_le_bytes, from_le, ih, pow_succ, Nat.mul_comm _ 256, Nat.mod_mul]
    simp

theorem from_le_lt (l : List UInt8) : from_le l < 256 ^ l.length := by
  induction l with
  | nil => simp [from_le]
  | cons b l ih =>
    have hb := b.toNat_lt
    simp only [from_le, List.length_cons, pow_succ]
    omega

theorem from_be_to_be_bytes (n v : Nat) : from_be (to_be_bytes n v) = v % 256 ^ n := by
  induction n generalizing v with
  | zero => simp [to_be_bytes, from_be, Nat.mod_one]
  | succ n ih =>
    have hdigit : (UInt8.ofNat (v / 256 ^ n)).toNat = v / 256 ^ n % 256 := by
      simp [UInt8.toNat_ofNat']
    simp only [to_be_bytes, from_be, length_to_be_bytes, ih, Nat.mod_mod, hdigit]
    rw [Nat.mod_pow_succ, Nat.mul_comm (256 ^ n)]
    omega

theorem to_be_bytes_diffLt {n v w : Nat} (hvw : v < w) (hw : w < 256 ^ n) :
    DiffLt (· < ·) (to_be_bytes n v) (to_be_bytes n w) := by
  induction n generalizing v w with
  | zero => simp at hw; omega
  | succ n ih =>
    have hpos : 0 < 256 ^ n := Nat.pow_pos (by decide)
    have hqw : w / 256 ^ n < 256 := by
      rw [Nat.div_lt_iff_lt_mul hpos, ← Nat.pow_succ']
      exact hw
    have hq : v / 256 ^ n ≤ w / 256 ^ n := Nat.div_le_div_right hvw.le
    simp only [to_be_bytes]
    rcases Nat.lt_or_eq_of_le hq with hlt | heq
    · apply DiffLt.head
      rw [UInt8.lt_iff_toNat_lt, UInt8.toNat_ofNat', UInt8.toNat_ofNat',
        Nat.mod_eq_of_lt hqw, Nat.mod_eq_of_lt (by omega)]
      exact hlt
    · rw [heq]
      apply DiffLt.cons
      apply ih _ (Nat.mod_lt _ hpos)
      have hv := Nat.div_add_mod v (256 ^ n)
      have hw' := Nat.div_add_mod w (256 ^ n)
      rw [heq] at hv
      omega

theorem from_le_inj {l l' : List UInt8} (hlen : l.length = l'.length)
    (h : from_le l = from_le l') : l = l' := by
  induction l generalizing l' with
  | nil => exact (List.eq_nil_of_length_eq_zero hlen.symm).symm
  | cons b l ih =>
    obtain ⟨b', l', rfl⟩ : ∃ b' l'', l' = b' :: l'' :=
      List.exists_cons_of_length_eq_add_one hlen.symm
    have hb := b.toNat_lt
    have hb' := b'.toNat_lt
    simp only [from_le] at h
    have hhead : b = b' := UInt8.toNat_inj.mp (by omega)
    have htail : from_le l = from_le l' := by omega
    rw [hhead, ih (by simpa using hlen) htail]

theorem xor_two_pow_of_lt {n k : Nat} (h : n < 2 ^ (k + 1)) :
    n ^^^ 2 ^ k = if n < 2 ^ k then n + 2 ^ k else n - 2 ^ k := by
  have hpos := Nat.two_pow_pos k
  have hmod : (n ^^^ 2 ^ k) % 2 ^ k = n % 2 ^ k := by
    rw [Nat.xor_mod_two_pow, Nat.mod_self, Nat.xor_zero]
  have hdiv : (n ^^^ 2 ^ k) / 2 ^ k = n / 2 ^ k ^^^ 1 := by
    rw [Nat.xor_div_two_pow, Nat.div_self hpos]
  have hq : n / 2 ^ k < 2 := by
    rw [Nat.div_lt_iff_lt_mul hpos, ← Nat.pow_succ']
    exact h
  have hsplit := Nat.div_add_mod (n ^^^ 2 ^ k) (2 ^ k)
  have hsplit' := Nat.div_add_mod n (2 ^ k)
  rw [hdiv, hmod] at hsplit
  rcases Nat.le_one_iff_eq_zero_or_eq_one.mp (Nat.lt_succ_iff.mp hq) with h0 | h1
  · -- the top bit is clear, and the xor sets it
    have hlt : n < 2 ^ k := (Nat.div_eq_zero_iff_lt hpos).mp h0
    rw [h0, show (0 ^^^ 1 : Nat) = 1 from rfl, Nat.mod_eq_of_lt hlt] at hsplit
    rw [if_pos hlt, ← hsplit, Nat.mul_one, Nat.add_comm]
  · -- the top bit is set, and the xor clears it
    have hge : ¬ n < 2 ^ k := fun hlt => by
      rw [Nat.div_eq_of_lt hlt] at h1
      cases h1
    rw [h1, show (1 ^^^ 1 : Nat) = 0 from rfl, Nat.mul_zero, Nat.zero_add] at hsplit
    rw [h1, Nat.mul_one] at hsplit'
    rw [if_neg hge, ← hsplit]
    generalize 2 ^ k = p at *
    omega

end Tikv.Lib.ByteOrder
