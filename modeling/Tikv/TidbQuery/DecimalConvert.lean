import Tikv.TidbQuery.Decimal
import Mathlib

/-!
The conversions between \x60Decimal\x60 and the machine integers (decimal.rs). \x60as_i64\x60 and
\x60as_u64\x60 read the integer words by Horner's rule in \x60i64\x60 or \x60u64\x60 and say whether the
fraction words they drop are zero; \x60From<u64>\x60 writes a number's base-\x6010^9\x60 digits into the
integer words, and \x60From<i64>\x60 converts the magnitude and sets the sign. \x60as_i64\x60 builds the
negated integer part, so that \x60i64::MIN\x60 fits, and catches an overflow of its wrapping
arithmetic by a bound before it multiplies and by the accumulator moving up. An \x60i64\x60 is an
\x60Int\x60 that wraps by \x60Int.bmod\x60, a \x60u64\x60 a \x60Nat\x60 whose overflow the code tests.
-/

namespace Tikv.TidbQuery.Mysql

open Tikv.Lib.Radix (frac num)

inductive Res (α : Type) where
  | Ok (a : α)
  | Truncated (a : α)
  | Overflow (a : α)
  deriving DecidableEq, Repr

def I64_MIN : Int := -9223372036854775808

def I64_MAX : Int := 9223372036854775807

def U64_MAX : Nat := 18446744073709551615

/-- The \x60i64\x60 that a wrapping operation leaves. -/
def wrap_i64 (v : Int) : Int := v.bmod 18446744073709551616

namespace Decimal

/-- The integer-word loop of \x60as_i64\x60: the negated integer part, or \x60none\x60 where it returns
on an overflow. -/
def as_i64_loop (x : Int) : List Nat → Option Int
  | [] => some x
  | w :: ws =>
    let y := x
    let x := wrap_i64 (wrap_i64 (x * WORD_BASE) - w)
    if y < I64_MIN.tdiv WORD_BASE ∨ x > y then none else as_i64_loop x ws

def as_i64 (self : Decimal) : Res Int :=
  let int_word_cnt := word_cnt self.int_cnt
  match as_i64_loop 0 (slice self.word_buf 0 int_word_cnt) with
  | none => if self.negative then .Overflow I64_MIN else .Overflow I64_MAX
  | some x =>
    if !self.negative && x == I64_MIN then .Overflow I64_MAX
    else
      let x := if !self.negative then -x else x
      if (slice self.word_buf int_word_cnt (int_word_cnt + word_cnt self.frac_cnt)).any (· != 0)
      then .Truncated x
      else .Ok x

/-- The integer-word loop of \x60as_u64\x60, with \x60overflowing_mul\x60 and \x60overflowing_add\x60. -/
def as_u64_loop (x : Nat) : List Nat → Option Nat
  | [] => some x
  | w :: ws =>
    if U64_MAX < x * WORD_BASE then none
    else if U64_MAX < x * WORD_BASE + w then none
    else as_u64_loop (x * WORD_BASE + w) ws

def as_u64 (self : Decimal) : Res Nat :=
  if self.negative then .Overflow 0
  else
    let int_cnt := word_cnt self.int_cnt
    match as_u64_loop 0 (slice self.word_buf 0 int_cnt) with
    | none => .Overflow U64_MAX
    | some x =>
      if (slice self.word_buf int_cnt (int_cnt + word_cnt self.frac_cnt)).any (· != 0)
      then .Truncated x
      else .Ok x

def from_u64_word_cnt (x word_idx : Nat) : Nat :=
  if WORD_BASE ≤ x then from_u64_word_cnt (x / WORD_BASE) (word_idx + 1) else word_idx
termination_by x
decreasing_by
  have hB : 0 < WORD_BASE := by decide
  exact Nat.div_lt_self (by omega) (by decide)

def from_u64_fill (buf : List Nat) (x : Nat) : Nat → List Nat
  | 0 => buf
  | word_idx + 1 => from_u64_fill (buf.set word_idx (x % WORD_BASE)) (x / WORD_BASE) word_idx

def from_u64 (u : Nat) : Decimal :=
  let word_idx := from_u64_word_cnt u 1
  let d := new (word_idx * DIGITS_PER_WORD) 0 false
  { d with word_buf := from_u64_fill d.word_buf u word_idx }

/-- \x60From<i64> for Decimal\x60: the magnitude is \x60i.overflowing_neg().0 as u64\x60. -/
def from_i64 (i : Int) : Decimal :=
  let (neg, d) := if i < 0 then (true, from_u64 ((-i) % 18446744073709551616).toNat)
    else (false, from_u64 i.toNat)
  { d with negative := neg }

end Decimal

section Wrap

theorem wrap_i64_of_le {z : Int} (h1 : I64_MIN ≤ z) (h2 : z ≤ I64_MAX) : wrap_i64 z = z := by
  unfold wrap_i64 Int.bmod
  unfold I64_MIN at h1
  unfold I64_MAX at h2
  dsimp only
  split <;> omega

theorem wrap_i64_of_lt_min {z : Int} (h1 : -18446744073709551616 ≤ z) (h2 : z < I64_MIN) :
    wrap_i64 z = z + 18446744073709551616 := by
  unfold wrap_i64 Int.bmod
  unfold I64_MIN at h2
  dsimp only
  split <;> omega

end Wrap

namespace Decimal

theorem two_pow_63 : (2 : Nat) ^ 63 = 9223372036854775808 := by decide

theorem as_i64_loop_num (p ws : List Nat) (hp : num WORD_BASE p ≤ 2 ^ 63)
    (hws : ∀ w ∈ ws, w < WORD_BASE) :
    as_i64_loop (-(num WORD_BASE p : Int)) ws =
      if num WORD_BASE (p ++ ws) ≤ 2 ^ 63 then some (-(num WORD_BASE (p ++ ws) : Int))
      else none := by
  induction ws generalizing p with
  | nil => simp only [as_i64_loop, List.append_nil, if_pos hp]
  | cons w ws ih =>
    have hw : w < 1000000000 := hws w List.mem_cons_self
    have hv : num WORD_BASE (p ++ [w]) = num WORD_BASE p * 1000000000 + w :=
      Tikv.Lib.Radix.num_concat p w
    have hmono : num WORD_BASE p * 1000000000 + w ≤ num WORD_BASE (p ++ w :: ws) := by
      rw [← hv, show p ++ w :: ws = (p ++ [w]) ++ ws by simp]
      exact Tikv.Lib.Radix.le_num_append _ _ (by decide)
    have hdiv : I64_MIN.tdiv 1000000000 = -9223372036 := by decide
    have hcast : ((WORD_BASE : Nat) : Int) = 1000000000 := rfl
    rw [two_pow_63] at hp ⊢
    simp only [as_i64_loop, hcast, hdiv]
    by_cases hbig : 9223372037 ≤ num WORD_BASE p
    · -- the bound before the multiplication catches it
      rw [if_pos (Or.inl (by omega)), if_neg (by omega)]
    · have hmul : wrap_i64 (-(num WORD_BASE p : Int) * 1000000000) =
          -(num WORD_BASE p : Int) * 1000000000 :=
        wrap_i64_of_le (by unfold I64_MIN; omega) (by unfold I64_MAX; omega)
      rw [hmul]
      by_cases hfit : num WORD_BASE p * 1000000000 + w ≤ 9223372036854775808
      · have hsub : wrap_i64 (-(num WORD_BASE p : Int) * 1000000000 - w) =
            -(num WORD_BASE (p ++ [w]) : Int) := by
          rw [wrap_i64_of_le (by unfold I64_MIN; omega) (by unfold I64_MAX; omega), hv]
          push_cast
          ring
        have hnext := ih (p ++ [w]) (by rw [two_pow_63, hv]; omega)
          (fun x hx => hws x (List.mem_cons_of_mem _ hx))
        rw [two_pow_63, List.append_assoc, List.singleton_append] at hnext
        rw [hsub, if_neg (by omega), hnext]
      · -- the product fits but the subtraction wraps, and the accumulator moves up
        have hsub : wrap_i64 (-(num WORD_BASE p : Int) * 1000000000 - w) =
            -(num WORD_BASE p : Int) * 1000000000 - w + 18446744073709551616 :=
          wrap_i64_of_lt_min (by omega) (by unfold I64_MIN; omega)
        rw [hsub, if_pos (Or.inr (by omega)), if_neg (by omega)]

theorem as_u64_loop_num (p ws : List Nat) (hp : num WORD_BASE p ≤ U64_MAX) :
    as_u64_loop (num WORD_BASE p) ws =
      if num WORD_BASE (p ++ ws) ≤ U64_MAX then some (num WORD_BASE (p ++ ws)) else none := by
  induction ws generalizing p with
  | nil => simp only [as_u64_loop, List.append_nil, if_pos hp]
  | cons w ws ih =>
    have hv : num WORD_BASE (p ++ [w]) = num WORD_BASE p * WORD_BASE + w :=
      Tikv.Lib.Radix.num_concat p w
    have hmono : num WORD_BASE p * WORD_BASE + w ≤ num WORD_BASE (p ++ w :: ws) := by
      rw [← hv, show p ++ w :: ws = (p ++ [w]) ++ ws by simp]
      exact Tikv.Lib.Radix.le_num_append _ _ (by decide)
    unfold as_u64_loop
    by_cases hmul : U64_MAX < num WORD_BASE p * WORD_BASE
    · rw [if_pos hmul, if_neg (by omega)]
    · by_cases hadd : U64_MAX < num WORD_BASE p * WORD_BASE + w
      · rw [if_neg hmul, if_pos hadd, if_neg (by omega)]
      · have hnext := ih (p ++ [w]) (by omega)
        rw [List.append_assoc, List.singleton_append, hv] at hnext
        rw [if_neg hmul, if_neg hadd, hnext]

def trunc_value (d : Decimal) : Int :=
  if d.negative then -(⌊d.magnitude⌋₊ : Int) else ⌊d.magnitude⌋₊

theorem trunc_value_eq_value_iff (d : Decimal) :
    (d.trunc_value : ℚ) = d.value ↔ d.magnitude = ⌊d.magnitude⌋₊ := by
  unfold trunc_value value
  cases d.negative <;> simp [eq_comm]

section Wf

variable {d : Decimal} (hd : d.Wf)
include hd

theorem Wf.magnitude_eq_num_add_frac :
    d.magnitude = num WORD_BASE (slice d.word_buf 0 (word_cnt d.int_cnt)) +
      frac WORD_BASE
        (slice d.word_buf (word_cnt d.int_cnt) (word_cnt d.int_cnt + word_cnt d.frac_cnt)) := by
  have hlen : (slice d.word_buf 0 (word_cnt d.int_cnt)).length = word_cnt d.int_cnt := by
    simp [slice, hd.int_le_length]
  have hpow : (WORD_BASE : ℚ) ^ word_cnt d.int_cnt ≠ 0 := pow_ne_zero _ (by decide)
  have hint : (WORD_BASE : ℚ) ^ word_cnt d.int_cnt *
      frac WORD_BASE (slice d.word_buf 0 (word_cnt d.int_cnt)) =
        num WORD_BASE (slice d.word_buf 0 (word_cnt d.int_cnt)) := by
    calc _ = (WORD_BASE : ℚ) ^ (slice d.word_buf 0 (word_cnt d.int_cnt)).length *
          frac WORD_BASE (slice d.word_buf 0 (word_cnt d.int_cnt)) := by rw [hlen]
      _ = _ := Tikv.Lib.Radix.pow_length_mul_frac (by decide) _
  rw [magnitude, slice_append (Nat.zero_le _) (Nat.le_add_right _ _),
    Tikv.Lib.Radix.frac_append, hlen, mul_add, hint, mul_div_cancel₀ _ hpow]

theorem Wf.floor_magnitude :
    ⌊d.magnitude⌋₊ = num WORD_BASE (slice d.word_buf 0 (word_cnt d.int_cnt)) := by
  have hlt : frac (K := ℚ) WORD_BASE
      (slice d.word_buf (word_cnt d.int_cnt) (word_cnt d.int_cnt + word_cnt d.frac_cnt)) < 1 :=
    Tikv.Lib.Radix.frac_lt_one (by decide) fun w hw => hd.word_lt w (mem_of_mem_slice hw)
  have hnn := Tikv.Lib.Radix.frac_nonneg (K := ℚ) (b := WORD_BASE)
    (slice d.word_buf (word_cnt d.int_cnt) (word_cnt d.int_cnt + word_cnt d.frac_cnt))
  rw [Nat.floor_eq_iff (magnitude_nonneg d), hd.magnitude_eq_num_add_frac]
  constructor <;> linarith

theorem Wf.magnitude_eq_floor_iff :
    d.magnitude = ⌊d.magnitude⌋₊ ↔
      (slice d.word_buf (word_cnt d.int_cnt)
        (word_cnt d.int_cnt + word_cnt d.frac_cnt)).any (· != 0) = false := by
  rw [hd.floor_magnitude, hd.magnitude_eq_num_add_frac, add_eq_left,
    Tikv.Lib.Radix.frac_eq_zero_iff (by decide)]
  simp

end Wf

section Spec

variable {d : Decimal}

/-- \x60as_u64\x60 returns the integer part, \x60Overflow\x60 for a negative decimal or one past
\x60u64::MAX\x60, and \x60Truncated\x60 when fraction words are dropped. -/
theorem as_u64_eq_floor (hd : d.Wf) :
    d.as_u64 =
      if d.negative then .Overflow 0
      else if U64_MAX < ⌊d.magnitude⌋₊ then .Overflow U64_MAX
      else if d.magnitude = ⌊d.magnitude⌋₊ then .Ok ⌊d.magnitude⌋₊
      else .Truncated ⌊d.magnitude⌋₊ := by
  have hloop := as_u64_loop_num [] (slice d.word_buf 0 (word_cnt d.int_cnt)) (by decide)
  rw [Tikv.Lib.Radix.num_nil, List.nil_append] at hloop
  simp only [hd.magnitude_eq_floor_iff]
  simp only [hd.floor_magnitude]
  unfold as_u64
  dsimp only
  rw [hloop]
  cases d.negative
  · by_cases hN : num WORD_BASE (slice d.word_buf 0 (word_cnt d.int_cnt)) ≤ U64_MAX
    · simp only [if_pos hN, if_neg (Nat.not_lt.mpr hN)]
      cases (slice d.word_buf (word_cnt d.int_cnt)
        (word_cnt d.int_cnt + word_cnt d.frac_cnt)).any (· != 0) <;> rfl
    · simp only [if_neg hN, if_pos (Nat.lt_of_not_le hN)]
  · rfl

theorem as_u64_eq_floor_twelve_and_half :
    (⟨2, 1, 1, false, [12, 500000000, 0, 0, 0, 0, 0, 0, 0]⟩ : Decimal).Wf ∧
      (⟨2, 1, 1, false, [12, 500000000, 0, 0, 0, 0, 0, 0, 0]⟩ : Decimal).as_u64 =
        if (⟨2, 1, 1, false, [12, 500000000, 0, 0, 0, 0, 0, 0, 0]⟩ : Decimal).negative then
          .Overflow 0
        else if U64_MAX < ⌊(⟨2, 1, 1, false, [12, 500000000, 0, 0, 0, 0, 0, 0, 0]⟩ :
            Decimal).magnitude⌋₊ then .Overflow U64_MAX
        else if (⟨2, 1, 1, false, [12, 500000000, 0, 0, 0, 0, 0, 0, 0]⟩ : Decimal).magnitude =
            ⌊(⟨2, 1, 1, false, [12, 500000000, 0, 0, 0, 0, 0, 0, 0]⟩ : Decimal).magnitude⌋₊ then
          .Ok ⌊(⟨2, 1, 1, false, [12, 500000000, 0, 0, 0, 0, 0, 0, 0]⟩ : Decimal).magnitude⌋₊
        else .Truncated
          ⌊(⟨2, 1, 1, false, [12, 500000000, 0, 0, 0, 0, 0, 0, 0]⟩ : Decimal).magnitude⌋₊ :=
  have hwf : (⟨2, 1, 1, false, [12, 500000000, 0, 0, 0, 0, 0, 0, 0]⟩ : Decimal).Wf :=
    ⟨rfl, by decide, by decide, by decide, by decide⟩
  ⟨hwf, as_u64_eq_floor hwf⟩

example : (⟨2, 1, 1, false, [12, 500000000, 0, 0, 0, 0, 0, 0, 0]⟩ : Decimal).as_u64 =
    .Truncated 12 := by decide

/-- \x60as_i64\x60 returns the value truncated toward zero; past either bound of \x60i64\x60 it
returns \x60Overflow\x60 with that bound, and \x60Truncated\x60 when the value is not whole. -/
theorem as_i64_eq_trunc_value (hd : d.Wf) :
    d.as_i64 =
      if d.trunc_value < I64_MIN then .Overflow I64_MIN
      else if I64_MAX < d.trunc_value then .Overflow I64_MAX
      else if (d.trunc_value : ℚ) = d.value then .Ok d.trunc_value
      else .Truncated d.trunc_value := by
  have hloop := as_i64_loop_num [] (slice d.word_buf 0 (word_cnt d.int_cnt)) (by decide)
    (fun w hw => hd.word_lt w (mem_of_mem_slice hw))
  rw [Tikv.Lib.Radix.num_nil, Nat.cast_zero, neg_zero, List.nil_append, two_pow_63] at hloop
  simp only [trunc_value_eq_value_iff, hd.magnitude_eq_floor_iff]
  unfold trunc_value
  simp only [hd.floor_magnitude]
  unfold as_i64
  dsimp only
  rw [hloop]
  generalize num WORD_BASE (slice d.word_buf 0 (word_cnt d.int_cnt)) = n
  generalize (slice d.word_buf (word_cnt d.int_cnt)
    (word_cnt d.int_cnt + word_cnt d.frac_cnt)).any (· != 0) = a
  unfold I64_MIN I64_MAX
  by_cases hn : n ≤ 9223372036854775808
  · rw [if_pos hn]
    cases d.negative
    · -- \x60-n\x60 is negated back, and \x602^63\x60 is the one magnitude that does not fit
      by_cases hmax : n = 9223372036854775808
      · subst hmax
        rfl
      · have hne : (-(n : Int) == -9223372036854775808) = false := by
          rw [beq_eq_false_iff_ne]
          omega
        simp only [Bool.not_false, Bool.true_and, hne, Bool.false_eq_true, if_false, neg_neg,
          if_neg (show ¬ (n : Int) < -9223372036854775808 by omega),
          if_neg (show ¬ (9223372036854775807 : Int) < n by omega)]
        cases a <;> rfl
    · simp only [Bool.not_true, Bool.false_and, Bool.false_eq_true, if_false, if_true,
        if_neg (show ¬ -(n : Int) < -9223372036854775808 by omega),
        if_neg (show ¬ (9223372036854775807 : Int) < -(n : Int) by omega)]
      cases a <;> rfl
  · rw [if_neg hn]
    cases d.negative
    · simp only [Bool.false_eq_true, if_false,
        if_neg (show ¬ (n : Int) < -9223372036854775808 by omega),
        if_pos (show (9223372036854775807 : Int) < n by omega)]
    · simp only [if_true, if_pos (show -(n : Int) < -9223372036854775808 by omega)]


theorem as_i64_eq_trunc_value_minus_twelve_and_half :
    (⟨2, 1, 1, true, [12, 500000000, 0, 0, 0, 0, 0, 0, 0]⟩ : Decimal).Wf ∧
      (⟨2, 1, 1, true, [12, 500000000, 0, 0, 0, 0, 0, 0, 0]⟩ : Decimal).as_i64 =
        if (⟨2, 1, 1, true, [12, 500000000, 0, 0, 0, 0, 0, 0, 0]⟩ : Decimal).trunc_value <
            I64_MIN then .Overflow I64_MIN
        else if I64_MAX <
            (⟨2, 1, 1, true, [12, 500000000, 0, 0, 0, 0, 0, 0, 0]⟩ : Decimal).trunc_value then
          .Overflow I64_MAX
        else if ((⟨2, 1, 1, true, [12, 500000000, 0, 0, 0, 0, 0, 0, 0]⟩ : Decimal).trunc_value :
            ℚ) = (⟨2, 1, 1, true, [12, 500000000, 0, 0, 0, 0, 0, 0, 0]⟩ : Decimal).value then
          .Ok (⟨2, 1, 1, true, [12, 500000000, 0, 0, 0, 0, 0, 0, 0]⟩ : Decimal).trunc_value
        else .Truncated
          (⟨2, 1, 1, true, [12, 500000000, 0, 0, 0, 0, 0, 0, 0]⟩ : Decimal).trunc_value :=
  have hwf : (⟨2, 1, 1, true, [12, 500000000, 0, 0, 0, 0, 0, 0, 0]⟩ : Decimal).Wf :=
    ⟨rfl, by decide, by decide, by decide, by decide⟩
  ⟨hwf, as_i64_eq_trunc_value hwf⟩

/-- \x602^63\x60 does not fit, and its negation is \x60i64::MIN\x60. -/
example : (⟨19, 0, 0, false, [9, 223372036, 854775808, 0, 0, 0, 0, 0, 0]⟩ : Decimal).as_i64 =
      .Overflow I64_MAX ∧
    (⟨19, 0, 0, true, [9, 223372036, 854775808, 0, 0, 0, 0, 0, 0]⟩ : Decimal).as_i64 =
      .Ok I64_MIN := by decide

end Spec

section FromU64

theorem getD_set_ne {buf : List Nat} {i j v : Nat} (h : i ≠ j) :
    (buf.set j v).getD i 0 = buf.getD i 0 := by
  simp [List.getD_eq_getElem?_getD, Ne.symm h]

theorem getD_set_self {buf : List Nat} {j v : Nat} (h : j < buf.length) :
    (buf.set j v).getD j 0 = v := by
  simp [List.getD_eq_getElem?_getD, h]

theorem from_u64_word_cnt_spec (x k : Nat) :
    ∃ c, from_u64_word_cnt x k = k + c ∧ x < WORD_BASE ^ (c + 1) ∧
      (c = 0 ∨ WORD_BASE ^ c ≤ x) := by
  fun_induction from_u64_word_cnt x k with
  | case1 x k hx ih =>
    obtain ⟨c, hc, hlt, hge⟩ := ih
    refine ⟨c + 1, by rw [hc]; omega, ?_, Or.inr ?_⟩
    · rw [pow_succ]
      exact (Nat.div_lt_iff_lt_mul (by decide)).mp hlt
    · rcases hge with rfl | hge
      · rw [zero_add, pow_one]
        exact hx
      · rw [pow_succ]
        exact (Nat.le_div_iff_mul_le (by decide)).mp hge
  | case2 x k hx => exact ⟨0, rfl, by rw [zero_add, pow_one]; omega, Or.inl rfl⟩

theorem from_u64_word_cnt_le {u : Nat} (hu : u ≤ U64_MAX) :
    1 ≤ from_u64_word_cnt u 1 ∧ from_u64_word_cnt u 1 ≤ 3 ∧
      u < WORD_BASE ^ from_u64_word_cnt u 1 := by
  obtain ⟨c, hc, hlt, hge⟩ := from_u64_word_cnt_spec u 1
  have hc3 : c < 3 := by
    by_contra h
    have hpow : WORD_BASE ^ 3 ≤ WORD_BASE ^ c := Nat.pow_le_pow_right (by decide) (by omega)
    rcases hge with rfl | hge
    · omega
    · have h27 : U64_MAX < WORD_BASE ^ 3 := by decide
      omega
  rw [hc, Nat.add_comm 1 c]
  exact ⟨by omega, by omega, hlt⟩

theorem from_u64_fill_spec (buf : List Nat) (x k : Nat) (hk : k ≤ buf.length) :
    (from_u64_fill buf x k).length = buf.length ∧
    (∀ i, k ≤ i → (from_u64_fill buf x k).getD i 0 = buf.getD i 0) ∧
    (∀ i < k, (from_u64_fill buf x k).getD i 0 < WORD_BASE) ∧
    num WORD_BASE (slice (from_u64_fill buf x k) 0 k) = x % WORD_BASE ^ k := by
  induction k generalizing buf x with
  | zero =>
    refine ⟨rfl, fun _ _ => rfl, fun i hi => absurd hi (Nat.not_lt_zero i), ?_⟩
    rw [slice_self, Tikv.Lib.Radix.num_nil, pow_zero, Nat.mod_one]
  | succ k ih =>
    obtain ⟨hlen, hkeep, hlt, hnum⟩ :=
      ih (buf.set k (x % WORD_BASE)) (x / WORD_BASE) (by rw [List.length_set]; omega)
    have hlen' : (from_u64_fill buf x (k + 1)).length = buf.length := hlen.trans (List.length_set ..)
    have hk' : (from_u64_fill buf x (k + 1)).getD k 0 = x % WORD_BASE :=
      (hkeep k (Nat.le_refl k)).trans (getD_set_self (by omega))
    refine ⟨hlen', fun i hi => ?_, fun i hi => ?_, ?_⟩
    · exact (hkeep i (by omega)).trans (getD_set_ne (by omega))
    · rcases Nat.lt_succ_iff_lt_or_eq.mp hi with hi | rfl
      · exact hlt i hi
      · rw [hk']
        exact Nat.mod_lt _ (by decide)
    · -- the word at \x60k\x60 is the lowest digit, under the \x60k\x60 words of \x60x / 10^9\x60
      rw [slice_concat (Nat.zero_le k) (by omega), Tikv.Lib.Radix.num_concat]
      change num WORD_BASE (slice (from_u64_fill (buf.set k (x % WORD_BASE)) (x / WORD_BASE) k) 0 k) *
        WORD_BASE + (from_u64_fill buf x (k + 1)).getD k 0 = _
      rw [hnum, hk', pow_succ', Nat.mod_mul]
      ring

theorem word_cnt_mul {k : Nat} (hk : k ≤ WORD_BUF_LEN) : word_cnt (k * DIGITS_PER_WORD) = k := by
  unfold word_cnt
  unfold WORD_BUF_LEN at hk
  unfold DIGITS_PER_WORD WORD_BUF_LEN
  split <;> omega

@[simp] theorem from_u64_int_cnt (u : Nat) :
    (from_u64 u).int_cnt = from_u64_word_cnt u 1 * DIGITS_PER_WORD := rfl

@[simp] theorem from_u64_frac_cnt (u : Nat) : (from_u64 u).frac_cnt = 0 := rfl

@[simp] theorem from_u64_negative (u : Nat) : (from_u64 u).negative = false := rfl

theorem from_u64_word_buf (u : Nat) :
    (from_u64 u).word_buf =
      from_u64_fill (List.replicate WORD_BUF_LEN 0) u (from_u64_word_cnt u 1) := rfl

variable {u : Nat} (hu : u ≤ U64_MAX)
include hu

theorem word_cnt_from_u64 : word_cnt (from_u64 u).int_cnt = from_u64_word_cnt u 1 := by
  have := from_u64_word_cnt_le hu
  rw [from_u64_int_cnt, word_cnt_mul (by unfold WORD_BUF_LEN; omega)]

theorem from_u64_wf : (from_u64 u).Wf := by
  obtain ⟨-, h3, -⟩ := from_u64_word_cnt_le hu
  obtain ⟨hlen, hkeep, hwords, -⟩ := from_u64_fill_spec (List.replicate WORD_BUF_LEN 0) u
    (from_u64_word_cnt u 1) (by rw [List.length_replicate]; unfold WORD_BUF_LEN; omega)
  refine ⟨?_, ?_, ?_, ?_, ?_⟩
  · rw [from_u64_word_buf, hlen, List.length_replicate]
  · -- the words written hold remainders, and the others are still zero
    intro w hw
    rw [from_u64_word_buf] at hw
    obtain ⟨i, hi, rfl⟩ := List.getElem_of_mem hw
    rw [← List.getD_eq_getElem _ 0 hi]
    by_cases hik : i < from_u64_word_cnt u 1
    · exact hwords i hik
    · rw [hkeep i (by omega), List.getD_eq_getElem?_getD,
        List.getElem?_getD_replicate_default_eq]
      decide
  · rw [word_cnt_from_u64 hu, from_u64_frac_cnt]
    unfold WORD_BUF_LEN
    change from_u64_word_cnt u 1 + 0 ≤ 9
    omega
  · intro h
    exact absurd (Nat.mul_mod_left _ _) h
  · intro h
    exact absurd rfl h

theorem from_u64_magnitude : (from_u64 u).magnitude = u := by
  obtain ⟨-, h3, hlt⟩ := from_u64_word_cnt_le hu
  obtain ⟨-, -, -, hnum⟩ := from_u64_fill_spec (List.replicate WORD_BUF_LEN 0) u
    (from_u64_word_cnt u 1) (by rw [List.length_replicate]; unfold WORD_BUF_LEN; omega)
  have h0 : word_cnt (from_u64 u).frac_cnt = 0 := by
    rw [from_u64_frac_cnt]
    decide
  rw [(from_u64_wf hu).magnitude_eq_num_add_frac, h0, Nat.add_zero, slice_self,
    Tikv.Lib.Radix.frac_nil, add_zero, word_cnt_from_u64 hu, from_u64_word_buf, hnum,
    Nat.mod_eq_of_lt hlt]

end FromU64

section RoundTrip

/-- \x60From<u64>\x60 builds a well-formed decimal of the number's value, and \x60as_u64\x60 reads
it back exactly. -/
theorem from_u64_as_u64 (u : Nat) (hu : u ≤ U64_MAX) :
    (from_u64 u).Wf ∧ (from_u64 u).value = u ∧ (from_u64 u).as_u64 = .Ok u := by
  have hwf := from_u64_wf hu
  have hmag := from_u64_magnitude hu
  refine ⟨hwf, by rw [value, hmag, from_u64_negative]; simp, ?_⟩
  rw [as_u64_eq_floor hwf, hmag, Nat.floor_natCast, from_u64_negative]
  simp [Nat.not_lt.mpr hu]

theorem from_u64_as_u64_max :
    U64_MAX ≤ U64_MAX ∧ ((from_u64 U64_MAX).Wf ∧ (from_u64 U64_MAX).value = U64_MAX ∧
      (from_u64 U64_MAX).as_u64 = .Ok U64_MAX) :=
  ⟨le_rfl, from_u64_as_u64 U64_MAX le_rfl⟩

theorem wf_with_negative {d : Decimal} (hd : d.Wf) (b : Bool) : ({ d with negative := b }).Wf :=
  ⟨hd.length_word_buf, hd.word_lt, hd.word_cnt_le, hd.lead_lt, hd.tail_zero⟩

section FromI64

variable {i : Int} (h1 : I64_MIN ≤ i)
include h1

theorem from_i64_eq_natAbs :
    from_i64 i = { from_u64 i.natAbs with negative := decide (i < 0) } := by
  unfold I64_MIN at h1
  unfold from_i64
  by_cases hi : i < 0
  · have habs : ((-i) % 18446744073709551616).toNat = i.natAbs := by omega
    simp only [if_pos hi, habs, decide_eq_true hi]
  · have habs : i.toNat = i.natAbs := by omega
    simp only [if_neg hi, habs, decide_eq_false hi]

/-- \x60From<i64>\x60 builds a well-formed decimal of the number's value that is not a negative
zero, and \x60as_i64\x60 reads it back exactly. -/
theorem from_i64_as_i64 (h2 : i ≤ I64_MAX) :
    (from_i64 i).Wf ∧ ((from_i64 i).negative = true → (from_i64 i).is_zero = false) ∧
      (from_i64 i).value = i ∧ (from_i64 i).as_i64 = .Ok i := by
  have hu : i.natAbs ≤ U64_MAX := by
    unfold I64_MIN at h1
    unfold I64_MAX at h2
    unfold U64_MAX
    omega
  have hwf0 := from_u64_wf hu
  have hmag0 := from_u64_magnitude hu
  rw [from_i64_eq_natAbs h1]
  generalize from_u64 i.natAbs = d0 at hwf0 hmag0 ⊢
  dsimp only
  have hwf := wf_with_negative hwf0 (decide (i < 0))
  have hmag : ({ d0 with negative := decide (i < 0) }).magnitude = (i.natAbs : ℚ) := hmag0
  have hcast : ((i.natAbs : Nat) : ℚ) = ((i.natAbs : Int) : ℚ) := (Int.cast_natCast _).symm
  have hval : ({ d0 with negative := decide (i < 0) }).value = (i : ℚ) := by
    rw [value, hmag, hcast]
    by_cases hi : i < 0
    · rw [show (i.natAbs : Int) = -i by omega, decide_eq_true hi, if_pos rfl]
      push_cast
      ring
    · rw [show (i.natAbs : Int) = i by omega, decide_eq_false hi, if_neg Bool.false_ne_true,
        one_mul]
  have htrunc : ({ d0 with negative := decide (i < 0) }).trunc_value = i := by
    rw [trunc_value, hmag, Nat.floor_natCast]
    by_cases hi : i < 0
    · rw [decide_eq_true hi, if_pos rfl]
      omega
    · rw [decide_eq_false hi, if_neg Bool.false_ne_true]
      omega
  refine ⟨hwf, fun hneg => ?_, hval, ?_⟩
  · -- a negative input has a magnitude of at least one
    have hi : i < 0 := of_decide_eq_true hneg
    rw [Bool.eq_false_iff, ne_eq, is_zero_iff, hmag]
    exact_mod_cast Int.natAbs_ne_zero.mpr (by omega)
  · rw [as_i64_eq_trunc_value hwf, htrunc, hval, if_neg (not_lt.mpr h1), if_neg (not_lt.mpr h2),
      if_pos rfl]
end FromI64

theorem from_i64_as_i64_min :
    I64_MIN ≤ I64_MIN ∧ I64_MIN ≤ I64_MAX ∧ ((from_i64 I64_MIN).Wf ∧
      ((from_i64 I64_MIN).negative = true → (from_i64 I64_MIN).is_zero = false) ∧
      (from_i64 I64_MIN).value = I64_MIN ∧ (from_i64 I64_MIN).as_i64 = .Ok I64_MIN) :=
  ⟨le_rfl, by decide, from_i64_as_i64 le_rfl (by decide)⟩

end RoundTrip

end Decimal

end Tikv.TidbQuery.Mysql
