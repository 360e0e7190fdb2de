import Tikv.Lib.Radix
import Mathlib

/-!
The word buffer of \x60Decimal\x60 (components/tidb_query_datatype/src/codec/mysql/decimal.rs)
and the comparison and hash that read it. A decimal keeps its digits in nine \x60u32\x60 words of
nine decimal digits: first the words of the \x60int_cnt\x60 integer digits, the leading one
partial, then those of the \x60frac_cnt\x60 fraction digits, the last one padded with zeros on the
right. Its value is the words read in base \x6010^9\x60 with the point after the integer words.

\x60calc_sub_carry\x60, which \x60Ord\x60 uses, skips the zero words that lead the integer part,
compares how many integer words are left, and when they agree trims the zero words at the
end and walks both buffers while their words agree. \x60Hash\x60 feeds the hasher the same
trimmed words. A word is read by \x60getD\x60: the indices stay inside the nine words whenever the
integer and fraction words fit in them, as they do for a well-formed decimal; an index past
them would panic in Rust. \x60usize\x60 arithmetic wraps in TiKV's builds, so the end index
\x60(stop + frac_word_cnt - 1) as isize\x60 of a decimal without words is \x60-1\x60, as an \x60Int\x60.
-/

namespace Tikv.TidbQuery.Mysql

open Tikv.Lib.Radix (frac)

def WORD_BUF_LEN : Nat := 9

def DIGITS_PER_WORD : Nat := 9

def WORD_BASE : Nat := 1000000000

def word_cnt (len : Nat) : Nat :=
  if 0 < len ∧ DIGITS_PER_WORD * WORD_BUF_LEN < len then WORD_BUF_LEN + 1
  else (len + DIGITS_PER_WORD - 1) / DIGITS_PER_WORD

structure Decimal where
  int_cnt : Nat
  frac_cnt : Nat
  result_frac_cnt : Nat
  negative : Bool
  word_buf : List Nat
  deriving Repr

def slice (buf : List Nat) (i j : Nat) : List Nat := (buf.take j).drop i

def skip_zero_words (buf : List Nat) (stop idx : Nat) : Nat :=
  if idx < stop ∧ buf.getD idx 0 = 0 then skip_zero_words buf stop (idx + 1) else idx
termination_by stop - idx

def trim_zero_words (buf : List Nat) (start : Nat) (end_ : Int) : Int :=
  if (start : Int) ≤ end_ ∧ buf.getD end_.toNat 0 = 0 then trim_zero_words buf start (end_ - 1)
  else end_
termination_by (end_ + 1 - start).toNat

def skip_equal_words (lbuf rbuf : List Nat) (l_end r_end : Int) (l_idx r_idx : Nat) :
    Nat × Nat :=
  if (l_idx : Int) ≤ l_end ∧ (r_idx : Int) ≤ r_end ∧ lbuf.getD l_idx 0 = rbuf.getD r_idx 0 then
    skip_equal_words lbuf rbuf l_end r_end (l_idx + 1) (r_idx + 1)
  else (l_idx, r_idx)
termination_by (l_end + 1 - l_idx).toNat

namespace Decimal

def new (int_cnt frac_cnt : Nat) (negative : Bool) : Decimal :=
  ⟨int_cnt, frac_cnt, frac_cnt, negative, List.replicate WORD_BUF_LEN 0⟩

def zero : Decimal := new 1 0 false

def is_zero (self : Decimal) : Bool :=
  let len := word_cnt self.int_cnt + word_cnt self.frac_cnt
  (slice self.word_buf 0 len).all (· == 0)

end Decimal

abbrev SubTmp := Nat × Nat × Nat

def calc_sub_carry (lhs rhs : Decimal) : Option Int × Nat × SubTmp × SubTmp :=
  let l_int_word_cnt := word_cnt lhs.int_cnt
  let l_frac_word_cnt := word_cnt lhs.frac_cnt
  let r_int_word_cnt := word_cnt rhs.int_cnt
  let r_frac_word_cnt := word_cnt rhs.frac_cnt
  let frac_word_to := max l_frac_word_cnt r_frac_word_cnt
  let l_stop := l_int_word_cnt
  let l_start := skip_zero_words lhs.word_buf l_stop 0
  let l_int_word_cnt := l_stop - l_start
  let r_stop := r_int_word_cnt
  let r_start := skip_zero_words rhs.word_buf r_stop 0
  let r_int_word_cnt := r_stop - r_start
  let (carry, l_frac_word_cnt, r_frac_word_cnt) : Option Int × Nat × Nat :=
    match compare r_int_word_cnt l_int_word_cnt with
    | .gt => (some 1, l_frac_word_cnt, r_frac_word_cnt)
    | .eq =>
      let l_end := trim_zero_words lhs.word_buf l_start ((l_stop + l_frac_word_cnt : Nat) - 1)
      let r_end := trim_zero_words rhs.word_buf r_start ((r_stop + r_frac_word_cnt : Nat) - 1)
      let l_frac_word_cnt := (max 0 (l_end + 1 - l_stop)).toNat
      let r_frac_word_cnt := (max 0 (r_end + 1 - r_stop)).toNat
      let (l_idx, r_idx) := skip_equal_words lhs.word_buf rhs.word_buf l_end r_end l_start r_start
      let carry : Option Int :=
        if (l_idx : Int) ≤ l_end then
          if (r_idx : Int) ≤ r_end ∧ rhs.word_buf.getD r_idx 0 > lhs.word_buf.getD l_idx 0 then
            some 1
          else some 0
        else if (r_idx : Int) ≤ r_end then some 1
        else none
      (carry, l_frac_word_cnt, r_frac_word_cnt)
    | .lt => (some 0, l_frac_word_cnt, r_frac_word_cnt)
  (carry, frac_word_to, (l_start, l_int_word_cnt, l_frac_word_cnt),
    (r_start, r_int_word_cnt, r_frac_word_cnt))

namespace Decimal

def cmp (self right : Decimal) : Ordering :=
  if self.negative = right.negative then
    match (calc_sub_carry self right).1 with
    | none => .eq
    | some carry => if decide (carry > 0) = self.negative then .gt else .lt
  else if self.negative then .lt
  else .gt

def eq (self right : Decimal) : Bool := self.cmp right == .eq

/-- What a \x60Hasher\x60 is fed: a \x60usize\x60, a \x60[u32]\x60 slice (its length, then its words)
and a \x60bool\x60. -/
structure Hasher (σ : Type) where
  write_usize : σ → Nat → σ
  write_u32_slice : σ → List Nat → σ
  write_bool : σ → Bool → σ

def hash {σ : Type} (self : Decimal) (h : Hasher σ) (state : σ) : σ :=
  let int_word_cnt := word_cnt self.int_cnt
  let frac_word_cnt := word_cnt self.frac_cnt
  let stop := int_word_cnt
  let start := skip_zero_words self.word_buf stop 0
  let int_word_cnt := stop - start
  let state := h.write_usize state int_word_cnt
  let end_ := trim_zero_words self.word_buf start ((stop + frac_word_cnt : Nat) - 1)
  let state := h.write_u32_slice state (slice self.word_buf start (end_ + 1).toNat)
  -- -0 should be not negative.
  let negative := self.negative && decide ((start : Int) ≤ end_)
  h.write_bool state negative

def magnitude (d : Decimal) : ℚ :=
  (WORD_BASE : ℚ) ^ word_cnt d.int_cnt *
    frac WORD_BASE (slice d.word_buf 0 (word_cnt d.int_cnt + word_cnt d.frac_cnt))

/-- The number a decimal stands for. -/
def value (d : Decimal) : ℚ := (if d.negative then -1 else 1) * d.magnitude

/-- A well-formed decimal: nine words, each below \x6010^9\x60, the integer and fraction words
inside them, the leading integer word within its digits and the last fraction word zero past
\x60frac_cnt\x60. -/
structure Wf (d : Decimal) : Prop where
  length_word_buf : d.word_buf.length = WORD_BUF_LEN
  word_lt : ∀ w ∈ d.word_buf, w < WORD_BASE
  word_cnt_le : word_cnt d.int_cnt + word_cnt d.frac_cnt ≤ WORD_BUF_LEN
  lead_lt : d.int_cnt % DIGITS_PER_WORD ≠ 0 →
    d.word_buf.getD 0 0 < 10 ^ (d.int_cnt % DIGITS_PER_WORD)
  tail_zero : d.frac_cnt % DIGITS_PER_WORD ≠ 0 →
    d.word_buf.getD (word_cnt d.int_cnt + word_cnt d.frac_cnt - 1) 0 %
      10 ^ (DIGITS_PER_WORD - d.frac_cnt % DIGITS_PER_WORD) = 0

end Decimal

section Slice

variable {buf : List Nat}

@[simp] theorem slice_self (buf : List Nat) (i : Nat) : slice buf i i = [] := by
  simp [slice]

theorem slice_append {i j k : Nat} (hij : i ≤ j) (hjk : j ≤ k) :
    slice buf i k = slice buf i j ++ slice buf j k := by
  have hk : k - i = (j - i) + (k - j) := by omega
  rw [slice, slice, slice, List.drop_take, List.drop_take, List.drop_take, hk, List.take_add,
    List.drop_drop, Nat.add_sub_cancel' hij]

theorem slice_eq_cons {i j : Nat} (hij : i < j) (hj : j ≤ buf.length) :
    slice buf i j = buf.getD i 0 :: slice buf (i + 1) j := by
  rw [slice_append (Nat.le_succ i) hij, List.getD_eq_getElem _ _ (by omega)]
  have hone : slice buf i (i + 1) = [buf[i]] := by
    rw [slice, List.drop_take, Nat.add_sub_cancel_left, List.drop_eq_getElem_cons (by omega)]
    rfl
  rw [hone, List.singleton_append]

theorem slice_concat {i j : Nat} (hij : i ≤ j) (hj : j < buf.length) :
    slice buf i (j + 1) = slice buf i j ++ [buf.getD j 0] := by
  rw [slice_append hij (Nat.le_succ j), slice_eq_cons (Nat.lt_succ_self j) hj, slice_self]

theorem slice_of_le {i j : Nat} (h : j ≤ i) : slice buf i j = [] :=
  List.drop_eq_nil_of_le (by rw [List.length_take]; omega)

theorem mem_of_mem_slice {i j x : Nat} (hx : x ∈ slice buf i j) : x ∈ buf :=
  List.mem_of_mem_take (List.mem_of_mem_drop hx)

theorem getD_mem_slice {i j e : Nat} (hie : i ≤ e) (hej : e < j) (hj : j ≤ buf.length) :
    buf.getD e 0 ∈ slice buf i j := by
  rw [slice_append hie (Nat.le_of_lt hej), slice_eq_cons hej hj]
  exact List.mem_append_right _ List.mem_cons_self

end Slice

section Loops

variable {buf lbuf rbuf : List Nat}

theorem skip_zero_words_spec {stop idx : Nat} (hidx : idx ≤ stop) (hstop : stop ≤ buf.length) :
    idx ≤ skip_zero_words buf stop idx ∧ skip_zero_words buf stop idx ≤ stop ∧
    slice buf idx stop = List.replicate (skip_zero_words buf stop idx - idx) 0 ++
      slice buf (skip_zero_words buf stop idx) stop ∧
    (skip_zero_words buf stop idx < stop → buf.getD (skip_zero_words buf stop idx) 0 ≠ 0) := by
  fun_induction skip_zero_words buf stop idx with
  | case1 idx h ih =>
    obtain ⟨hle, hs, hslice, hne⟩ := ih (by omega)
    refine ⟨by omega, hs, ?_, hne⟩
    rw [slice_eq_cons h.1 hstop, h.2, hslice,
      show skip_zero_words buf stop (idx + 1) - idx = skip_zero_words buf stop (idx + 1) - (idx + 1) + 1
        by omega, List.replicate_succ, List.cons_append]
  | case2 idx h =>
    refine ⟨Nat.le_refl idx, hidx, by simp, fun hlt hz => h ⟨hlt, hz⟩⟩

theorem trim_zero_words_spec {start : Nat} {e : Int} (hs : (start : Int) ≤ e + 1)
    (he : e < buf.length) :
    (start : Int) ≤ trim_zero_words buf start e + 1 ∧ trim_zero_words buf start e ≤ e ∧
    slice buf start (e + 1).toNat = slice buf start (trim_zero_words buf start e + 1).toNat ++
      List.replicate (e - trim_zero_words buf start e).toNat 0 ∧
    ((start : Int) ≤ trim_zero_words buf start e →
      buf.getD (trim_zero_words buf start e).toNat 0 ≠ 0) := by
  fun_induction trim_zero_words buf start e with
  | case1 e h ih =>
    obtain ⟨hle, hs', hslice, hne⟩ := ih (by omega) (by omega)
    refine ⟨hle, by omega, ?_, hne⟩
    have hconcat := @slice_concat buf start e.toNat (by omega) (by omega)
    rw [show (e + 1).toNat = e.toNat + 1 by omega, hconcat, h.2,
      show e.toNat = (e - 1 + 1).toNat by omega, hslice, List.append_assoc,
      show (e - trim_zero_words buf start (e - 1)).toNat =
        (e - 1 - trim_zero_words buf start (e - 1)).toNat + 1 by omega,
      List.replicate_succ']
  | case2 e h =>
    refine ⟨hs, le_refl e, by simp, fun hle hz => h ⟨hle, hz⟩⟩

theorem skip_equal_words_spec {l_end r_end : Int} {l0 r0 : Nat}
    (hl : (l0 : Int) ≤ l_end + 1) (hr : (r0 : Int) ≤ r_end + 1)
    (hlb : l_end < lbuf.length) (hrb : r_end < rbuf.length) :
    ∃ k, skip_equal_words lbuf rbuf l_end r_end l0 r0 = (l0 + k, r0 + k) ∧
      ((l0 + k : Nat) : Int) ≤ l_end + 1 ∧ ((r0 + k : Nat) : Int) ≤ r_end + 1 ∧
      slice lbuf l0 (l0 + k) = slice rbuf r0 (r0 + k) ∧
      ¬(((l0 + k : Nat) : Int) ≤ l_end ∧ ((r0 + k : Nat) : Int) ≤ r_end ∧
        lbuf.getD (l0 + k) 0 = rbuf.getD (r0 + k) 0) := by
  fun_induction skip_equal_words lbuf rbuf l_end r_end l0 r0 with
  | case1 l0 r0 h ih =>
    obtain ⟨k, heq, hlk, hrk, hslice, hstop⟩ := ih (by omega) (by omega)
    have hl' : l0 + 1 + k = l0 + (k + 1) := by omega
    have hr' : r0 + 1 + k = r0 + (k + 1) := by omega
    refine ⟨k + 1, by rw [heq, hl', hr'], by rw [← hl']; exact hlk, by rw [← hr']; exact hrk,
      ?_, by rw [← hl', ← hr']; exact hstop⟩
    have hlen_l : l0 + (k + 1) ≤ lbuf.length := by omega
    have hlen_r : r0 + (k + 1) ≤ rbuf.length := by omega
    rw [@slice_eq_cons lbuf l0 _ (by omega) hlen_l, @slice_eq_cons rbuf r0 _ (by omega) hlen_r,
      h.2.2, ← hl', ← hr', hslice]
  | case2 l0 r0 h =>
    exact ⟨0, rfl, hl, hr, by simp, h⟩

end Loops

namespace Decimal

def lead (d : Decimal) : Nat := skip_zero_words d.word_buf (word_cnt d.int_cnt) 0

def last (d : Decimal) : Int :=
  trim_zero_words d.word_buf d.lead ((word_cnt d.int_cnt + word_cnt d.frac_cnt : Nat) - 1)

def digits (d : Decimal) : List Nat := slice d.word_buf d.lead (d.last + 1).toNat

def carry_of : Ordering → Option Int
  | .lt => some 1
  | .eq => none
  | .gt => some 0

theorem calc_sub_carry_fst_eq (lhs rhs : Decimal) :
    (calc_sub_carry lhs rhs).1 =
      match compare (word_cnt rhs.int_cnt - rhs.lead) (word_cnt lhs.int_cnt - lhs.lead) with
      | .gt => some 1
      | .eq =>
        match skip_equal_words lhs.word_buf rhs.word_buf lhs.last rhs.last lhs.lead rhs.lead with
        | (l_idx, r_idx) =>
          if (l_idx : Int) ≤ lhs.last then
            if (r_idx : Int) ≤ rhs.last ∧ rhs.word_buf.getD r_idx 0 > lhs.word_buf.getD l_idx 0 then
              some 1
            else some 0
          else if (r_idx : Int) ≤ rhs.last then some 1
          else none
      | .lt => some 0 := by
  unfold calc_sub_carry
  dsimp only
  rw [show skip_zero_words lhs.word_buf (word_cnt lhs.int_cnt) 0 = lhs.lead from rfl,
    show skip_zero_words rhs.word_buf (word_cnt rhs.int_cnt) 0 = rhs.lead from rfl]
  cases compare (word_cnt rhs.int_cnt - rhs.lead) (word_cnt lhs.int_cnt - lhs.lead) <;> rfl

section Wf

variable {d : Decimal} (hd : d.Wf)
include hd

theorem Wf.int_le_length : word_cnt d.int_cnt ≤ d.word_buf.length := by
  have := hd.word_cnt_le
  rw [hd.length_word_buf]
  omega

theorem Wf.used_le_length : word_cnt d.int_cnt + word_cnt d.frac_cnt ≤ d.word_buf.length := by
  rw [hd.length_word_buf]
  exact hd.word_cnt_le

theorem Wf.lead_spec :
    d.lead ≤ word_cnt d.int_cnt ∧
    slice d.word_buf 0 (word_cnt d.int_cnt) =
      List.replicate d.lead 0 ++ slice d.word_buf d.lead (word_cnt d.int_cnt) ∧
    (d.lead < word_cnt d.int_cnt → d.word_buf.getD d.lead 0 ≠ 0) := by
  obtain ⟨-, hle, hslice, hne⟩ := skip_zero_words_spec (Nat.zero_le _) hd.int_le_length
  rw [Nat.sub_zero] at hslice
  exact ⟨hle, hslice, hne⟩

theorem Wf.last_spec :
    (d.lead : Int) ≤ d.last + 1 ∧ d.last < d.word_buf.length ∧
    slice d.word_buf d.lead (word_cnt d.int_cnt + word_cnt d.frac_cnt) =
      d.digits ++ List.replicate
        (((word_cnt d.int_cnt + word_cnt d.frac_cnt : Nat) : Int) - 1 - d.last).toNat 0 ∧
    ((d.lead : Int) ≤ d.last → d.word_buf.getD d.last.toNat 0 ≠ 0) := by
  have hlead := hd.lead_spec.1
  have hused := hd.used_le_length
  obtain ⟨hs, hle, hslice, hne⟩ := @trim_zero_words_spec d.word_buf d.lead
    (((word_cnt d.int_cnt + word_cnt d.frac_cnt : Nat) : Int) - 1) (by omega) (by omega)
  refine ⟨hs, by unfold last; omega, ?_, hne⟩
  rw [show (((word_cnt d.int_cnt + word_cnt d.frac_cnt : Nat) : Int) - 1 + 1).toNat =
    word_cnt d.int_cnt + word_cnt d.frac_cnt by omega] at hslice
  exact hslice

theorem Wf.digits_lt : ∀ w ∈ d.digits, w < WORD_BASE :=
  fun w hw => hd.word_lt w (mem_of_mem_slice hw)

theorem Wf.slice_used :
    slice d.word_buf 0 (word_cnt d.int_cnt + word_cnt d.frac_cnt) =
      List.replicate d.lead 0 ++ (d.digits ++ List.replicate
        (((word_cnt d.int_cnt + word_cnt d.frac_cnt : Nat) : Int) - 1 - d.last).toNat 0) := by
  obtain ⟨hlead, hzeros, -⟩ := hd.lead_spec
  rw [slice_append (Nat.zero_le _) (Nat.le_add_right _ _), hzeros, List.append_assoc,
    ← slice_append hlead (Nat.le_add_right _ _), hd.last_spec.2.2.1]

theorem Wf.magnitude_eq :
    d.magnitude = (WORD_BASE : ℚ) ^ (word_cnt d.int_cnt - d.lead) * frac WORD_BASE d.digits := by
  have hB : 0 < WORD_BASE := by decide
  have hlead := hd.lead_spec.1
  have hpow : (WORD_BASE : ℚ) ^ word_cnt d.int_cnt =
      (WORD_BASE : ℚ) ^ (word_cnt d.int_cnt - d.lead) * (WORD_BASE : ℚ) ^ d.lead := by
    rw [← pow_add, Nat.sub_add_cancel hlead]
  have hB' : (WORD_BASE : ℚ) ^ d.lead ≠ 0 := pow_ne_zero _ (by exact_mod_cast hB.ne')
  rw [magnitude, hd.slice_used, Tikv.Lib.Radix.frac_replicate_zero_append,
    Tikv.Lib.Radix.frac_append_replicate_zero, hpow, mul_assoc, mul_div_cancel₀ _ hB']

theorem Wf.digits_eq_nil_iff : d.digits = [] ↔ d.last < d.lead := by
  obtain ⟨hs, hlen, -⟩ := hd.last_spec
  rw [digits, slice, List.drop_eq_nil_iff, List.length_take]
  omega

theorem Wf.digits_cons_of_lead_lt (hlt : d.lead < word_cnt d.int_cnt) :
    ∃ w ws, d.digits = w :: ws ∧ 0 < w := by
  obtain ⟨-, -, hne⟩ := hd.lead_spec
  obtain ⟨hs, hlen, hslice, -⟩ := hd.last_spec
  have hused := hd.used_le_length
  have hle : (d.lead : Int) ≤ d.last := by
    by_contra h
    have hnil : d.digits = [] := (hd.digits_eq_nil_iff).mpr (by omega)
    have hmem : d.word_buf.getD d.lead 0 ∈
        slice d.word_buf d.lead (word_cnt d.int_cnt + word_cnt d.frac_cnt) :=
      getD_mem_slice (Nat.le_refl _) (by omega) hused
    rw [hslice, hnil, List.nil_append] at hmem
    exact hne hlt (List.eq_of_mem_replicate hmem)
  refine ⟨_, _, slice_eq_cons (by omega) (by omega), Nat.pos_of_ne_zero (hne hlt)⟩

end Wf

end Decimal

namespace Decimal

theorem compare_neg_neg (x y : ℚ) : compare (-x) (-y) = compare y x := by
  rcases lt_trichotomy x y with h | rfl | h
  · rw [compare_gt_iff_gt.mpr (neg_lt_neg h), compare_gt_iff_gt.mpr h]
  · rw [compare_eq_iff_eq.mpr rfl, compare_eq_iff_eq.mpr rfl]
  · rw [compare_lt_iff_lt.mpr (neg_lt_neg h), compare_lt_iff_lt.mpr h]

theorem magnitude_nonneg (d : Decimal) : 0 ≤ d.magnitude :=
  mul_nonneg (pow_nonneg (Nat.cast_nonneg _) _) (Tikv.Lib.Radix.frac_nonneg _)

theorem is_zero_iff (d : Decimal) : d.is_zero = true ↔ d.magnitude = 0 := by
  have hB : 0 < WORD_BASE := by decide
  unfold is_zero magnitude
  rw [mul_eq_zero, Tikv.Lib.Radix.frac_eq_zero_iff hB]
  simp only [List.all_eq_true, beq_iff_eq]
  have hpow : (WORD_BASE : ℚ) ^ word_cnt d.int_cnt ≠ 0 := pow_ne_zero _ (by exact_mod_cast hB.ne')
  simp [hpow]

theorem carry_of_walk {lbuf rbuf : List Nat} (hlw : ∀ w ∈ lbuf, w < WORD_BASE)
    (hrw : ∀ w ∈ rbuf, w < WORD_BASE) {l_end r_end : Int} {l0 r0 k : Nat}
    (hlb : l_end < lbuf.length) (hrb : r_end < rbuf.length)
    (hlz : (l0 : Int) ≤ l_end → lbuf.getD l_end.toNat 0 ≠ 0)
    (hrz : (r0 : Int) ≤ r_end → rbuf.getD r_end.toNat 0 ≠ 0)
    (hlk : ((l0 + k : Nat) : Int) ≤ l_end + 1) (hrk : ((r0 + k : Nat) : Int) ≤ r_end + 1)
    (hslice : slice lbuf l0 (l0 + k) = slice rbuf r0 (r0 + k))
    (hstop : ¬(((l0 + k : Nat) : Int) ≤ l_end ∧ ((r0 + k : Nat) : Int) ≤ r_end ∧
      lbuf.getD (l0 + k) 0 = rbuf.getD (r0 + k) 0)) :
    (if ((l0 + k : Nat) : Int) ≤ l_end then
        if ((r0 + k : Nat) : Int) ≤ r_end ∧ rbuf.getD (r0 + k) 0 > lbuf.getD (l0 + k) 0 then some 1
        else some 0
      else if ((r0 + k : Nat) : Int) ≤ r_end then some 1
      else none) =
    carry_of (compare (frac (K := ℚ) WORD_BASE (slice lbuf l0 (l_end + 1).toNat))
      (frac WORD_BASE (slice rbuf r0 (r_end + 1).toNat))) := by
  have hB : 0 < WORD_BASE := by decide
  have hl_tail : ∀ i, ∀ w ∈ slice lbuf i (l_end + 1).toNat, w < WORD_BASE :=
    fun _ w hw => hlw w (mem_of_mem_slice hw)
  have hr_tail : ∀ j, ∀ w ∈ slice rbuf j (r_end + 1).toNat, w < WORD_BASE :=
    fun _ w hw => hrw w (mem_of_mem_slice hw)
  -- a buffer with digits left holds its last, non-zero word
  have hl_pos : ((l0 + k : Nat) : Int) ≤ l_end →
      0 < frac (K := ℚ) WORD_BASE (slice lbuf (l0 + k) (l_end + 1).toNat) := fun hi =>
    Tikv.Lib.Radix.frac_pos hB ⟨_, getD_mem_slice (by omega) (by omega) (by omega),
      Nat.pos_of_ne_zero (hlz (by omega))⟩
  have hr_pos : ((r0 + k : Nat) : Int) ≤ r_end →
      0 < frac (K := ℚ) WORD_BASE (slice rbuf (r0 + k) (r_end + 1).toNat) := fun hj =>
    Tikv.Lib.Radix.frac_pos hB ⟨_, getD_mem_slice (by omega) (by omega) (by omega),
      Nat.pos_of_ne_zero (hrz (by omega))⟩
  rw [slice_append (Nat.le_add_right l0 k) (by omega), slice_append (Nat.le_add_right r0 k) (by omega),
    hslice, Tikv.Lib.Radix.compare_frac_append hB]
  by_cases hi : ((l0 + k : Nat) : Int) ≤ l_end
  · rw [if_pos hi]
    by_cases hj : ((r0 + k : Nat) : Int) ≤ r_end ∧ rbuf.getD (r0 + k) 0 > lbuf.getD (l0 + k) 0
    · rw [if_pos hj, @slice_eq_cons lbuf (l0 + k) _ (by omega) (by omega),
        @slice_eq_cons rbuf (r0 + k) _ (by omega) (by omega),
        compare_lt_iff_lt.mpr (Tikv.Lib.Radix.frac_lt_of_head_lt hB hj.2 (hl_tail _) _)]
      rfl
    · rw [if_neg hj]
      by_cases hj' : ((r0 + k : Nat) : Int) ≤ r_end
      · -- the words differ there, and the left one is the larger
        have hlt : rbuf.getD (r0 + k) 0 < lbuf.getD (l0 + k) 0 := by
          have hne : lbuf.getD (l0 + k) 0 ≠ rbuf.getD (r0 + k) 0 := fun h => hstop ⟨hi, hj', h⟩
          have hle : ¬rbuf.getD (r0 + k) 0 > lbuf.getD (l0 + k) 0 := fun h => hj ⟨hj', h⟩
          omega
        rw [@slice_eq_cons lbuf (l0 + k) _ (by omega) (by omega),
          @slice_eq_cons rbuf (r0 + k) _ (by omega) (by omega),
          compare_gt_iff_gt.mpr (Tikv.Lib.Radix.frac_lt_of_head_lt hB hlt (hr_tail _) _)]
        rfl
      · rw [@slice_of_le rbuf (r0 + k) _ (by omega), Tikv.Lib.Radix.frac_nil,
          compare_gt_iff_gt.mpr (hl_pos hi)]
        rfl
  · rw [if_neg hi, @slice_of_le lbuf (l0 + k) _ (by omega), Tikv.Lib.Radix.frac_nil]
    by_cases hj' : ((r0 + k : Nat) : Int) ≤ r_end
    · rw [if_pos hj', compare_lt_iff_lt.mpr (hr_pos hj')]
      rfl
    · rw [if_neg hj', @slice_of_le rbuf (r0 + k) _ (by omega), Tikv.Lib.Radix.frac_nil,
        compare_eq_iff_eq.mpr rfl]
      rfl

section Compare

variable {lhs rhs : Decimal} (hl : lhs.Wf) (hr : rhs.Wf)
include hl hr

theorem magnitude_lt_of_int_lt
    (h : word_cnt lhs.int_cnt - lhs.lead < word_cnt rhs.int_cnt - rhs.lead) :
    lhs.magnitude < rhs.magnitude := by
  have hB : 0 < WORD_BASE := by decide
  have hB0 : (0 : ℚ) < WORD_BASE := by exact_mod_cast hB
  obtain ⟨w, ws, hdigits, hw⟩ := hr.digits_cons_of_lead_lt (by omega)
  have hlt : frac (K := ℚ) WORD_BASE lhs.digits < 1 := Tikv.Lib.Radix.frac_lt_one hB hl.digits_lt
  have hge : 1 / (WORD_BASE : ℚ) ≤ frac WORD_BASE rhs.digits := by
    rw [hdigits]
    exact Tikv.Lib.Radix.inv_le_frac_of_head_pos hw ws
  obtain ⟨m, hm⟩ : ∃ m, word_cnt rhs.int_cnt - rhs.lead = m + 1 := ⟨_, (Nat.succ_pred_eq_of_pos (by omega)).symm⟩
  rw [hl.magnitude_eq, hr.magnitude_eq, hm]
  calc (WORD_BASE : ℚ) ^ (word_cnt lhs.int_cnt - lhs.lead) * frac WORD_BASE lhs.digits
      < (WORD_BASE : ℚ) ^ (word_cnt lhs.int_cnt - lhs.lead) :=
        mul_lt_of_lt_one_right (pow_pos hB0 _) hlt
    _ ≤ (WORD_BASE : ℚ) ^ m := pow_le_pow_right₀ (by exact_mod_cast hB) (by omega)
    _ = (WORD_BASE : ℚ) ^ (m + 1) * (1 / WORD_BASE) := by
        rw [pow_succ, mul_assoc, mul_one_div_cancel hB0.ne', mul_one]
    _ ≤ (WORD_BASE : ℚ) ^ (m + 1) * frac WORD_BASE rhs.digits :=
        mul_le_mul_of_nonneg_left hge (pow_nonneg hB0.le _)

theorem compare_magnitude_of_int_eq
    (h : word_cnt lhs.int_cnt - lhs.lead = word_cnt rhs.int_cnt - rhs.lead) :
    compare lhs.magnitude rhs.magnitude =
      compare (frac (K := ℚ) WORD_BASE lhs.digits) (frac WORD_BASE rhs.digits) := by
  have hs : (0 : ℚ) < (WORD_BASE : ℚ) ^ (word_cnt lhs.int_cnt - lhs.lead) :=
    pow_pos (by exact_mod_cast (show 0 < WORD_BASE by decide)) _
  rw [hl.magnitude_eq, hr.magnitude_eq, ← h, ← cmp_eq_compare, ← cmp_eq_compare]
  exact (strictMono_mul_left_of_pos hs).cmp_map_eq _ _

theorem calc_sub_carry_fst :
    (calc_sub_carry lhs rhs).1 = carry_of (compare lhs.magnitude rhs.magnitude) := by
  rw [calc_sub_carry_fst_eq]
  rcases lt_trichotomy (word_cnt lhs.int_cnt - lhs.lead) (word_cnt rhs.int_cnt - rhs.lead)
    with h | h | h
  · rw [compare_gt_iff_gt.mpr h, compare_lt_iff_lt.mpr (magnitude_lt_of_int_lt hl hr h)]
    rfl
  · rw [compare_eq_iff_eq.mpr h.symm, compare_magnitude_of_int_eq hl hr h]
    obtain ⟨hsl, hlen_l, -, hzl⟩ := hl.last_spec
    obtain ⟨hsr, hlen_r, -, hzr⟩ := hr.last_spec
    obtain ⟨k, hk, hlk, hrk, hslice, hstop⟩ := skip_equal_words_spec hsl hsr hlen_l hlen_r
    rw [hk]
    exact carry_of_walk hl.word_lt hr.word_lt hlen_l hlen_r hzl hzr hlk hrk hslice hstop
  · rw [compare_lt_iff_lt.mpr h, compare_gt_iff_gt.mpr (magnitude_lt_of_int_lt hr hl h)]
    rfl

theorem digits_eq_of_calc_sub_carry_eq_none (h : (calc_sub_carry lhs rhs).1 = none) :
    word_cnt lhs.int_cnt - lhs.lead = word_cnt rhs.int_cnt - rhs.lead ∧
      lhs.digits = rhs.digits := by
  rw [calc_sub_carry_fst_eq] at h
  rcases lt_trichotomy (word_cnt lhs.int_cnt - lhs.lead) (word_cnt rhs.int_cnt - rhs.lead)
    with hlt | heq | hgt
  · rw [compare_gt_iff_gt.mpr hlt] at h
    cases h
  · refine ⟨heq, ?_⟩
    rw [compare_eq_iff_eq.mpr heq.symm] at h
    obtain ⟨hsl, hlen_l, -⟩ := hl.last_spec
    obtain ⟨hsr, hlen_r, -⟩ := hr.last_spec
    obtain ⟨k, hk, hlk, hrk, hslice, -⟩ := skip_equal_words_spec hsl hsr hlen_l hlen_r
    rw [hk] at h
    dsimp only at h
    -- neither buffer has words left after the walk
    have hi : ¬((lhs.lead + k : Nat) : Int) ≤ lhs.last := fun hi => by
      rw [if_pos hi] at h
      split at h <;> cases h
    have hj : ¬((rhs.lead + k : Nat) : Int) ≤ rhs.last := fun hj => by
      rw [if_neg hi, if_pos hj] at h
      cases h
    rw [digits, digits, show (lhs.last + 1).toNat = lhs.lead + k by omega,
      show (rhs.last + 1).toNat = rhs.lead + k by omega, hslice]
  · rw [compare_lt_iff_lt.mpr hgt] at h
    cases h

end Compare

end Decimal

namespace Decimal

theorem magnitude_pos_of_negative {d : Decimal} (h0 : d.negative = true → d.is_zero = false)
    (hneg : d.negative = true) : 0 < d.magnitude := by
  refine lt_of_le_of_ne d.magnitude_nonneg fun h => ?_
  have hzero := (is_zero_iff d).mpr h.symm
  rw [h0 hneg] at hzero
  cases hzero

theorem cmp_eq_compare_value {a b : Decimal} (ha : a.Wf) (hb : b.Wf)
    (ha0 : a.negative = true → a.is_zero = false) (hb0 : b.negative = true → b.is_zero = false) :
    a.cmp b = compare a.value b.value := by
  unfold cmp value
  cases hna : a.negative <;> cases hnb : b.negative
  · rw [if_pos rfl, calc_sub_carry_fst ha hb]
    simp only [Bool.false_eq_true, if_false, one_mul]
    rcases lt_trichotomy a.magnitude b.magnitude with h | h | h
    · rw [compare_lt_iff_lt.mpr h]
      rfl
    · rw [compare_eq_iff_eq.mpr h]
      rfl
    · rw [compare_gt_iff_gt.mpr h]
      rfl
  · -- only the right one is negative, and it is not zero
    have hpos := magnitude_pos_of_negative hb0 hnb
    rw [if_neg Bool.false_ne_true, if_neg Bool.false_ne_true, if_pos rfl, if_neg Bool.false_ne_true,
      one_mul, neg_one_mul,
      compare_gt_iff_gt.mpr (lt_of_lt_of_le (neg_lt_zero.mpr hpos) a.magnitude_nonneg)]
  · have hpos := magnitude_pos_of_negative ha0 hna
    rw [if_neg (by decide), if_pos rfl, if_pos rfl, if_neg Bool.false_ne_true, one_mul,
      neg_one_mul,
      compare_lt_iff_lt.mpr (lt_of_lt_of_le (neg_lt_zero.mpr hpos) b.magnitude_nonneg)]
  · -- both negative: the larger magnitude is the smaller value
    rw [if_pos rfl, calc_sub_carry_fst ha hb]
    simp only [if_true, neg_one_mul, compare_neg_neg]
    rcases lt_trichotomy a.magnitude b.magnitude with h | h | h
    · rw [compare_lt_iff_lt.mpr h, compare_gt_iff_gt.mpr h]
      rfl
    · rw [compare_eq_iff_eq.mpr h, compare_eq_iff_eq.mpr h.symm]
      rfl
    · rw [compare_gt_iff_gt.mpr h, compare_lt_iff_lt.mpr h]
      rfl

theorem hash_eq (d : Decimal) {σ : Type} (hasher : Hasher σ) (state : σ) :
    d.hash hasher state = hasher.write_bool
      (hasher.write_u32_slice (hasher.write_usize state (word_cnt d.int_cnt - d.lead)) d.digits)
      (d.negative && decide ((d.lead : Int) ≤ d.last)) := rfl

theorem hash_eq_of_eq {a b : Decimal} (ha : a.Wf) (hb : b.Wf) (h : a.eq b = true)
    {σ : Type} (hasher : Hasher σ) (state : σ) : a.hash hasher state = b.hash hasher state := by
  have hcmp : a.cmp b = .eq := by simpa [eq] using h
  unfold cmp at hcmp
  split_ifs at hcmp with hsign
  · -- one sign, so the carry is none
    have hnone : (calc_sub_carry a b).1 = none := by
      split at hcmp
      · assumption
      · split_ifs at hcmp
    obtain ⟨hn, hd⟩ := digits_eq_of_calc_sub_carry_eq_none ha hb hnone
    have hlast : decide ((a.lead : Int) ≤ a.last) = decide ((b.lead : Int) ≤ b.last) := by
      rw [decide_eq_decide, ← not_lt, ← not_lt, ← ha.digits_eq_nil_iff, ← hb.digits_eq_nil_iff, hd]
    rw [hash_eq, hash_eq, hn, hd, hsign, hlast]

end Decimal

structure WfDecimal where
  val : Decimal
  wf : val.Wf
  not_negative_zero : val.negative = true → val.is_zero = false

/-- The order and the hash of decimals follow their values: \x60cmp\x60 compares the values, so it
is a total order, \x60==\x60 holds exactly of equal values, and equal decimals hash alike, whatever
zero words lead or end their buffers. -/
theorem decimal_cmp_hash_follow_value (a b c : WfDecimal) :
    a.val.cmp b.val = compare a.val.value b.val.value ∧
    b.val.cmp a.val = (a.val.cmp b.val).swap ∧
    (a.val.cmp b.val ≠ .gt → b.val.cmp c.val ≠ .gt → a.val.cmp c.val ≠ .gt) ∧
    (a.val.eq b.val = true ↔ a.val.value = b.val.value) ∧
    (a.val.eq b.val = true →
      ∀ {σ : Type} (hasher : Decimal.Hasher σ) (state : σ),
        a.val.hash hasher state = b.val.hash hasher state) := by
  have hab := Decimal.cmp_eq_compare_value a.wf b.wf a.not_negative_zero b.not_negative_zero
  have hba := Decimal.cmp_eq_compare_value b.wf a.wf b.not_negative_zero a.not_negative_zero
  have hbc := Decimal.cmp_eq_compare_value b.wf c.wf b.not_negative_zero c.not_negative_zero
  have hac := Decimal.cmp_eq_compare_value a.wf c.wf a.not_negative_zero c.not_negative_zero
  refine ⟨hab, ?_, ?_, ?_, fun heq _ => Decimal.hash_eq_of_eq a.wf b.wf heq⟩
  · rw [hba, hab, ← cmp_eq_compare, ← cmp_eq_compare, cmp_swap]
  · rw [hab, hbc, hac, compare_le_iff_le, compare_le_iff_le, compare_le_iff_le]
    exact le_trans
  · rw [Decimal.eq, beq_iff_eq, hab, compare_eq_iff_eq]

example : (⟨1, 1, 1, false, [1, 500000000, 0, 0, 0, 0, 0, 0, 0]⟩ : Decimal).cmp
    ⟨10, 2, 2, false, [0, 1, 500000000, 0, 0, 0, 0, 0, 0]⟩ = .eq := by decide +kernel

end Tikv.TidbQuery.Mysql
