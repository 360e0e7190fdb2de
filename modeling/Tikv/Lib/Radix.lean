import Mathlib

/-!
Numbers written in a base `b`, most significant digit first: the list `[d₀, d₁, …, dₖ]` read
as a whole number (`num`) or as the fraction `0.d₀d₁…dₖ` (`frac`). Zero digits may be added at the end, and taken off the front at the
price of a power of the base. With every digit below the base, two fractions compare as their
digit lists do at the first position where they differ, and a list whose digits have run out
is below one that still has a non-zero digit.
-/

namespace Tikv.Lib.Radix

def num (b : ℕ) (ds : List ℕ) : ℕ := ds.foldl (fun acc d => acc * b + d) 0

section Num

variable {b : ℕ}

theorem foldl_horner (acc : ℕ) (ds : List ℕ) :
    ds.foldl (fun acc d => acc * b + d) acc = acc * b ^ ds.length + num b ds := by
  induction ds generalizing acc with
  | nil => simp [num]
  | cons d ds ih =>
    have hd : num b (d :: ds) = d * b ^ ds.length + num b ds := by
      rw [num, List.foldl_cons, ih, Nat.zero_mul, Nat.zero_add]
    rw [List.foldl_cons, ih, hd, List.length_cons, pow_succ]
    ring

@[simp] theorem num_nil : num b [] = 0 := rfl

theorem num_cons (d : ℕ) (ds : List ℕ) : num b (d :: ds) = d * b ^ ds.length + num b ds := by
  rw [num, List.foldl_cons, foldl_horner, Nat.zero_mul, Nat.zero_add]

theorem num_append (p x : List ℕ) : num b (p ++ x) = num b p * b ^ x.length + num b x := by
  rw [num, List.foldl_append, foldl_horner]
  rfl

theorem num_concat (p : List ℕ) (d : ℕ) : num b (p ++ [d]) = num b p * b + d := by
  rw [num_append, List.length_singleton, pow_one, num_cons, List.length_nil, pow_zero,
    Nat.mul_one, num_nil, Nat.add_zero]

theorem le_num_append (p x : List ℕ) (hb : 0 < b) : num b p ≤ num b (p ++ x) := by
  rw [num_append]
  exact le_trans (Nat.le_mul_of_pos_right _ (Nat.pow_pos hb)) (Nat.le_add_right _ _)

end Num

variable {K : Type*} [Field K]

def frac (b : ℕ) : List ℕ → K
  | [] => 0
  | d :: ds => (d + frac b ds) / b

variable {b : ℕ}

@[simp] theorem frac_nil : frac (K := K) b [] = 0 := rfl

@[simp] theorem frac_cons (d : ℕ) (ds : List ℕ) :
    frac (K := K) b (d :: ds) = (d + frac b ds) / b := rfl

@[simp] theorem frac_replicate_zero (k : ℕ) : frac (K := K) b (List.replicate k 0) = 0 := by
  induction k with
  | zero => rfl
  | succ k ih => rw [List.replicate_succ, frac_cons, ih, Nat.cast_zero, add_zero, zero_div]

theorem frac_append (p x : List ℕ) :
    frac (K := K) b (p ++ x) = frac b p + frac b x / (b : K) ^ p.length := by
  induction p with
  | nil => simp
  | cons d p ih =>
    rw [List.cons_append, frac_cons, frac_cons, ih, List.length_cons, pow_succ, ← add_assoc,
      add_div, div_div]

theorem frac_replicate_zero_append (k : ℕ) (x : List ℕ) :
    frac (K := K) b (List.replicate k 0 ++ x) = frac b x / (b : K) ^ k := by
  rw [frac_append, frac_replicate_zero, zero_add, List.length_replicate]

theorem frac_append_replicate_zero (x : List ℕ) (k : ℕ) :
    frac (K := K) b (x ++ List.replicate k 0) = frac b x := by
  rw [frac_append, frac_replicate_zero, zero_div, add_zero]

variable [LinearOrder K] [IsStrictOrderedRing K]

theorem frac_nonneg (ds : List ℕ) : 0 ≤ frac (K := K) b ds := by
  induction ds with
  | nil => exact le_refl 0
  | cons d ds ih => exact div_nonneg (add_nonneg (Nat.cast_nonneg d) ih) (Nat.cast_nonneg b)

theorem pow_length_mul_frac (hb : b ≠ 0) (ds : List ℕ) :
    (b : K) ^ ds.length * frac b ds = num b ds := by
  have hb' : (b : K) ≠ 0 := by exact_mod_cast hb
  induction ds with
  | nil => simp
  | cons d ds ih =>
    rw [frac_cons, num_cons, List.length_cons, pow_succ, Nat.cast_add, Nat.cast_mul, Nat.cast_pow,
      ← ih, mul_assoc, mul_div_cancel₀ _ hb']
    ring

theorem inv_le_frac_of_head_pos {d : ℕ} (hd : 0 < d) (ds : List ℕ) :
    1 / (b : K) ≤ frac b (d :: ds) := by
  have hd' : (1 : K) ≤ d := by exact_mod_cast hd
  rw [frac_cons]
  exact div_le_div_of_nonneg_right (by linarith [frac_nonneg (K := K) (b := b) ds])
    (Nat.cast_nonneg b)

section Base

variable (hb : 0 < b)
include hb

theorem frac_lt_one {ds : List ℕ} (hds : ∀ d ∈ ds, d < b) : frac (K := K) b ds < 1 := by
  induction ds with
  | nil => exact zero_lt_one
  | cons d ds ih =>
    have hd : (d : K) + 1 ≤ b := by exact_mod_cast hds d List.mem_cons_self
    have ht := ih (fun x hx => hds x (List.mem_cons_of_mem _ hx))
    rw [frac_cons, div_lt_one (by exact_mod_cast hb)]
    linarith

theorem frac_lt_of_head_lt {d e : ℕ} (hde : d < e) {ds : List ℕ} (hds : ∀ x ∈ ds, x < b)
    (es : List ℕ) : frac (K := K) b (d :: ds) < frac b (e :: es) := by
  have hde' : (d : K) + 1 ≤ e := by exact_mod_cast hde
  have hlt : frac (K := K) b ds < 1 := frac_lt_one hb hds
  have hnn : 0 ≤ frac (K := K) b es := frac_nonneg es
  rw [frac_cons, frac_cons]
  exact div_lt_div_of_pos_right (by linarith) (by exact_mod_cast hb)

theorem frac_pos {ds : List ℕ} (h : ∃ d ∈ ds, 0 < d) : 0 < frac (K := K) b ds := by
  induction ds with
  | nil => obtain ⟨d, hd, -⟩ := h; cases hd
  | cons d ds ih =>
    have hb' : (0 : K) < b := by exact_mod_cast hb
    rw [frac_cons]
    apply div_pos _ hb'
    obtain ⟨x, hx, hpos⟩ := h
    rcases List.mem_cons.mp hx with rfl | hx
    · exact add_pos_of_pos_of_nonneg (by exact_mod_cast hpos) (frac_nonneg ds)
    · exact add_pos_of_nonneg_of_pos (Nat.cast_nonneg d) (ih ⟨x, hx, hpos⟩)

theorem frac_eq_zero_iff {ds : List ℕ} : frac (K := K) b ds = 0 ↔ ∀ d ∈ ds, d = 0 := by
  constructor
  · intro h d hd
    by_contra hne
    exact absurd h (frac_pos hb ⟨d, hd, Nat.pos_of_ne_zero hne⟩).ne'
  · intro h
    rw [List.eq_replicate_iff.mpr ⟨rfl, h⟩, frac_replicate_zero]

theorem compare_frac_append (p x y : List ℕ) :
    compare (frac (K := K) b (p ++ x)) (frac b (p ++ y)) =
      compare (frac (K := K) b x) (frac b y) := by
  have hs : (0 : K) < (b : K) ^ p.length := pow_pos (by exact_mod_cast hb) _
  have hmono : StrictMono fun t : K => frac b p + t / (b : K) ^ p.length :=
    fun u v huv => (add_lt_add_iff_left _).mpr (div_lt_div_of_pos_right huv hs)
  rw [frac_append, frac_append, ← cmp_eq_compare, ← cmp_eq_compare]
  exact hmono.cmp_map_eq _ _

end Base

end Tikv.Lib.Radix
