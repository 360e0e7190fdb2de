import Mathlib

/-!
Binary search by halving, in the form that keeps a base and a size and moves the base to the
middle whenever the middle element is at most the key, with a cap on the number of rounds.
After the rounds the element at the base is compared once: equal gives the base, otherwise
the insertion point. The loop keeps the key's place inside `[base, base + size)`; once the
size is one the last comparison decides. The cap does not cut the search short when the
number of elements is at most two to the number of rounds.
-/

namespace Tikv.Lib.BinarySearch

variable {α : Type*} [LinearOrder α] (get : Nat → α) (v : α)

def loop : Nat → Nat → Nat → Nat
  | 0, base, _ => base
  | steps + 1, base, size =>
    if 1 < size then
      let half := size / 2
      let mid := base + half
      loop steps (if compare (get mid) v = .gt then base else mid) (size - half)
    else base

def search (steps size : Nat) : Except Nat Nat :=
  if size = 0 then .error 0
  else
    let base := loop get v steps 0 size
    match compare (get base) v with
    | .eq => .ok base
    | .lt => .error (base + 1)
    | .gt => .error base

/-- What the loop keeps: the key is not below the base, and is below everything from the end of
the window on. -/
structure Window (n base size : Nat) : Prop where
  pos : 0 < size
  le_n : base + size ≤ n
  left : base = 0 ∨ get base ≤ v
  right : ∀ j, base + size ≤ j → j < n → v < get j

variable {get v}

theorem Window.loop {n : Nat} (hmono : ∀ i j, i ≤ j → j < n → get i ≤ get j) :
    ∀ {steps base size : Nat}, Window get v n base size → size ≤ 2 ^ steps →
      Window get v n (BinarySearch.loop get v steps base size) 1
  | 0, base, size, hw, hs => by
    have hsize : size = 1 := by
      have := hw.pos
      simp only [Nat.pow_zero] at hs
      omega
    subst hsize
    exact hw
  | steps + 1, base, size, hw, hs => by
    simp only [BinarySearch.loop]
    split
    · rename_i hlt
      have hmid : base + size / 2 < n := by
        have := hw.le_n
        omega
      apply Window.loop hmono _ (by rw [Nat.pow_succ] at hs; omega)
      split
      · -- the middle is above the key, and so is everything from it on
        rename_i hgt
        have hv : v < get (base + size / 2) := compare_gt_iff_gt.mp hgt
        refine ⟨by omega, by have := hw.le_n; omega, hw.left, fun j hj hjn => ?_⟩
        exact lt_of_lt_of_le hv (hmono _ _ (by omega) hjn)
      · rename_i hgt
        have hv : get (base + size / 2) ≤ v := not_lt.mp fun h => hgt (compare_gt_iff_gt.mpr h)
        refine ⟨by omega, by have := hw.le_n; omega, .inr hv, fun j hj hjn => ?_⟩
        exact hw.right j (by omega) hjn
    · rename_i hle
      have hsize : size = 1 := by
        have := hw.pos
        omega
      subst hsize
      exact hw

theorem search_spec {n steps : Nat} (hmono : ∀ i j, i ≤ j → j < n → get i ≤ get j)
    (hn : n ≤ 2 ^ steps) :
    (∀ i, search get v steps n = .ok i → i < n ∧ get i = v) ∧
    (∀ i, search get v steps n = .error i →
      i ≤ n ∧ (∀ j, j < i → get j < v) ∧ ∀ j, i ≤ j → j < n → v < get j) := by
  unfold search
  split
  · rename_i h0
    subst h0
    refine ⟨fun i h => (nomatch h), fun i h => ?_⟩
    cases h
    exact ⟨Nat.le_refl 0, fun j hj => absurd hj (Nat.not_lt_zero j),
      fun j _ hj => absurd hj (Nat.not_lt_zero j)⟩
  · rename_i h0
    have hw : Window get v n (loop get v steps 0 n) 1 :=
      Window.loop hmono ⟨Nat.pos_of_ne_zero h0, by omega, .inl rfl, fun j hj hjn => by omega⟩ hn
    have hb := hw.le_n
    dsimp only
    split
    · rename_i heq
      refine ⟨fun i h => ?_, fun i h => (nomatch h)⟩
      cases h
      exact ⟨by omega, compare_eq_iff_eq.mp heq⟩
    · -- the base is below the key, and everything after it is above
      rename_i hlt
      have hbv : get (loop get v steps 0 n) < v := compare_lt_iff_lt.mp hlt
      refine ⟨fun i h => (nomatch h), fun i h => ?_⟩
      cases h
      refine ⟨by omega, fun j hj => lt_of_le_of_lt (hmono _ _ (by omega) (by omega)) hbv,
        hw.right⟩
    · -- the base is above the key, so it can only be the first element
      rename_i hgt
      have hvb : v < get (loop get v steps 0 n) := compare_gt_iff_gt.mp hgt
      have hzero : loop get v steps 0 n = 0 := by
        rcases hw.left with h | h
        · exact h
        · exact absurd h (not_le.mpr hvb)
      refine ⟨fun i h => (nomatch h), fun i h => ?_⟩
      cases h
      refine ⟨by omega, fun j hj => by omega, fun j hj hjn => ?_⟩
      rcases Nat.eq_zero_or_pos j with rfl | hj0
      · rw [← hzero]
        exact hvb
      · exact hw.right j (by omega) hjn

theorem search_eq_ok_of_mem {n steps : Nat} (hmono : ∀ i j, i ≤ j → j < n → get i ≤ get j)
    (hn : n ≤ 2 ^ steps) {i : Nat} (hi : i < n) (hv : get i = v) :
    ∃ k, search get v steps n = .ok k := by
  cases h : search get v steps n with
  | ok k => exact ⟨k, rfl⟩
  | error k =>
    obtain ⟨-, hbelow, habove⟩ := (search_spec hmono hn).2 k h
    rcases Nat.lt_or_ge i k with hik | hki
    · exact absurd hv (ne_of_lt (hbelow i hik))
    · exact absurd hv (ne_of_gt (habove i hki hi))

end Tikv.Lib.BinarySearch
