import Mathlib

/-!
Batteries' \x60List.toChunks\x60 cuts a list into pieces of a fixed size, the last one possibly
shorter; it is written with array accumulators and comes with no lemmas. Here it is unfolded
once, as a take and a drop, and what an encoding of fixed-size groups needs follows from that:
the chunks flatten back to the list, a list of full chunks is cut back into them, and a list
whose length the size divides is cut into full chunks, as many as the quotient.
-/

namespace Tikv.Lib.Chunks

variable {α : Type} {n : Nat}

theorem toChunks_cons (hn : 0 < n) (x : α) (xs : List α) :
    (x :: xs).toChunks n = List.toChunks.go n xs #[x] #[] := by
  obtain ⟨m, rfl⟩ : ∃ m, n = m + 1 := ⟨n - 1, by omega⟩
  rfl

theorem go_eq (hn : 0 < n) : ∀ (xs : List α) (acc₁ : Array α) (acc₂ : Array (List α)),
    0 < acc₁.size → acc₁.size ≤ n →
    List.toChunks.go n xs acc₁ acc₂ =
      acc₂.toList ++ (acc₁.toList ++ xs.take (n - acc₁.size)) :: (xs.drop (n - acc₁.size)).toChunks n
  | [], acc₁, acc₂, _, _ => by simp [List.toChunks.go, List.toChunks]
  | x :: xs, acc₁, acc₂, h0, hn' => by
    rw [List.toChunks.go]
    by_cases hfull : acc₁.size = n
    · -- the chunk is full: it is pushed, and x begins the next
      rw [if_pos (by simpa using hfull), go_eq hn xs _ _ (by simp) (by simp; omega), hfull,
        Nat.sub_self, List.take_zero, List.drop_zero, List.append_nil, toChunks_cons hn,
        go_eq hn xs _ _ (by simp) (by simp; omega)]
      simp
    · rw [if_neg (by simpa using hfull), go_eq hn xs _ _ (by simp) (by simp; omega)]
      obtain ⟨k, hk⟩ : ∃ k, n - acc₁.size = k + 1 := ⟨n - acc₁.size - 1, by omega⟩
      rw [hk, List.take_succ_cons, List.drop_succ_cons]
      simp [show n - (acc₁.size + 1) = k by omega]

theorem toChunks_eq (hn : 0 < n) {l : List α} (hl : l ≠ []) :
    l.toChunks n = l.take n :: (l.drop n).toChunks n := by
  obtain ⟨x, xs, rfl⟩ := List.exists_cons_of_ne_nil hl
  obtain ⟨m, rfl⟩ : ∃ m, n = m + 1 := ⟨n - 1, by omega⟩
  rw [toChunks_cons hn, go_eq hn xs _ _ (by simp) (by simp)]
  simp

theorem toChunks_nil : ([] : List α).toChunks n = [] := by
  cases n <;> rfl

theorem toChunks_append (hn : 0 < n) {a : List α} (ha : a.length = n) (b : List α) :
    (a ++ b).toChunks n = a :: b.toChunks n := by
  have hne : a ++ b ≠ [] := by
    intro h
    rw [List.append_eq_nil_iff] at h
    rw [h.1] at ha
    simp at ha
    omega
  rw [toChunks_eq hn hne, List.take_left' ha, List.drop_left' ha]

theorem flatten_toChunks (hn : 0 < n) (l : List α) : (l.toChunks n).flatten = l := by
  induction hlen : l.length using Nat.strongRecOn generalizing l with
  | ind m ih =>
    by_cases hl : l = []
    · rw [hl, toChunks_nil]
      rfl
    · have hpos : 0 < l.length := List.length_pos_iff.mpr hl
      rw [toChunks_eq hn hl, List.flatten_cons,
        ih (l.drop n).length (by rw [List.length_drop]; omega) (l.drop n) rfl, List.take_append_drop]

theorem toChunks_flatten (hn : 0 < n) :
    ∀ {L : List (List α)}, (∀ c ∈ L, c.length = n) → L.flatten.toChunks n = L
  | [], _ => toChunks_nil
  | c :: L, hL => by
    rw [List.flatten_cons, toChunks_append hn (hL c (List.mem_cons_self ..)),
      toChunks_flatten hn fun c' hc' => hL c' (List.mem_cons_of_mem c hc')]

theorem toChunks_of_dvd (hn : 0 < n) (l : List α) (hd : n ∣ l.length) :
    (∀ c ∈ l.toChunks n, c.length = n) ∧ (l.toChunks n).length = l.length / n := by
  induction hlen : l.length using Nat.strongRecOn generalizing l with
  | ind m ih =>
    by_cases hl : l = []
    · subst hl
      subst hlen
      simp [toChunks_nil]
    · have hpos : 0 < l.length := List.length_pos_iff.mpr hl
      have hle : n ≤ l.length := Nat.le_of_dvd hpos hd
      obtain ⟨hc, hlen'⟩ := ih (l.drop n).length (by rw [List.length_drop]; omega) (l.drop n)
        (by rw [List.length_drop]; exact Nat.dvd_sub hd (Nat.dvd_refl n)) rfl
      rw [toChunks_eq hn hl]
      refine ⟨fun c hc' => ?_, ?_⟩
      · rcases List.mem_cons.mp hc' with rfl | hc'
        · rw [List.length_take]
          omega
        · exact hc c hc'
      · rw [List.length_cons, hlen', List.length_drop, ← hlen]
        obtain ⟨q, hq⟩ := hd
        rw [hq, show n * q - n = n * (q - 1) by rw [Nat.mul_sub, Nat.mul_one],
          Nat.mul_div_cancel_left _ hn, Nat.mul_div_cancel_left _ hn]
        have hq0 : 0 < q := Nat.pos_of_ne_zero fun h0 => by
          rw [h0, Nat.mul_zero] at hq
          omega
        omega

end Tikv.Lib.Chunks
