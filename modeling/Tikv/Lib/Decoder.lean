import Mathlib

/-!
Decoders that read a value off the front of a list and return it with what is left, and a
counted run of them. A decoder consumes when what it leaves is never longer than what it was
given: a loop that calls such decoders and reads at least one element of its own each round
then terminates on the length of its input.
-/

namespace Tikv.Lib.Decoder

variable {α β ε : Type}

def Consumes (d : List α → Except ε (β × List α)) : Prop :=
  ∀ {data rest : List α} {v : β}, d data = .ok (v, rest) → rest.length ≤ data.length

def decode_n (d : List α → Except ε (β × List α)) : Nat → List α → Except ε (List β × List α)
  | 0, data => .ok ([], data)
  | n + 1, data => do
    let (v, data) ← d data
    let (vs, data) ← decode_n d n data
    pure (v :: vs, data)

variable {d : List α → Except ε (β × List α)}

theorem decode_n_succ_eq_ok {n : Nat} {data rest : List α} {vs : List β}
    (h : decode_n d (n + 1) data = .ok (vs, rest)) :
    ∃ v mid vs', d data = .ok (v, mid) ∧ decode_n d n mid = .ok (vs', rest) ∧ vs = v :: vs' := by
  simp only [decode_n, bind, Except.bind] at h
  match hd : d data, h with
  | .ok (v, mid), h =>
    simp only at h
    match hn : decode_n d n mid, h with
    | .ok (vs', rest'), h =>
      simp only [pure, Except.pure, Except.ok.injEq, Prod.mk.injEq] at h
      exact ⟨v, mid, vs', rfl, by rw [hn, h.2], h.1.symm⟩

theorem Consumes.mapError {ε' : Type} (hd : Consumes d) (g : ε → ε') :
    Consumes (fun data => (d data).mapError g) := by
  intro data rest v h
  match hd' : d data, h with
  | .ok (v', rest'), h =>
    simp only [hd', Except.mapError, Except.ok.injEq, Prod.mk.injEq] at h
    rw [← h.2]
    exact hd hd'
  | .error e, h => simp [hd', Except.mapError] at h

theorem Consumes.decode_n (hd : Consumes d) (n : Nat) : Consumes (decode_n d n) := by
  induction n with
  | zero =>
    intro data rest vs h
    simp only [Tikv.Lib.Decoder.decode_n, Except.ok.injEq, Prod.mk.injEq] at h
    obtain ⟨-, rfl⟩ := h
    exact Nat.le_refl _
  | succ n ih =>
    intro data rest vs h
    obtain ⟨v, mid, vs', h1, h2, -⟩ := decode_n_succ_eq_ok h
    exact Nat.le_trans (ih h2) (hd h1)

theorem decode_n_flatMap {enc : β → List α} (vs : List β)
    (hd : ∀ v ∈ vs, ∀ rest, d (enc v ++ rest) = .ok (v, rest)) (rest : List α) :
    decode_n d vs.length (vs.flatMap enc ++ rest) = .ok (vs, rest) := by
  induction vs with
  | nil => rfl
  | cons v vs ih =>
    have hv := hd v List.mem_cons_self
    have hvs := ih fun w hw => hd w (List.mem_cons_of_mem v hw)
    simp only [List.length_cons, List.flatMap_cons, List.append_assoc, decode_n, hv, bind,
      Except.bind, hvs, pure, Except.pure]

theorem length_flatMap_le {enc : β → List α} {most : β → Nat} (vs : List β)
    (h : ∀ v ∈ vs, (enc v).length ≤ most v) :
    (vs.flatMap enc).length ≤ (vs.map most).sum := by
  induction vs with
  | nil => simp
  | cons v vs ih =>
    simp only [List.flatMap_cons, List.length_append, List.map_cons, List.sum_cons]
    have hv := h v List.mem_cons_self
    have hvs := ih fun w hw => h w (List.mem_cons_of_mem v hw)
    omega

theorem length_le_length_flatMap_of_mem {enc : β → List α} {vs : List β} {v : β}
    (hv : v ∈ vs) : (enc v).length ≤ (vs.flatMap enc).length := by
  induction vs with
  | nil => cases hv
  | cons w vs ih =>
    rw [List.flatMap_cons, List.length_append]
    rcases List.mem_cons.mp hv with rfl | hv
    · omega
    · have := ih hv
      omega

theorem length_le_length_flatMap {enc : β → List α} (vs : List β)
    (h : ∀ v ∈ vs, 0 < (enc v).length) : vs.length ≤ (vs.flatMap enc).length := by
  induction vs with
  | nil => simp
  | cons v vs ih =>
    rw [List.flatMap_cons, List.length_append, List.length_cons]
    have hv := h v List.mem_cons_self
    have hvs := ih fun w hw => h w (List.mem_cons_of_mem v hw)
    omega

section MapM

variable {γ : Type} {f : β → Except ε γ}

theorem forall₂_of_mapM_eq_ok :
    ∀ {xs : List β} {ys : List γ}, xs.mapM f = .ok ys → List.Forall₂ (fun x y => f x = .ok y) xs ys
  | [], ys, h => by
    rw [List.mapM_nil] at h
    cases h
    exact .nil
  | x :: xs, ys, h => by
    rw [List.mapM_cons] at h
    cases hx : f x with
    | error e => simp [hx, bind, Except.bind] at h
    | ok y =>
      cases hxs : xs.mapM f with
      | error e => simp [hx, hxs, bind, Except.bind] at h
      | ok ys' =>
        simp only [hx, hxs, bind, Except.bind, pure, Except.pure, Except.ok.injEq] at h
        subst h
        exact .cons hx (forall₂_of_mapM_eq_ok hxs)

theorem exists_mapM_eq_ok :
    ∀ {xs : List β}, (∀ x ∈ xs, ∃ y, f x = .ok y) → ∃ ys, xs.mapM f = .ok ys
  | [], _ => ⟨[], rfl⟩
  | x :: xs, h => by
    obtain ⟨y, hy⟩ := h x List.mem_cons_self
    obtain ⟨ys, hys⟩ := exists_mapM_eq_ok fun x' hx' => h x' (List.mem_cons_of_mem x hx')
    refine ⟨y :: ys, ?_⟩
    rw [List.mapM_cons, hy, hys]
    rfl

end MapM

end Tikv.Lib.Decoder
