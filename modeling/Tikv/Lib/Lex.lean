import Mathlib

/-!
Lexicographic order through the first position where two lists differ. `DiffLt r s t` says
that `s` and `t` agree up to a position that both have, where the element of `s` is below
the one of `t`; unlike `List.Lex` it survives appending anything to either side, which is
what makes an encoding prefix-free.
-/

namespace Tikv.Lib.Lex

variable {α : Type*}

inductive DiffLt (r : α → α → Prop) : List α → List α → Prop
  | head {x y : α} (s t : List α) : r x y → DiffLt r (x :: s) (y :: t)
  | cons (a : α) {s t : List α} : DiffLt r s t → DiffLt r (a :: s) (a :: t)

variable {r : α → α → Prop}

theorem DiffLt.lex {s t : List α} (h : DiffLt r s t) : List.Lex r s t := by
  induction h with
  | head s t hr => exact List.Lex.rel hr
  | cons a _ ih => exact List.Lex.cons ih

theorem DiffLt.append {s t : List α} (h : DiffLt r s t) (u v : List α) :
    DiffLt r (s ++ u) (t ++ v) := by
  induction h with
  | head s t hr => exact DiffLt.head _ _ hr
  | cons a _ ih => exact DiffLt.cons a ih

theorem DiffLt.append_left (p : List α) {s t : List α} (h : DiffLt r s t) :
    DiffLt r (p ++ s) (p ++ t) := by
  induction p with
  | nil => exact h
  | cons a p ih => exact DiffLt.cons a ih

theorem DiffLt.map {β : Type*} {r' : β → β → Prop} (f : α → β)
    (hf : ∀ x y, r x y → r' (f y) (f x)) {s t : List α} (h : DiffLt r s t) :
    DiffLt r' (t.map f) (s.map f) := by
  induction h with
  | head s t hr => exact DiffLt.head _ _ (hf _ _ hr)
  | cons a _ ih => exact DiffLt.cons (f a) ih

theorem DiffLt.take_left {s t : List α} (h : DiffLt r s t) {n : Nat} (hn : t.length ≤ n) :
    DiffLt r (s.take n) t := by
  induction h generalizing n with
  | head s t hr =>
    obtain ⟨m, rfl⟩ : ∃ m, n = m + 1 := ⟨n - 1, by simp at hn; omega⟩
    exact DiffLt.head _ _ hr
  | cons a _ ih =>
    obtain ⟨m, rfl⟩ : ∃ m, n = m + 1 := ⟨n - 1, by simp at hn; omega⟩
    exact DiffLt.cons a (ih (by simpa using hn))

theorem DiffLt.take_right {s t : List α} (h : DiffLt r s t) {n : Nat} (hn : s.length ≤ n) :
    DiffLt r s (t.take n) := by
  induction h generalizing n with
  | head s t hr =>
    obtain ⟨m, rfl⟩ : ∃ m, n = m + 1 := ⟨n - 1, by simp at hn; omega⟩
    exact DiffLt.head _ _ hr
  | cons a _ ih =>
    obtain ⟨m, rfl⟩ : ∃ m, n = m + 1 := ⟨n - 1, by simp at hn; omega⟩
    exact DiffLt.cons a (ih (by simpa using hn))

theorem lex_cases {s t : List α} (h : List.Lex r s t) :
    (∃ u, u ≠ [] ∧ t = s ++ u) ∨ DiffLt r s t := by
  induction h with
  | nil => exact Or.inl ⟨_, List.cons_ne_nil _ _, rfl⟩
  | rel hr => exact Or.inr (DiffLt.head _ _ hr)
  | @cons a _ _ _ ih =>
    rcases ih with ⟨u, hu, rfl⟩ | hd
    · exact Or.inl ⟨u, hu, rfl⟩
    · exact Or.inr (DiffLt.cons a hd)

theorem lex_append_of_length_eq {p q s t : List α} (hpq : p.length = q.length)
    (h : List.Lex r (p ++ s) (q ++ t)) : DiffLt r p q ∨ (p = q ∧ List.Lex r s t) := by
  induction p generalizing q with
  | nil =>
    obtain rfl : q = [] := List.eq_nil_of_length_eq_zero hpq.symm
    exact Or.inr ⟨rfl, h⟩
  | cons a p ih =>
    obtain ⟨b, q, rfl⟩ : ∃ b q', q = b :: q' := List.exists_cons_of_length_eq_add_one hpq.symm
    rcases List.cons_lex_cons_iff.mp h with hr | ⟨rfl, ht⟩
    · exact Or.inl (DiffLt.head _ _ hr)
    · rcases ih (by simpa using hpq) ht with hd | ⟨rfl, hst⟩
      · exact Or.inl (DiffLt.cons a hd)
      · exact Or.inr ⟨rfl, hst⟩

theorem eq_replicate_or_diffLt {b : α} (hb : ∀ x, x ≠ b → r b x) (c : List α) :
    c = List.replicate c.length b ∨ DiffLt r (List.replicate c.length b) c := by
  induction c with
  | nil => exact Or.inl rfl
  | cons x c ih =>
    by_cases hx : x = b
    · subst hx
      rcases ih with h | h
      · exact Or.inl (by rw [List.length_cons, List.replicate_succ, ← h])
      · exact Or.inr (DiffLt.cons x h)
    · exact Or.inr (DiffLt.head _ _ (hb x hx))

section Order

variable [LT α]

theorem DiffLt.lt {s t : List α} (h : DiffLt (· < ·) s t) : s < t :=
  List.lex_lt.mp h.lex

theorem DiffLt.not_lt [Std.Asymm (· < · : α → α → Prop)] {s t : List α}
    (h : DiffLt (· < ·) s t) : ¬ t < s :=
  List.lt_asymm h.lt

theorem lt_trichotomy [Std.Irrefl (· < · : α → α → Prop)] [Std.Asymm (· < · : α → α → Prop)]
    [Std.Trichotomous (· < · : α → α → Prop)] (s t : List α) : s < t ∨ s = t ∨ t < s := by
  rcases List.le_total s t with h | h
  · rcases List.le_iff_lt_or_eq.mp h with h | h
    · exact Or.inl h
    · exact Or.inr (Or.inl h)
  · rcases List.le_iff_lt_or_eq.mp h with h | h
    · exact Or.inr (Or.inr h)
    · exact Or.inr (Or.inl h.symm)

theorem lt_append_singleton (k : List α) (z : α) : k < k ++ [z] := by
  induction k with
  | nil => exact List.lex_lt.mp List.Lex.nil
  | cons a k ih => exact List.lex_lt.mp (List.Lex.cons (List.lex_lt.mpr ih))

theorem lt_append_cons (k : List α) (z : α) (zs : List α) : k < k ++ z :: zs := by
  induction k with
  | nil => exact List.lex_lt.mp List.Lex.nil
  | cons a k ih => exact List.lex_lt.mp (List.Lex.cons (List.lex_lt.mpr ih))

theorem le_append [Std.Irrefl (· < · : α → α → Prop)] [Std.Asymm (· < · : α → α → Prop)]
    (k x : List α) : k ≤ k ++ x := by
  cases x with
  | nil =>
    rw [List.append_nil]
    exact List.le_refl k
  | cons z zs => exact List.le_of_lt (lt_append_cons k z zs)

theorem append_singleton_le_of_lt [Std.Asymm (· < · : α → α → Prop)] {z : α}
    (hz : ∀ b, ¬ b < z) {k k' : List α} (h : k < k') : k ++ [z] ≤ k' := by
  induction List.lex_lt.mpr h with
  | nil =>
    intro h'
    cases List.lex_lt.mpr h' with
    | rel hb => exact hz _ hb
    | cons ht => cases ht
  | @cons a s t _ ih =>
    intro h'
    cases List.lex_lt.mpr h' with
    | rel haa => exact Std.Asymm.asymm _ _ haa haa
    | cons ht => exact ih (List.lex_lt.mp ‹_›) (List.lex_lt.mp ht)
  | @rel a b s t hab =>
    intro h'
    cases List.lex_lt.mpr h' with
    | rel hba => exact Std.Asymm.asymm _ _ hab hba
    | cons _ => exact Std.Asymm.asymm _ _ hab hab

end Order

end Tikv.Lib.Lex
