import Mathlib

/-!
A relation whose every step leaves a marked element and climbs a rank whenever it lands on a
marked one has no cycle.
-/

namespace Tikv.Lib.Rank

variable {α β : Type*} [Preorder β] {r : α → α → Prop} {P : α → Prop} {f : α → β}

theorem transGen_rank (hr : ∀ a b, r a b → P a ∧ (P b → f a < f b)) {a b : α}
    (h : Relation.TransGen r a b) : P a ∧ (P b → f a < f b) := by
  induction h with
  | single hab => exact hr _ _ hab
  | tail _ hbc ih =>
    obtain ⟨hPb, hlt⟩ := hr _ _ hbc
    exact ⟨ih.1, fun hPc => (ih.2 hPb).trans (hlt hPc)⟩

theorem not_transGen_self (hr : ∀ a b, r a b → P a ∧ (P b → f a < f b)) (a : α) :
    ¬ Relation.TransGen r a a := by
  intro h
  obtain ⟨hP, hlt⟩ := transGen_rank hr h
  exact lt_irrefl _ (hlt hP)

end Tikv.Lib.Rank
