import Mathlib

/-!
A half-open range cut at points that rise strictly through it. Cutting `[lo, hi)` at
`c₁ < ... < cₙ` gives `[lo, c₁), [c₁, c₂), ..., [cₙ, hi)`: no two of these meet, none is
empty, and together they hold exactly the points of `[lo, hi)`. An upper end `none` is no
bound at all. The order is any linear order of the standard library, such as the
lexicographic order of byte strings. The cuts are sorted when they rise from `lo` and the
last one is below `hi`.
-/

namespace Tikv.Lib.Cuts

variable {α : Type}

def pieces : α → List α → Option α → List (α × Option α)
  | lo, [], hi => [(lo, hi)]
  | lo, c :: cs, hi => (lo, some c) :: pieces c cs hi

variable [LT α] [LE α] [Std.IsLinearOrder α] [Std.LawfulOrderLT α]

def InRange (lo : α) (hi : Option α) (x : α) : Prop :=
  lo ≤ x ∧ ∀ h ∈ hi, x < h

theorem le_getLastD {lo : α} {cs : List α} (hc : List.IsChain (· < ·) (lo :: cs)) :
    lo ≤ cs.getLastD lo := by
  induction cs generalizing lo with
  | nil => exact Std.le_refl lo
  | cons c cs ih =>
    rw [List.isChain_cons_cons] at hc
    rw [List.getLastD_cons]
    exact Std.IsPreorder.le_trans _ _ _ (Std.le_of_lt hc.1) (ih hc.2)

theorem le_fst_of_mem_pieces {lo : α} {cs : List α} {hi : Option α}
    (hc : List.IsChain (· < ·) (lo :: cs)) {p : α × Option α} (hp : p ∈ pieces lo cs hi) :
    lo ≤ p.1 := by
  induction cs generalizing lo with
  | nil =>
    simp only [pieces, List.mem_singleton] at hp
    subst hp
    exact Std.le_refl lo
  | cons c cs ih =>
    rw [List.isChain_cons_cons] at hc
    simp only [pieces, List.mem_cons] at hp
    rcases hp with rfl | hp
    · exact Std.le_refl _
    · exact Std.IsPreorder.le_trans _ _ _ (Std.le_of_lt hc.1) (ih hc.2 hp)

theorem snd_le_of_mem_pieces {lo : α} {cs : List α} {hi : Option α}
    (hc : List.IsChain (· < ·) (lo :: cs)) (hh : ∀ h ∈ hi, cs.getLastD lo < h)
    {p : α × Option α} (hp : p ∈ pieces lo cs hi) : ∀ h ∈ hi, ∃ e ∈ p.2, e ≤ h := by
  intro h hmem
  induction cs generalizing lo with
  | nil =>
    simp only [pieces, List.mem_singleton] at hp
    subst hp
    exact ⟨h, hmem, Std.le_refl h⟩
  | cons c cs ih =>
    rw [List.isChain_cons_cons] at hc
    rw [List.getLastD_cons] at hh
    simp only [pieces, List.mem_cons] at hp
    rcases hp with rfl | hp
    · -- the first piece ends at the first cut, which is at most the last one
      have hc_le : c ≤ h :=
        Std.le_of_lt (Std.lt_of_le_of_lt (le_getLastD hc.2) (hh h hmem))
      exact ⟨c, rfl, hc_le⟩
    · exact ih hc.2 hh hp

theorem exists_mem_pieces_of_inRange {lo : α} {hi : Option α} {x : α} (cs : List α)
    (hx : InRange lo hi x) : ∃ p ∈ pieces lo cs hi, InRange p.1 p.2 x := by
  induction cs generalizing lo with
  | nil => exact ⟨(lo, hi), List.mem_singleton_self _, hx⟩
  | cons c cs ih =>
    by_cases hxc : x < c
    · exact ⟨(lo, some c), List.mem_cons_self, hx.1, fun h hh => by cases hh; exact hxc⟩
    · obtain ⟨p, hp, hxp⟩ := ih ⟨Std.not_lt.mp hxc, hx.2⟩
      exact ⟨p, List.mem_cons_of_mem _ hp, hxp⟩

theorem inRange_of_mem_pieces {lo : α} {cs : List α} {hi : Option α}
    (hc : List.IsChain (· < ·) (lo :: cs)) (hh : ∀ h ∈ hi, cs.getLastD lo < h)
    {p : α × Option α} (hp : p ∈ pieces lo cs hi) {x : α} (hx : InRange p.1 p.2 x) :
    InRange lo hi x := by
  refine ⟨Std.IsPreorder.le_trans _ _ _ (le_fst_of_mem_pieces hc hp) hx.1, fun h hmem => ?_⟩
  obtain ⟨e, he, heh⟩ := snd_le_of_mem_pieces hc hh hp h hmem
  exact Std.lt_of_lt_of_le (hx.2 e he) heh

theorem inRange_iff_exists_mem_pieces {lo : α} {cs : List α} {hi : Option α}
    (hc : List.IsChain (· < ·) (lo :: cs)) (hh : ∀ h ∈ hi, cs.getLastD lo < h) (x : α) :
    InRange lo hi x ↔ ∃ p ∈ pieces lo cs hi, InRange p.1 p.2 x := by
  constructor
  · exact exists_mem_pieces_of_inRange cs
  · rintro ⟨p, hp, hx⟩
    exact inRange_of_mem_pieces hc hh hp hx

theorem pairwise_disjoint_pieces {lo : α} {cs : List α} (hi : Option α)
    (hc : List.IsChain (· < ·) (lo :: cs)) :
    (pieces lo cs hi).Pairwise fun p q => ∀ x, ¬ (InRange p.1 p.2 x ∧ InRange q.1 q.2 x) := by
  induction cs generalizing lo with
  | nil => exact List.pairwise_singleton _ _
  | cons c cs ih =>
    rw [List.isChain_cons_cons] at hc
    refine List.Pairwise.cons (fun q hq x ⟨hx, hxq⟩ => ?_) (ih hc.2)
    -- a point of the first piece is below the first cut, where every later piece starts
    have hxc : x < c := hx.2 c rfl
    have hcx : c ≤ x := Std.IsPreorder.le_trans _ _ _ (le_fst_of_mem_pieces hc.2 hq) hxq.1
    exact Std.not_le.mpr hxc hcx

omit [LE α] [Std.IsLinearOrder α] [Std.LawfulOrderLT α] in
theorem lt_of_mem_pieces {lo : α} {cs : List α} {hi : Option α}
    (hc : List.IsChain (· < ·) (lo :: cs)) (hh : ∀ h ∈ hi, cs.getLastD lo < h)
    {p : α × Option α} (hp : p ∈ pieces lo cs hi) : ∀ e ∈ p.2, p.1 < e := by
  induction cs generalizing lo with
  | nil =>
    simp only [pieces, List.mem_singleton] at hp
    subst hp
    exact hh
  | cons c cs ih =>
    rw [List.isChain_cons_cons] at hc
    rw [List.getLastD_cons] at hh
    simp only [pieces, List.mem_cons] at hp
    rcases hp with rfl | hp
    · intro e he
      cases he
      exact hc.1
    · exact ih hc.2 hh hp

end Tikv.Lib.Cuts
