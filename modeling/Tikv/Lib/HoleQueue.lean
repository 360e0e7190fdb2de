import Mathlib

/-!
A queue whose removed entries may be left behind as holes (`none`). Only the live entries
carry meaning; the operations below are specified by what they do to them.
-/

namespace Tikv.Lib.HoleQueue

variable {α : Type*}

def live (q : List (Option α)) : List α := q.filterMap id

@[simp] theorem live_nil : live ([] : List (Option α)) = [] := rfl

@[simp] theorem live_cons_none (q : List (Option α)) : live (none :: q) = live q := rfl

@[simp] theorem live_cons_some (a : α) (q : List (Option α)) : live (some a :: q) = a :: live q := rfl

@[simp] theorem live_append (q r : List (Option α)) : live (q ++ r) = live q ++ live r := by
  simp [live]

theorem live_dropWhile_isNone (q : List (Option α)) :
    live (q.dropWhile Option.isNone) = live q := by
  induction q with
  | nil => rfl
  | cons x q ih => cases x <;> simp [ih]

def takeFirst (p : α → Bool) : List (Option α) → Option α × List (Option α)
  | [] => (none, [])
  | none :: q => ((takeFirst p q).1, none :: (takeFirst p q).2)
  | some a :: q =>
    if p a then (some a, none :: q) else ((takeFirst p q).1, some a :: (takeFirst p q).2)

theorem takeFirst_fst (p : α → Bool) (q : List (Option α)) :
    (takeFirst p q).1 = (live q).find? p := by
  induction q with
  | nil => rfl
  | cons x q ih =>
    cases x with
    | none => simp [takeFirst, ih]
    | some a => by_cases h : p a <;> simp [takeFirst, h, ih]

theorem live_takeFirst (p : α → Bool) (q : List (Option α)) :
    live (takeFirst p q).2 = (live q).eraseP p := by
  induction q with
  | nil => rfl
  | cons x q ih =>
    cases x with
    | none => simp [takeFirst, ih]
    | some a => by_cases h : p a <;> simp [takeFirst, h, ih]

theorem filter_eraseP_self (p : α → Bool) (l : List α) :
    (l.eraseP p).filter p = (l.filter p).tail := by
  induction l with
  | nil => rfl
  | cons a l ih => by_cases h : p a <;> simp [h, ih]

theorem filter_eraseP_of_disjoint {p r : α → Bool} (hpr : ∀ a, r a = true → p a = false)
    (l : List α) : (l.eraseP p).filter r = l.filter r := by
  induction l with
  | nil => rfl
  | cons a l ih =>
    by_cases h : p a
    · have hr : r a = false := by
        cases hra : r a
        · rfl
        · simp [hpr a hra] at h
      simp [h, hr]
    · by_cases hr : r a <;> simp [h, hr, ih]

end Tikv.Lib.HoleQueue
