import Mathlib

/-!
A cursor on a list: the position of an ordered iterator over a sorted store, with the entries
behind it (nearest first), the entry it is on and the entries ahead. An iterator that is not
valid has no cursor. A forward walk meets what is ahead of the cursor, a backward one what is
behind it; a seek splits the list at the first entry a predicate rejects.

Also the values a client reads walking an iterator: it reads while the last move reported a
valid position, and stops at the first move that reports none.
-/

namespace Tikv.Lib

structure Cursor (α : Type*) where
  before : List α
  cur : α
  after : List α
  deriving Repr

namespace Cursor

variable {α : Type*}

def next (c : Cursor α) : Option (Cursor α) :=
  match c.after with
  | [] => none
  | x :: xs => some ⟨c.cur :: c.before, x, xs⟩

def prev (c : Cursor α) : Option (Cursor α) :=
  match c.before with
  | [] => none
  | x :: xs => some ⟨xs, x, c.cur :: c.after⟩

def seek (p : α → Bool) (l : List α) : Option (Cursor α) :=
  match l.dropWhile p with
  | [] => none
  | x :: xs => some ⟨(l.takeWhile p).reverse, x, xs⟩

def seek_last (p : α → Bool) (l : List α) : Option (Cursor α) :=
  match (l.takeWhile p).reverse with
  | [] => none
  | x :: xs => some ⟨xs, x, l.dropWhile p⟩

def ahead : Option (Cursor α) → List α
  | none => []
  | some c => c.cur :: c.after

def behind : Option (Cursor α) → List α
  | none => []
  | some c => c.cur :: c.before

@[simp]
theorem ahead_none : ahead (none : Option (Cursor α)) = [] := rfl

@[simp]
theorem ahead_some (c : Cursor α) : ahead (some c) = c.cur :: c.after := rfl

@[simp]
theorem behind_none : behind (none : Option (Cursor α)) = [] := rfl

@[simp]
theorem behind_some (c : Cursor α) : behind (some c) = c.cur :: c.before := rfl

theorem ahead_bind_next (o : Option (Cursor α)) : ahead (o.bind next) = (ahead o).tail := by
  rcases o with _ | ⟨b, x, _ | ⟨y, ys⟩⟩ <;> rfl

theorem behind_bind_prev (o : Option (Cursor α)) : behind (o.bind prev) = (behind o).tail := by
  rcases o with _ | ⟨_ | ⟨y, ys⟩, x, a⟩ <;> rfl

theorem ahead_seek (p : α → Bool) (l : List α) : ahead (seek p l) = l.dropWhile p := by
  unfold seek
  split <;> rename_i h <;> simp [h]

theorem behind_seek_last (p : α → Bool) (l : List α) :
    behind (seek_last p l) = (l.takeWhile p).reverse := by
  unfold seek_last
  split <;> rename_i h <;> simp [h]

theorem isSome_eq_ahead (o : Option (Cursor α)) : o.isSome = !(ahead o).isEmpty := by
  cases o <;> rfl

theorem isSome_eq_behind (o : Option (Cursor α)) : o.isSome = !(behind o).isEmpty := by
  cases o <;> rfl

theorem map_cur_eq_ahead (o : Option (Cursor α)) : o.map cur = (ahead o).head? := by
  cases o <;> rfl

theorem map_cur_eq_behind (o : Option (Cursor α)) : o.map cur = (behind o).head? := by
  cases o <;> rfl

end Cursor

section Sorted

variable {α : Type*} {r : α → α → Prop} {p : α → Bool}

theorem dropWhile_eq_filter {l : List α} (hl : l.Pairwise r) (hp : ∀ a b, r a b → p b → p a) :
    l.dropWhile p = l.filter (fun a => !p a) := by
  induction l with
  | nil => rfl
  | cons x xs ih =>
    rw [List.pairwise_cons] at hl
    by_cases hx : p x
    · rw [List.dropWhile_cons_of_pos hx, List.filter_cons_of_neg (by simp [hx]), ih hl.2]
    · rw [List.dropWhile_cons_of_neg hx]
      refine (List.filter_eq_self.mpr fun y hy => ?_).symm
      cases hy with
      | head => simpa using hx
      | tail _ hy => simpa using fun hpy => hx (hp x y (hl.1 y hy) hpy)

theorem not_of_mem_head?_dropWhile {l : List α} {y : α} (hy : y ∈ (l.dropWhile p).head?) :
    p y = false := by
  have h := List.head?_dropWhile_not p l
  rw [Option.mem_def.mp hy] at h
  exact h

theorem find?_dropWhile {q : α → Bool} {l : List α} (h : ∀ a, p a = true → q a = false) :
    (l.dropWhile p).find? q = l.find? q := by
  induction l with
  | nil => rfl
  | cons x xs ih =>
    by_cases hx : p x
    · rw [List.dropWhile_cons_of_pos hx, ih, List.find?_cons_of_neg (by simp [h x hx])]
    · rw [List.dropWhile_cons_of_neg hx]

end Sorted

/-- The values a client reads walking an iterator from a state where the last move reported
\x60b\x60: nothing once a move reports no valid position, else the value at the state and then
what it reads after the next successful move. -/
inductive Yields {σ β ε : Type*} (step : σ → Except ε Bool × σ) (read : σ → β) :
    Bool → σ → List β → Prop
  | done (s : σ) : Yields step read false s []
  | more {s s' : σ} {b : Bool} {l : List β} (h : step s = (.ok b, s'))
      (hl : Yields step read b s' l) : Yields step read true s (read s :: l)

end Tikv.Lib
