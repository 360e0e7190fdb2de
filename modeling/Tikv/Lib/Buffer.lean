import Mathlib

/-!
A fixed-size buffer as a list. `write_at` stores a run of elements at an offset (a
`copy_nonoverlapping` or `write_bytes` into the buffer) and `copy_within` moves a run inside
the buffer as `ptr::copy` does, reading every element before any is written, so that source
and destination may overlap. What would land past the end is dropped: the length of the
buffer never changes, and the lemmas below describe a write that stays inside it.
-/

namespace Tikv.Lib.Buffer

variable {α : Type*}

def write_at (buf : List α) (off : Nat) (bs : List α) : List α :=
  buf.take off ++ bs.take (buf.length - off) ++ buf.drop (off + bs.length)

def copy_within (buf : List α) (src dst n : Nat) : List α :=
  write_at buf dst ((buf.drop src).take n)

@[simp]
theorem length_write_at (buf : List α) (off : Nat) (bs : List α) :
    (write_at buf off bs).length = buf.length := by
  simp only [write_at, List.length_append, List.length_take, List.length_drop]
  omega

@[simp]
theorem length_copy_within (buf : List α) (src dst n : Nat) :
    (copy_within buf src dst n).length = buf.length :=
  length_write_at _ _ _

section InBounds

variable {buf bs : List α} {off : Nat}

theorem write_at_eq (h : off + bs.length ≤ buf.length) :
    write_at buf off bs = buf.take off ++ bs ++ buf.drop (off + bs.length) := by
  rw [write_at, List.take_of_length_le (show bs.length ≤ buf.length - off by omega)]

theorem drop_write_at_of_le (h : off + bs.length ≤ buf.length) {n : Nat}
    (hn : off + bs.length ≤ n) : (write_at buf off bs).drop n = buf.drop n := by
  have hpre : (buf.take off ++ bs).length = off + bs.length := by simp; omega
  rw [write_at_eq h, List.drop_append, List.drop_eq_nil_of_le (by rw [hpre]; exact hn),
    List.nil_append, hpre, List.drop_drop]
  congr 1
  omega

theorem take_write_at (h : off + bs.length ≤ buf.length) :
    (write_at buf off bs).take (off + bs.length) = buf.take off ++ bs := by
  have hpre : (buf.take off ++ bs).length = off + bs.length := by simp; omega
  rw [write_at_eq h, ← hpre, List.take_left]

theorem take_write_at_eq (h : off + bs.length ≤ buf.length) {n : Nat} (hn : n = off + bs.length) :
    (write_at buf off bs).take n = buf.take off ++ bs := by
  rw [hn, take_write_at h]

end InBounds

theorem write_at_append (p q r bs : List α) (h : bs.length = q.length) :
    write_at (p ++ q ++ r) p.length bs = p ++ bs ++ r := by
  have hp : (p ++ q ++ r).take p.length = p := by rw [List.append_assoc, List.take_left]
  have hr : (p ++ q ++ r).drop (p.length + bs.length) = r := by
    rw [h, ← List.length_append, List.drop_left]
  rw [write_at_eq (by simp [h]), hp, hr]

theorem exists_eq_append_cons {l : List α} {n : Nat} (h : n < l.length) :
    ∃ bs x rest, l = bs ++ x :: rest ∧ bs.length = n :=
  ⟨l.take n, l[n], l.drop (n + 1), by rw [← List.drop_eq_getElem_cons h, List.take_append_drop],
    by simp; omega⟩

theorem getD_of_drop_eq_cons {l t : List α} {n : Nat} {x : α} (h : l.drop n = x :: t) (d : α) :
    l.getD n d = x := by
  have := congrArg (·[0]?) h
  simp only [List.getElem?_drop, Nat.add_zero, List.getElem?_cons_zero] at this
  simp [List.getD, this]

end Tikv.Lib.Buffer
