import Mathlib

/-!
Facts about strictly increasing lists, split at a position, the thinning that keeps every
other element of a list, and lists of consecutive numbers.
-/

namespace Tikv.Lib.SortedList

variable {α : Type*} [LinearOrder α]

theorem lt_of_mem_take_of_getElem? {l : List α} (hl : l.Pairwise (· < ·)) {o : Nat} {a b : α}
    (ha : a ∈ l.take o) (hb : l[o]? = some b) : a < b := by
  rw [← List.take_append_drop o l, List.pairwise_append] at hl
  have hb' : b ∈ l.drop o := by
    rw [List.mem_iff_getElem?]
    exact ⟨0, by simpa [List.getElem?_drop] using hb⟩
  exact hl.2.2 a ha b hb'

theorem not_mem_drop_of_mem_take {l : List α} (hl : l.Pairwise (· < ·)) {o : Nat} {a : α}
    (ha : a ∈ l.take o) : a ∉ l.drop o := by
  intro hb
  rw [← List.take_append_drop o l, List.pairwise_append] at hl
  exact lt_irrefl a (hl.2.2 a ha a hb)

omit [LinearOrder α] in
theorem mem_take_succ {l : List α} {o : Nat} {a : α} :
    a ∈ l.take (o + 1) ↔ a ∈ l.take o ∨ l[o]? = some a := by
  rw [List.take_add_one, List.mem_append]
  cases l[o]? <;> simp [eq_comm]

omit [LinearOrder α] in
theorem mem_take_drop_of_getElem? {l : List α} {o n : Nat} {a : α} (ha : l[o]? = some a) :
    a ∈ (l.drop o).take (n + 1) := by
  rw [List.mem_iff_getElem?]
  exact ⟨0, by simpa [List.getElem?_take, List.getElem?_drop] using ha⟩

section Thin

variable {β : Type*}

def everyOther : List β → List β
  | [] => []
  | [a] => [a]
  | a :: _ :: rest => a :: everyOther rest

theorem everyOther_sublist : ∀ l : List β, (everyOther l).Sublist l
  | [] => List.Sublist.slnil
  | [_] => List.Sublist.refl _
  | a :: b :: rest => ((everyOther_sublist rest).cons b).cons_cons a

example : everyOther [1, 2, 3, 4, 5] = [1, 3, 5] := rfl

end Thin

section Keyed

/-! Lists sorted strictly descending by a key, as the versions of a key are by commit
timestamp, and the first element of such a list that satisfies a test. -/

variable {β : Type*} {k : β → α}

theorem key_inj {l : List β} (hl : l.Pairwise fun a b => k b < k a) {x y : β} (hx : x ∈ l)
    (hy : y ∈ l) (h : k x = k y) : x = y := by
  induction l with
  | nil => cases hx
  | cons a l ih =>
    rw [List.pairwise_cons] at hl
    rw [List.mem_cons] at hx hy
    rcases hx with rfl | hx <;> rcases hy with rfl | hy
    · rfl
    · exact absurd h (ne_of_gt (hl.1 y hy))
    · exact absurd h (ne_of_lt (hl.1 x hx))
    · exact ih hl.2 hx hy

theorem key_le_head {a : β} {l : List β} (hl : (a :: l).Pairwise fun a b => k b < k a) {x : β}
    (hx : x ∈ a :: l) : k x ≤ k a := by
  rcases List.mem_cons.mp hx with rfl | hx
  · exact le_refl _
  · exact le_of_lt ((List.pairwise_cons.mp hl).1 x hx)

theorem find?_key_le {l : List β} (hl : l.Pairwise fun a b => k b < k a) {p : β → Bool}
    {x y : β} (hx : l.find? p = some x) (hy : y ∈ l) (hp : p y = true) : k y ≤ k x := by
  obtain ⟨-, as, bs, rfl, has⟩ := List.find?_eq_some_iff_append.mp hx
  rcases List.mem_append.mp hy with hy | hy
  · have hny := has y hy
    simp [hp] at hny
  · rcases List.mem_cons.mp hy with rfl | hy
    · exact le_refl _
    · have hsuf := (List.pairwise_append.mp hl).2.1
      exact le_of_lt ((List.pairwise_cons.mp hsuf).1 y hy)

omit [LinearOrder α] in
theorem find?_congr_of_mem {l : List β} {p q : β → Bool} (h : ∀ x ∈ l, p x = q x) :
    l.find? p = l.find? q := by
  induction l with
  | nil => rfl
  | cons a l ih =>
    rw [List.find?_cons, List.find?_cons, h a List.mem_cons_self,
      ih fun x hx => h x (List.mem_cons_of_mem a hx)]

omit [LinearOrder α] in
theorem find?_filter_of_find? {l : List β} {p keep : β → Bool} {x : β}
    (hx : l.find? p = some x) (hk : keep x = true) : (l.filter keep).find? p = some x := by
  obtain ⟨hpx, as, bs, rfl, has⟩ := List.find?_eq_some_iff_append.mp hx
  rw [List.find?_filter, List.find?_eq_some_iff_append]
  refine ⟨by simp [hpx, hk], as, bs, rfl, fun a ha => ?_⟩
  simp only [Bool.not_eq_eq_eq_not, Bool.not_true] at has
  simp [has a ha]

theorem find?_filter_or_none {l : List β} (hl : l.Pairwise fun a b => k b < k a)
    {p keep : β → Bool}
    (hdrop : ∀ x, l.find? p = some x → keep x = false →
      ∀ y ∈ l, k y ≤ k x → p y = true → keep y = false) :
    (l.filter keep).find? p = l.find? p ∨ (l.filter keep).find? p = none := by
  cases hf : l.find? p with
  | none =>
    right
    exact List.find?_eq_none.mpr fun y hy => List.find?_eq_none.mp hf y (List.mem_filter.mp hy).1
  | some x =>
    cases hk : keep x
    · right
      refine List.find?_eq_none.mpr fun y hy hp => ?_
      obtain ⟨hyl, hky⟩ := List.mem_filter.mp hy
      rw [hdrop x hf hk y hyl (find?_key_le hl hf hyl hp) hp] at hky
      cases hky
    · exact Or.inl (find?_filter_of_find? hf hk)

end Keyed

section CountLt

/-! The position an element takes when a list is sorted, as the number of elements below it,
over any linear order: the first `n` of a strictly increasing list are the elements with
fewer than `n` below them. -/

variable {β : Type*} [LT β] [DecidableRel (α := β) (· < ·)]

def countLt (l : List β) (x : β) : Nat := (l.filter fun y => decide (y < x)).length

theorem countLt_cons (a : β) (l : List β) (x : β) :
    countLt (a :: l) x = if a < x then countLt l x + 1 else countLt l x := by
  unfold countLt
  by_cases h : a < x <;> simp [h]

theorem countLt_perm {l l' : List β} (h : l.Perm l') (x : β) : countLt l x = countLt l' x :=
  (h.filter _).length_eq

theorem countLt_lt_length [Std.Irrefl (α := β) (· < ·)] {l : List β} {x : β} (hx : x ∈ l) :
    countLt l x < l.length :=
  List.length_filter_lt_length_iff_exists.mpr ⟨x, hx, by simp [Std.Irrefl.irrefl]⟩

variable [LE β] [Std.IsLinearOrder β] [Std.LawfulOrderLT β]

theorem countLt_cons_of_pairwise {a : β} {l : List β} (hl : (a :: l).Pairwise (· < ·)) :
    countLt (a :: l) a = 0 ∧ ∀ x ∈ l, countLt (a :: l) x = countLt l x + 1 := by
  have ha : ∀ y ∈ l, a < y := (List.pairwise_cons.mp hl).1
  refine ⟨?_, fun x hx => by rw [countLt_cons, if_pos (ha x hx)]⟩
  rw [countLt_cons, if_neg Std.lt_irrefl, countLt, List.length_eq_zero_iff,
    List.filter_eq_nil_iff]
  intro y hy hlt
  exact Std.lt_irrefl (Std.lt_trans (ha y hy) (of_decide_eq_true hlt))

theorem filter_countLt_lt {l : List β} (hl : l.Pairwise (· < ·)) (n : Nat) :
    l.filter (fun x => decide (countLt l x < n)) = l.take n := by
  induction l generalizing n with
  | nil => simp
  | cons a l ih =>
    obtain ⟨hself, hrest⟩ := countLt_cons_of_pairwise hl
    cases n with
    | zero => simp
    | succ n =>
      -- past the head, one more element is below each, against a bound one larger
      have htail : l.filter (fun x => decide (countLt (a :: l) x < n + 1)) =
          l.filter (fun x => decide (countLt l x < n)) :=
        List.filter_congr fun x hx => by simp [hrest x hx]
      rw [List.filter_cons_of_pos (by simp [hself]), htail, ih (List.Pairwise.of_cons hl),
        List.take_succ_cons]

theorem mem_drop_iff_le_countLt {l : List β} (hl : l.Pairwise (· < ·)) {n : Nat} {x : β} :
    x ∈ l.drop n ↔ x ∈ l ∧ n ≤ countLt l x := by
  have hnodup : l.Nodup := hl.imp fun {a b} (h : a < b) (he : a = b) => by
    subst he
    exact Std.lt_irrefl h
  have htake : x ∈ l.take n ↔ x ∈ l ∧ countLt l x < n := by
    rw [← filter_countLt_lt hl, List.mem_filter, decide_eq_true_iff]
  rw [← List.take_append_drop n l] at hnodup
  constructor
  · intro hx
    refine ⟨List.mem_of_mem_drop hx, Nat.le_of_not_lt fun hlt => ?_⟩
    exact (List.nodup_append.mp hnodup).2.2 x (htake.mpr ⟨List.mem_of_mem_drop hx, hlt⟩) x hx rfl
  · rintro ⟨hx, hle⟩
    rw [← List.take_append_drop n l, List.mem_append] at hx
    exact hx.resolve_left fun ht => Nat.not_lt_of_le hle (htake.mp ht).2

omit [DecidableRel (α := β) (· < ·)] in
theorem pairwise_lt_mergeSort [DecidableRel (α := β) (· ≤ ·)] {l : List β} (hl : l.Nodup) :
    (l.mergeSort fun a b => decide (a ≤ b)).Pairwise (· < ·) := by
  have hle := @List.pairwise_mergeSort _ (fun a b : β => decide (a ≤ b))
    (fun a b c hab hbc => by simp only [decide_eq_true_eq] at *; exact Std.le_trans hab hbc)
    (fun a b => by simpa using Std.le_total) l
  have hne := (List.mergeSort_perm l fun a b => decide (a ≤ b)).nodup_iff.mpr hl
  exact (hle.and hne).imp fun h => Std.lt_of_le_of_ne (of_decide_eq_true h.1) h.2

end CountLt

end Tikv.Lib.SortedList
