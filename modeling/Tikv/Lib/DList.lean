import Mathlib.Data.List.Chain
import Mathlib.Data.Finset.Card

/-!
Doubly linked lists on a heap of cells addressed by numbers. A stretch of a list is the chain
of its addresses in which each cell's `next` is the following address and that cell's `prev`
points back. Relinking writes `next` and then `prev`, and the lemmas below say which stretches
survive: the frame lemma, cutting a cell out between its neighbours, and putting a cell right
behind the first one. `walk` reads a stretch back by following `next`.
-/

namespace Tikv.Lib.DList

structure Cell (α : Type) where
  prev : Nat
  next : Nat
  val : α
  deriving DecidableEq, Repr

variable {α : Type}

def Adjacent (h : Nat → Cell α) (a b : Nat) : Prop := (h a).next = b ∧ (h b).prev = a

def Linked (h : Nat → Cell α) (cells : List Nat) : Prop := cells.IsChain (Adjacent h)

/-- Make `b` follow `a`: the `next` of `a` is written first, then the `prev` of `b`. -/
def link (h : Nat → Cell α) (a b : Nat) : Nat → Cell α :=
  let h := Function.update h a { h a with next := b }
  Function.update h b { h b with prev := a }

/-- The addresses from `x` on, following `next` until `stop`, at most `fuel` of them. -/
def walk (h : Nat → Cell α) (stop : Nat) : Nat → Nat → List Nat
  | 0, _ => []
  | fuel + 1, x => if x = stop then [] else x :: walk h stop fuel (h x).next

section Link

variable (h : Nat → Cell α) (a b x : Nat)

@[simp] theorem link_next : (link h a b x).next = if x = a then b else (h x).next := by
  simp only [link, Function.update_apply]
  split_ifs <;> simp_all

@[simp] theorem link_prev : (link h a b x).prev = if x = b then a else (h x).prev := by
  simp only [link, Function.update_apply]
  split_ifs <;> simp_all

@[simp] theorem link_val : (link h a b x).val = (h x).val := by
  simp only [link, Function.update_apply]
  split_ifs <;> simp_all

/-- A write that keeps a cell's value keeps every value. -/
theorem val_update {a : Nat} {c : Cell α} (hc : c.val = (h a).val) :
    (Function.update h a c x).val = (h x).val := by
  by_cases hx : x = a
  · subst hx; simpa using hc
  · simp [hx]

end Link

section Linked

variable {h h' : Nat → Cell α}

/-- A stretch is read through the `next` of every cell but the last and the `prev` of every
cell but the first; a heap that agrees there keeps it. -/
theorem Linked.frame : ∀ {l : List Nat}, Linked h l →
    (∀ x ∈ l.dropLast, (h' x).next = (h x).next) →
    (∀ x ∈ l.tail, (h' x).prev = (h x).prev) → Linked h' l
  | [], _, _, _ => List.IsChain.nil
  | [x], _, _, _ => List.IsChain.singleton x
  | x :: y :: l, hl, hnext, hprev => by
    rw [Linked, List.isChain_cons_cons] at hl ⊢
    obtain ⟨⟨hxy, hyx⟩, hrest⟩ := hl
    refine ⟨⟨?_, ?_⟩, Linked.frame hrest (fun z hz => ?_) (fun z hz => ?_)⟩
    · rw [hnext x (by simp), hxy]
    · rw [hprev y (by simp), hyx]
    · exact hnext z (by simp [hz])
    · exact hprev z (List.mem_cons_of_mem _ hz)

/-- Cutting `r` out between its neighbours `a` and `b` leaves the stretch without it. -/
theorem Linked.link_erase {A B : List Nat} {a r b : Nat}
    (hl : Linked h (A ++ a :: r :: b :: B)) (hnd : (A ++ a :: r :: b :: B).Nodup) :
    Linked (link h a b) (A ++ a :: b :: B) := by
  rw [Linked, List.isChain_append_cons_cons, List.isChain_cons_cons] at hl
  obtain ⟨hA, -, -, hB⟩ := hl
  obtain ⟨-, hnd₂, hdisj⟩ := List.nodup_append.mp hnd
  have haA : a ∉ A := fun ha => hdisj a ha a List.mem_cons_self rfl
  have hbA : b ∉ A := fun hb => hdisj b hb b (by simp) rfl
  obtain ⟨har, hnd₃⟩ := List.nodup_cons.mp hnd₂
  have hab : a ≠ b := fun hab => har (by simp [hab])
  have haB : a ∉ B := fun ha => har (by simp [ha])
  have hbB : b ∉ B := (List.nodup_cons.mp (List.nodup_cons.mp hnd₃).2).1
  rw [Linked, List.isChain_append_cons_cons]
  refine ⟨Linked.frame hA (fun x hx => ?_) (fun x hx => ?_), ⟨by simp, by simp⟩,
    Linked.frame hB (fun x hx => ?_) (fun x hx => ?_)⟩
  · -- the cells before `a` keep their `next`
    have hxA : x ∈ A := by simpa using hx
    simp [show x ≠ a from fun hxa => haA (hxa ▸ hxA)]
  · have hx' : x ∈ A ++ [a] := List.mem_of_mem_tail hx
    have hxb : x ≠ b := fun hxb => by
      rcases List.mem_append.mp hx' with hx' | hx'
      · exact hbA (hxb ▸ hx')
      · exact hab ((List.mem_singleton.mp hx').symm.trans hxb)
    simp [hxb]
  · have hxa : x ≠ a := fun hxa => by
      rcases List.mem_cons.mp (List.dropLast_subset _ hx) with hx' | hx'
      · exact hab (hxa ▸ hx')
      · exact haB (hxa ▸ hx')
    simp [hxa]
  · have hxb : x ≠ b := fun hxb => hbB (hxb ▸ hx)
    simp [hxb]

/-- A cell put right behind `a`, by writing the four links that meet it; the other cells keep
theirs. -/
theorem Linked.cons_insert {l : List Nat} {a b r : Nat} (hl : Linked h (a :: b :: l))
    (hnext : ∀ x ∈ (b :: l).dropLast, (h' x).next = (h x).next)
    (hprev : ∀ x ∈ l, (h' x).prev = (h x).prev)
    (har : Adjacent h' a r) (hrb : Adjacent h' r b) : Linked h' (a :: r :: b :: l) := by
  rw [Linked, List.isChain_cons_cons] at hl
  rw [Linked, List.isChain_cons_cons, List.isChain_cons_cons]
  exact ⟨har, hrb, Linked.frame hl.2 hnext hprev⟩

/-- Cutting `r` out between the neighbours it records itself. -/
theorem Linked.cut {P Q : List Nat} {r : Nat} (hl : Linked h (P ++ r :: Q))
    (hnd : (P ++ r :: Q).Nodup) (hP : P ≠ []) (hQ : Q ≠ []) :
    Linked (link h (h r).prev (h r).next) (P ++ Q) := by
  obtain ⟨P, a, rfl⟩ := (List.eq_nil_or_concat' P).resolve_left hP
  obtain ⟨b, Q, rfl⟩ := List.exists_cons_of_ne_nil hQ
  simp only [List.append_assoc, List.singleton_append] at hl hnd ⊢
  have hchain := hl
  rw [Linked, List.isChain_append_cons_cons, List.isChain_cons_cons] at hchain
  obtain ⟨-, har, hrb, -⟩ := hchain
  rw [har.2, hrb.1]
  exact hl.link_erase hnd

/-- Linking a cell `r` from outside the stretch behind the successor of `a` and then behind
`a`. -/
theorem Linked.link_front {l : List Nat} {a r : Nat} (hl : Linked h (a :: l))
    (hnd : (a :: l).Nodup) (hne : l ≠ []) (hr : r ∉ a :: l) :
    Linked (link (link h r (h a).next) a r) (a :: r :: l) := by
  obtain ⟨b, l, rfl⟩ := List.exists_cons_of_ne_nil hne
  have hab : (h a).next = b := (List.isChain_cons_cons.mp hl).1.1
  rw [hab]
  have hra : r ≠ a := fun h => hr (h ▸ List.mem_cons_self)
  have hrb : r ≠ b := fun h => hr (h ▸ by simp)
  have hrl : r ∉ l := fun h => hr (by simp [h])
  obtain ⟨hab, hnd'⟩ := List.nodup_cons.mp hnd
  have hal : a ∉ l := fun h => hab (by simp [h])
  have hbl : b ∉ l := (List.nodup_cons.mp hnd').1
  refine hl.cons_insert (fun x hx => ?_) (fun x hx => ?_) ⟨by simp, by simp⟩
    ⟨by simp [hra], by simp [hrb.symm]⟩
  · have hx' := List.dropLast_subset _ hx
    have hxa : x ≠ a := fun h => hab (h ▸ hx')
    have hxr : x ≠ r := fun h => hr (by simp [← h, hx'])
    simp [hxa, hxr]
  · have hxr : x ≠ r := fun h => hrl (h ▸ hx)
    have hxb : x ≠ b := fun h => hbl (h ▸ hx)
    simp [hxr, hxb]

theorem Linked.prev_last {l : List Nat} {a b : Nat} (hl : Linked h (l ++ [a, b])) :
    (h b).prev = a :=
  (List.isChain_append_cons_cons.mp hl).2.1.2

/-- Following `next` from the first cell of a stretch ending at `stop` reads the stretch. -/
theorem walk_eq {stop : Nat} : ∀ {c : List Nat} {fuel : Nat}, Linked h (c ++ [stop]) →
    stop ∉ c → c.length < fuel → walk h stop fuel (c.headD stop) = c
  | [], fuel + 1, _, _, _ => by simp [walk]
  | x :: c, fuel + 1, hl, hstop, hlen => by
    have hxs : x ≠ stop := fun h => hstop (h ▸ List.mem_cons_self)
    rw [List.cons_append, Linked, List.isChain_cons] at hl
    have hnext : (h x).next = c.headD stop := by
      cases c with
      | nil => exact (hl.1 stop rfl).1
      | cons y c => exact (hl.1 y rfl).1
    rw [List.headD_cons, walk, if_neg hxs, hnext,
      walk_eq hl.2 (fun h => hstop (List.mem_cons_of_mem _ h)) (by simpa using hlen)]

end Linked

theorem length_le_of_nodup {l : List Nat} {n : Nat} (hnd : l.Nodup) (hlt : ∀ x ∈ l, x < n) :
    l.length ≤ n := by
  rw [← List.toFinset_card_of_nodup hnd, ← Finset.card_range n]
  exact Finset.card_le_card fun x hx => Finset.mem_range.mpr (hlt x (List.mem_toFinset.mp hx))

end Tikv.Lib.DList
