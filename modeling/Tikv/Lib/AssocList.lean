import Mathlib

/-!
Association lists used as finite maps: the first entry of a key gives its value. With distinct
keys, as a hash map has them, membership and lookup agree, and retaining entries by their value
filters the lookup.
-/

namespace Tikv.Lib.AssocList

variable {α β γ : Type*}

def keys (m : List (α × β)) : List α := m.map Prod.fst

@[simp] theorem keys_nil : keys ([] : List (α × β)) = [] := rfl

@[simp] theorem keys_cons (p : α × β) (m : List (α × β)) : keys (p :: m) = p.1 :: keys m := rfl

@[simp] theorem keys_append (m m' : List (α × β)) : keys (m ++ m') = keys m ++ keys m' := by
  simp [keys]

@[simp] theorem keys_map_pair (l : List α) (b : β) : keys (l.map (fun a => (a, b))) = l := by
  induction l with
  | nil => rfl
  | cons a l ih => simp [ih]

@[simp] theorem keys_map_snd (g : β → γ) (m : List (α × β)) :
    keys (m.map (fun p => (p.1, g p.2))) = keys m := by
  induction m with
  | nil => rfl
  | cons p m ih => simp [ih]

variable [DecidableEq α]

def erase (k : α) (m : List (α × β)) : List (α × β) := m.filter (fun p => p.1 ≠ k)

def modify (k : α) (f : β → β) (m : List (α × β)) : List (α × β) :=
  m.map (fun p => if p.1 = k then (p.1, f p.2) else p)

def insert (k : α) (v : β) (m : List (α × β)) : List (α × β) :=
  if (m.lookup k).isSome then modify k (fun _ => v) m else m ++ [(k, v)]

theorem lookup_eq_lookup_decEq [inst : BEq α] [LawfulBEq α] (k : α) (m : List (α × β)) :
    m.lookup k = @List.lookup _ _ instBEqOfDecidableEq k m := by
  rw [lawful_beq_subsingleton inst instBEqOfDecidableEq]

theorem lookup_cons_eq (a k : α) (b : β) (m : List (α × β)) :
    ((a, b) :: m).lookup k = if k = a then some b else m.lookup k := by
  by_cases h : k = a
  · subst h; simp
  · simp [List.lookup_cons, beq_eq_false_iff_ne.mpr h, h]

theorem lookup_erase (k k' : α) (m : List (α × β)) :
    (erase k m).lookup k' = if k' = k then none else m.lookup k' := by
  induction m with
  | nil => simp [erase]
  | cons p m ih =>
    obtain ⟨a, b⟩ := p
    by_cases ha : a = k
    · have he : erase k ((a, b) :: m) = erase k m := by simp [erase, ha]
      rw [he, ih, lookup_cons_eq]
      by_cases hk : k' = k <;> simp [hk, ha]
    · have he : erase k ((a, b) :: m) = (a, b) :: erase k m := by simp [erase, ha]
      rw [he, lookup_cons_eq, lookup_cons_eq, ih]
      by_cases hk : k' = a
      · subst hk; simp [ha]
      · simp [hk]

theorem lookup_modify (k k' : α) (f : β → β) (m : List (α × β)) :
    (modify k f m).lookup k' = if k' = k then (m.lookup k).map f else m.lookup k' := by
  induction m with
  | nil => simp [modify]
  | cons p m ih =>
    obtain ⟨a, b⟩ := p
    by_cases ha : a = k
    · subst ha
      have he : modify a f ((a, b) :: m) = (a, f b) :: modify a f m := by simp [modify]
      rw [he, lookup_cons_eq, lookup_cons_eq, ih]
      by_cases hk : k' = a
      · simp [hk]
      · simp [hk, lookup_cons_eq]
    · have he : modify k f ((a, b) :: m) = (a, b) :: modify k f m := by simp [modify, ha]
      rw [he, lookup_cons_eq, lookup_cons_eq, ih, lookup_cons_eq]
      by_cases hk : k' = a
      · subst hk; simp [ha]
      · simp [hk, Ne.symm ha]

omit [DecidableEq α] in
theorem mem_keys_iff {m : List (α × β)} {k : α} : k ∈ keys m ↔ ∃ v, (k, v) ∈ m := by
  simp [keys]

theorem lookup_eq_none_iff_not_mem_keys {m : List (α × β)} {k : α} :
    m.lookup k = none ↔ k ∉ keys m := by
  induction m with
  | nil => simp
  | cons p m ih =>
    obtain ⟨a, b⟩ := p
    rw [lookup_cons_eq, keys_cons, List.mem_cons]
    by_cases hk : k = a <;> simp [hk, ih]

theorem lookup_insert (k k' : α) (v : β) (m : List (α × β)) :
    (insert k v m).lookup k' = if k' = k then some v else m.lookup k' := by
  unfold insert
  split
  · rename_i hs
    rw [lookup_modify]
    split
    · obtain ⟨b, hb⟩ := Option.isSome_iff_exists.mp hs
      simp [hb]
    · rfl
  · rename_i hs
    rw [List.lookup_append, lookup_cons_eq]
    have hn : m.lookup k = none := Option.not_isSome_iff_eq_none.mp hs
    by_cases hk : k' = k
    · subst hk; simp [hn]
    · simp [hk]

theorem lookup_map_snd (g : β → γ) (k : α) (m : List (α × β)) :
    (m.map (fun p => (p.1, g p.2))).lookup k = (m.lookup k).map g := by
  induction m with
  | nil => rfl
  | cons p m ih =>
    obtain ⟨a, b⟩ := p
    simp only [List.map_cons, lookup_cons_eq, ih]
    split <;> rfl

@[simp] theorem keys_modify (k : α) (f : β → β) (m : List (α × β)) :
    keys (modify k f m) = keys m := by
  induction m with
  | nil => rfl
  | cons p m ih =>
    simp only [modify, List.map_cons, keys_cons] at ih ⊢
    split <;> simp_all

omit [DecidableEq α] in
theorem keys_filter_sublist (q : α × β → Bool) (m : List (α × β)) :
    (keys (m.filter q)).Sublist (keys m) :=
  (List.filter_sublist).map Prod.fst

omit [DecidableEq α] in
theorem nodup_filter {q : α × β → Bool} {m : List (α × β)} (h : (keys m).Nodup) :
    (keys (m.filter q)).Nodup :=
  h.sublist (keys_filter_sublist q m)

theorem nodup_insert {k : α} {v : β} {m : List (α × β)} (h : (keys m).Nodup) :
    (keys (insert k v m)).Nodup := by
  unfold insert
  split
  · simpa using h
  · rename_i hs
    have hk : k ∉ keys m := lookup_eq_none_iff_not_mem_keys.mp (Option.not_isSome_iff_eq_none.mp hs)
    have he : keys (m ++ [(k, v)]) = keys m ++ [k] := by simp [keys]
    rw [he, List.nodup_append]
    exact ⟨h, by simp, fun a ha b hb => by
      rw [List.mem_singleton] at hb; subst hb; rintro rfl; exact hk ha⟩

theorem insert_of_lookup_eq_none {k : α} {v : β} {m : List (α × β)} (h : m.lookup k = none) :
    insert k v m = m ++ [(k, v)] := by
  rw [insert, if_neg (by simp [h])]

theorem mem_insert {k : α} {v : β} {m : List (α × β)} {p : α × β} (h : p ∈ insert k v m) :
    p = (k, v) ∨ p ∈ m := by
  unfold insert at h
  split at h
  · obtain ⟨q, hq, rfl⟩ := List.mem_map.mp h
    split
    · exact .inl (by simp_all)
    · exact .inr hq
  · rcases List.mem_append.mp h with h | h
    · exact .inr h
    · exact .inl (List.mem_singleton.mp h)

theorem mem_keys_insert {k x : α} {v : β} {m : List (α × β)} (h : x ∈ keys (insert k v m)) :
    x = k ∨ x ∈ keys m := by
  obtain ⟨w, hw⟩ := mem_keys_iff.mp h
  rcases mem_insert hw with h | h
  · exact .inl (Prod.mk.inj h).1
  · exact .inr (mem_keys_iff.mpr ⟨w, h⟩)

omit [DecidableEq α] in
theorem not_mem_keys_of_split {s t : List (α × β)} {k : α} {v : β}
    (h : (keys (s ++ (k, v) :: t)).Nodup) : k ∉ keys s ∧ k ∉ keys t := by
  simp only [keys_append, keys_cons, List.nodup_append, List.nodup_cons] at h
  exact ⟨fun hs => h.2.2 _ hs _ List.mem_cons_self rfl, h.2.1.1⟩

theorem modify_of_not_mem_keys {k : α} {f : β → β} {m : List (α × β)} (hk : k ∉ keys m) :
    modify k f m = m := by
  unfold modify
  conv_rhs => rw [← List.map_id m]
  apply List.map_congr_left
  intro p hp
  have hpk : p.1 ≠ k := fun h => hk (h ▸ List.mem_map_of_mem hp)
  simp [hpk]

theorem erase_of_not_mem_keys {k : α} {m : List (α × β)} (hk : k ∉ keys m) : erase k m = m :=
  List.filter_eq_self.mpr fun p hp =>
    decide_eq_true fun hpk : p.1 = k => hk (hpk ▸ List.mem_map_of_mem hp)

theorem erase_split {m : List (α × β)} (h : (keys m).Nodup) {k : α} {v : β} (hm : (k, v) ∈ m) :
    ∃ s t, m = s ++ (k, v) :: t ∧ erase k m = s ++ t := by
  obtain ⟨s, t, rfl⟩ := List.append_of_mem hm
  obtain ⟨hs, ht⟩ := not_mem_keys_of_split h
  refine ⟨s, t, rfl, ?_⟩
  have hs' := erase_of_not_mem_keys hs
  have ht' := erase_of_not_mem_keys ht
  simp only [erase, List.filter_append, List.filter_cons, ne_eq, not_true_eq_false,
    decide_false, Bool.false_eq_true, if_false] at hs' ht' ⊢
  rw [hs', ht']

theorem insert_split {m : List (α × β)} (h : (keys m).Nodup) {k : α} {old : β} (hm : (k, old) ∈ m)
    (v : β) : ∃ s t, m = s ++ (k, old) :: t ∧ insert k v m = s ++ (k, v) :: t ∧
      erase k m = s ++ t := by
  obtain ⟨s, t, rfl, herase⟩ := erase_split h hm
  obtain ⟨hks, hkt⟩ := not_mem_keys_of_split h
  refine ⟨s, t, rfl, ?_, herase⟩
  have hs := modify_of_not_mem_keys (f := fun _ => v) hks
  have ht := modify_of_not_mem_keys (f := fun _ => v) hkt
  have hsome : ((s ++ (k, old) :: t).lookup k).isSome := by
    simp [List.lookup_append, lookup_eq_none_iff_not_mem_keys.mpr hks]
  rw [insert, if_pos hsome]
  unfold modify at hs ht ⊢
  rw [List.map_append, List.map_cons, hs, ht]
  simp

theorem flatMap_perm_of_mem {m : List (α × β)} (h : (keys m).Nodup) {k : α} {v : β}
    (hm : (k, v) ∈ m) (f : α × β → List γ) :
    (m.flatMap f).Perm (f (k, v) ++ (erase k m).flatMap f) := by
  obtain ⟨s, t, rfl, herase⟩ := erase_split h hm
  rw [herase, List.flatMap_append, List.flatMap_cons, List.flatMap_append]
  exact List.perm_append_comm_assoc _ _ _

theorem mem_iff_lookup {m : List (α × β)} (h : (keys m).Nodup) {k : α} {v : β} :
    (k, v) ∈ m ↔ m.lookup k = some v := by
  induction m with
  | nil => simp
  | cons p m ih =>
    obtain ⟨a, b⟩ := p
    simp only [keys_cons, List.nodup_cons] at h
    rw [List.mem_cons, lookup_cons_eq, ih h.2]
    by_cases hk : k = a
    · subst hk
      have hn : m.lookup k = none := lookup_eq_none_iff_not_mem_keys.mpr h.1
      simp [hn, eq_comm]
    · simp [hk]

theorem mem_of_lookup {m : List (α × β)} {k : α} {v : β} (h : m.lookup k = some v) :
    (k, v) ∈ m := by
  induction m with
  | nil => cases h
  | cons p m ih =>
    obtain ⟨a, b⟩ := p
    rw [lookup_cons_eq] at h
    split at h
    · rename_i hk
      cases h; subst hk; exact List.mem_cons_self
    · exact List.mem_cons_of_mem _ (ih h)

theorem mem_keys_of_lookup {m : List (α × β)} {k : α} {v : β} (h : m.lookup k = some v) :
    k ∈ keys m := by
  by_contra hk
  rw [lookup_eq_none_iff_not_mem_keys.mpr hk] at h
  cases h

theorem perm_insert {m : List (α × β)} (h : (keys m).Nodup) (k : α) (v : β) :
    (insert k v m).Perm ((k, v) :: erase k m) := by
  cases hl : m.lookup k with
  | none =>
    rw [insert_of_lookup_eq_none hl, erase_of_not_mem_keys (lookup_eq_none_iff_not_mem_keys.mp hl)]
    exact List.perm_append_singleton _ _
  | some old =>
    obtain ⟨s, t, -, hins, herase⟩ := insert_split h (mem_of_lookup hl) v
    rw [hins, herase]
    exact List.perm_middle

theorem mem_insert_self (k : α) (v : β) (m : List (α × β)) : (k, v) ∈ insert k v m :=
  mem_of_lookup (by rw [lookup_insert, if_pos rfl])

theorem erase_modify (k : α) (f : β → β) (m : List (α × β)) : erase k (modify k f m) = erase k m := by
  induction m with
  | nil => rfl
  | cons p m ih =>
    by_cases hp : p.1 = k
    · simpa [erase, modify, hp] using ih
    · simpa [erase, modify, hp] using ih

theorem erase_insert (k : α) (v : β) (m : List (α × β)) : erase k (insert k v m) = erase k m := by
  unfold insert
  split
  · exact erase_modify k _ m
  · simp [erase, List.filter_append]

theorem erase_map_snd (g : β → γ) (k : α) (m : List (α × β)) :
    erase k (m.map fun p => (p.1, g p.2)) = (erase k m).map fun p => (p.1, g p.2) := by
  simp [erase, List.filter_map, Function.comp_def]

theorem flatMap_insert_perm {m : List (α × β)} (h : (keys m).Nodup) (k : α) (v : β)
    (f : α × β → List γ) :
    ((insert k v m).flatMap f).Perm (f (k, v) ++ (erase k m).flatMap f) := by
  simpa using (perm_insert h k v).flatMap_right f

theorem sum_map_erase {m : List (α × β)} (h : (keys m).Nodup) {k : α} {v : β} (hm : (k, v) ∈ m)
    (g : α × β → Nat) : ((erase k m).map g).sum + g (k, v) = (m.map g).sum := by
  obtain ⟨s, t, rfl, herase⟩ := erase_split h hm
  rw [herase]
  simp only [List.map_append, List.map_cons, List.sum_append, List.sum_cons]
  omega

theorem sum_map_modify {m : List (α × β)} (h : (keys m).Nodup) {k : α} {v : β} (hm : (k, v) ∈ m)
    (f : β → β) (g : α × β → Nat) :
    ((modify k f m).map g).sum + g (k, v) = (m.map g).sum + g (k, f v) := by
  obtain ⟨s, t, rfl, -⟩ := erase_split h hm
  obtain ⟨hks, hkt⟩ := not_mem_keys_of_split h
  have hs := modify_of_not_mem_keys (f := f) hks
  have ht := modify_of_not_mem_keys (f := f) hkt
  unfold modify at hs ht ⊢
  simp only [List.map_append, List.map_cons, hs, ht, if_true, List.sum_append, List.sum_cons]
  omega

theorem sum_map_insert_of_lookup_eq_none {m : List (α × β)} {k : α} {v : β}
    (hl : m.lookup k = none) (g : α × β → Nat) :
    ((insert k v m).map g).sum = (m.map g).sum + g (k, v) := by
  rw [insert_of_lookup_eq_none hl]
  simp

theorem lookup_filter_key (g : α → Bool) (k : α) (m : List (α × β)) :
    (m.filter (fun p => g p.1)).lookup k = if g k then m.lookup k else none := by
  induction m with
  | nil => simp
  | cons p m ih =>
    obtain ⟨a, b⟩ := p
    by_cases ha : g a = true
    · have hf : ((a, b) :: m).filter (fun p => g p.1) = (a, b) :: m.filter (fun p => g p.1) := by
        simp [ha]
      rw [hf, lookup_cons_eq, lookup_cons_eq, ih]
      by_cases hk : k = a
      · subst hk; simp [ha]
      · simp [hk]
    · have hf : ((a, b) :: m).filter (fun p => g p.1) = m.filter (fun p => g p.1) := by
        simp [ha]
      rw [hf, ih, lookup_cons_eq]
      by_cases hk : k = a
      · subst hk; simp [ha]
      · simp [hk]

theorem lookup_filter {m : List (α × β)} (h : (keys m).Nodup) (q : β → Bool) (k : α) :
    (m.filter (fun p => q p.2)).lookup k = (m.lookup k).filter q := by
  have hf := nodup_filter (q := fun p => q p.2) h
  cases hk : m.lookup k with
  | none =>
    show _ = none
    rw [lookup_eq_none_iff_not_mem_keys] at hk ⊢
    exact fun hm => hk ((keys_filter_sublist _ m).subset hm)
  | some v =>
    by_cases hq : q v
    · have he : Option.filter q (some v) = some v := by simp [Option.filter, hq]
      rw [he, ← mem_iff_lookup hf]
      exact List.mem_filter.mpr ⟨(mem_iff_lookup h).mpr hk, hq⟩
    · have he : Option.filter q (some v) = none := by simp [Option.filter, hq]
      rw [he, lookup_eq_none_iff_not_mem_keys, mem_keys_iff]
      rintro ⟨w, hw⟩
      obtain ⟨hwm, hwq⟩ := List.mem_filter.mp hw
      rw [(mem_iff_lookup h).mp hwm, Option.some.injEq] at hk
      subst hk
      exact hq hwq

theorem lookup_append_of_not_mem {pre m : List (α × β)} {k : α} (hk : k ∉ keys pre) :
    (pre ++ m).lookup k = m.lookup k := by
  simp [List.lookup_append, lookup_eq_none_iff_not_mem_keys.mpr hk]

/-! ### Lists sorted by key

A sorted map keeps its entries in ascending key order; `upsert` applies a function to the value
of a key in place, or inserts the key where it belongs, starting from a default value. -/

section Sorted

variable [LT α] [LE α] [Std.IsLinearOrder α] [Std.LawfulOrderLT α] [DecidableRel (α := α) (· < ·)]

def Sorted (m : List (α × β)) : Prop :=
  m.Pairwise fun p q => p.1 < q.1

def upsert (k : α) (d : β) (f : β → β) : List (α × β) → List (α × β)
  | [] => [(k, f d)]
  | (a, b) :: m =>
    if k = a then (a, f b) :: m
    else if k < a then (k, f d) :: (a, b) :: m
    else (a, b) :: upsert k d f m

omit [DecidableRel (α := α) (· < ·)] in
theorem lookup_eq_none_of_lt {a k : α} {b : β} {m : List (α × β)} (hs : Sorted ((a, b) :: m))
    (hk : k < a) : ((a, b) :: m).lookup k = none := by
  rw [lookup_eq_none_iff_not_mem_keys, keys_cons, List.mem_cons]
  rintro (rfl | hm)
  · exact Std.lt_irrefl hk
  · obtain ⟨v, hv⟩ := mem_keys_iff.mp hm
    exact Std.lt_irrefl (Std.lt_trans hk (List.rel_of_pairwise_cons hs hv))

theorem lookup_upsert {m : List (α × β)} (hs : Sorted m) (k k' : α) (d : β) (f : β → β) :
    (upsert k d f m).lookup k' = if k' = k then some (f ((m.lookup k).getD d)) else m.lookup k' := by
  induction m with
  | nil => simp [upsert, lookup_cons_eq]
  | cons p m ih =>
    obtain ⟨a, b⟩ := p
    by_cases hka : k = a
    · subst hka
      simp only [upsert, if_true, lookup_cons_eq]
      split <;> simp_all
    by_cases hlt : k < a
    · rw [upsert, if_neg hka, if_pos hlt, lookup_cons_eq, lookup_eq_none_of_lt hs hlt]
      rfl
    · rw [upsert, if_neg hka, if_neg hlt, lookup_cons_eq, ih (List.Pairwise.of_cons hs),
        lookup_cons_eq, lookup_cons_eq, if_neg hka]
      by_cases hk' : k' = a
      · subst hk'
        simp [Ne.symm hka]
      · simp [hk']

omit [LE α] [Std.IsLinearOrder α] [Std.LawfulOrderLT α] in
theorem mem_keys_upsert {m : List (α × β)} {k x : α} {d : β} {f : β → β}
    (h : x ∈ keys (upsert k d f m)) : x = k ∨ x ∈ keys m := by
  induction m with
  | nil => simpa [upsert] using h
  | cons p m ih =>
    obtain ⟨a, b⟩ := p
    simp only [upsert] at h
    split_ifs at h with hka hlt
    · subst hka
      simpa using h
    · simpa [or_assoc] using h
    · simp only [keys_cons, List.mem_cons] at h ⊢
      rcases h with h | h
      · exact Or.inr (Or.inl h)
      · rcases ih h with h | h
        · exact Or.inl h
        · exact Or.inr (Or.inr h)

theorem sorted_upsert {m : List (α × β)} (hs : Sorted m) (k : α) (d : β) (f : β → β) :
    Sorted (upsert k d f m) := by
  induction m with
  | nil => exact List.pairwise_singleton _ _
  | cons p m ih =>
    obtain ⟨a, b⟩ := p
    have ha : ∀ q ∈ m, a < q.1 := fun q hq => List.rel_of_pairwise_cons hs hq
    simp only [upsert]
    split_ifs with hka hlt
    · subst hka
      exact List.Pairwise.cons (fun q hq => ha q hq) (List.Pairwise.of_cons hs)
    · refine List.Pairwise.cons (fun q hq => ?_) hs
      rcases List.mem_cons.mp hq with rfl | hq
      · exact hlt
      · exact Std.lt_trans hlt (ha q hq)
    · have hak : a < k := Std.lt_of_le_of_ne (Std.not_lt.mp hlt) (Ne.symm hka)
      refine List.Pairwise.cons (fun q hq => ?_) (ih (List.Pairwise.of_cons hs))
      rcases mem_keys_upsert (List.mem_map_of_mem (f := Prod.fst) hq) with h | h
      · exact h ▸ hak
      · obtain ⟨v, hv⟩ := mem_keys_iff.mp h
        exact ha (q.1, v) hv

omit [LE α] [Std.IsLinearOrder α] [Std.LawfulOrderLT α] [DecidableRel (α := α) (· < ·)] in
theorem sorted_modify {m : List (α × β)} (hs : Sorted m) (k : α) (f : β → β) :
    Sorted (modify k f m) := by
  have hk : (keys (modify k f m)).Pairwise (· < ·) := by
    rw [keys_modify]
    exact List.pairwise_map.mpr hs
  exact List.pairwise_map.mp hk

omit [LE α] [Std.IsLinearOrder α] [Std.LawfulOrderLT α] [DecidableRel (α := α) (· < ·)] in
theorem sorted_erase {m : List (α × β)} (hs : Sorted m) (k : α) : Sorted (erase k m) :=
  hs.sublist List.filter_sublist

omit [DecidableEq α] [DecidableRel (α := α) (· < ·)] in
theorem Sorted.head_le {a : α} {b : β} {m : List (α × β)} (hs : Sorted ((a, b) :: m)) {k : α}
    (hk : k ∈ keys ((a, b) :: m)) : a ≤ k := by
  rcases List.mem_cons.mp hk with rfl | hk
  · exact Std.le_refl _
  · obtain ⟨v, hv⟩ := mem_keys_iff.mp hk
    exact Std.le_of_lt (List.rel_of_pairwise_cons hs hv)

end Sorted

end Tikv.Lib.AssocList
