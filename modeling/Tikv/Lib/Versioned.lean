import Mathlib

/-!
Multi-version entries in the order of a key-value engine: `(key, version, value)` by key
ascending and, within one key, by version descending, which is how the encoded keys
`key{version}` sort when the version is stored complemented. A column lays the versions of each
key of a sorted map end to end. Seeking `key{version}` skips what sorts below it: in a column it
lands on the versions of `key` at or below `version`, or else on the first entry of the next key.
-/

namespace Tikv.Lib.Versioned

variable {K V S : Type}

def versions (k : K) (ws : List (Nat × V)) : List (K × Nat × V) :=
  ws.map fun p => (k, p)

def column (f : S → List (Nat × V)) (m : List (K × S)) : List (K × Nat × V) :=
  m.flatMap fun p => versions p.1 (f p.2)

@[simp]
theorem versions_nil (k : K) : versions k ([] : List (Nat × V)) = [] := rfl

@[simp]
theorem versions_cons (k : K) (p : Nat × V) (ws : List (Nat × V)) :
    versions k (p :: ws) = (k, p) :: versions k ws := rfl

@[simp]
theorem length_versions (k : K) (ws : List (Nat × V)) : (versions k ws).length = ws.length :=
  List.length_map _

@[simp]
theorem column_nil (f : S → List (Nat × V)) : column f ([] : List (K × S)) = [] := rfl

@[simp]
theorem column_cons (f : S → List (Nat × V)) (k : K) (s : S) (m : List (K × S)) :
    column f ((k, s) :: m) = versions k (f s) ++ column f m := rfl

theorem column_append (f : S → List (Nat × V)) (m m' : List (K × S)) :
    column f (m ++ m') = column f m ++ column f m' :=
  List.flatMap_append

theorem mem_column {f : S → List (Nat × V)} {m : List (K × S)} {e : K × Nat × V}
    (he : e ∈ column f m) : ∃ s, (e.1, s) ∈ m := by
  obtain ⟨p, hp, he⟩ := List.mem_flatMap.mp he
  obtain ⟨q, -, rfl⟩ := List.mem_map.mp he
  exact ⟨p.2, hp⟩

theorem filter_versions (k : K) (ws : List (Nat × V)) (q : K → Bool) :
    (versions k ws).filter (fun e => q e.1) = if q k then versions k ws else [] := by
  by_cases hk : q k <;> simp [versions, List.filter_map, Function.comp_def, hk]

theorem column_filter (f : S → List (Nat × V)) (m : List (K × S)) (q : K → Bool) :
    (column f m).filter (fun e => q e.1) = column f (m.filter fun p => q p.1) := by
  induction m with
  | nil => rfl
  | cons p m ih =>
    obtain ⟨k, s⟩ := p
    rw [column_cons, List.filter_append, ih, filter_versions]
    by_cases hk : q k <;> simp [hk]

theorem find?_dropWhile_of_find? {α : Type} {p q : α → Bool} {l : List α}
    (h : ∀ a ∈ l.find? q, p a = false) : (l.dropWhile p).find? q = l.find? q := by
  induction l with
  | nil => rfl
  | cons x xs ih =>
    by_cases hp : p x
    · have hq : q x = false := by
        by_contra hq
        have := h x (by simp [hq])
        simp [hp] at this
      rw [List.find?_cons_of_neg (by simp [hq])] at h ⊢
      rw [List.dropWhile_cons_of_pos hp, ih h]
    · rw [List.dropWhile_cons_of_neg hp]

theorem lookup_map_pair {α β γ : Type} [DecidableEq α] [DecidableEq β] (a : α) (b : β) (a' : α)
    (ds : List (β × γ)) :
    List.lookup (a, b) (ds.map fun d => ((a', d.1), d.2)) =
      if a' = a then List.lookup b ds else none := by
  induction ds with
  | nil => simp
  | cons d ds ih =>
    obtain ⟨b', v⟩ := d
    simp only [List.map_cons, List.lookup_cons, ih]
    by_cases ha : a = a'
    · subst ha
      by_cases hb : b = b'
      · simp [hb]
      · have h1 : ((a, b) == (a, b')) = false := by simp [hb]
        have h2 : (b == b') = false := by simp [hb]
        simp [h1, h2]
    · have h1 : ((a, b) == (a', b')) = false := by simp [ha]
      simp [h1, Ne.symm ha]

section Order

variable [LinearOrder K]

def lt_key (e : K × Nat × V) (k : K) (t : Nat) : Bool :=
  decide (e.1 < k) || (decide (e.1 = k) && decide (t < e.2.1))

@[simp]
theorem lt_key_self (k : K) (p : Nat × V) (t : Nat) : lt_key (k, p) k t = decide (t < p.1) := by
  simp [lt_key]

theorem lt_key_of_lt {e : K × Nat × V} {k : K} (h : e.1 < k) (t : Nat) : lt_key e k t = true := by
  simp [lt_key, h]

theorem lt_key_of_gt {e : K × Nat × V} {k : K} (h : k < e.1) (t : Nat) : lt_key e k t = false := by
  simp [lt_key, not_lt.mpr h.le, ne_of_gt h]

theorem dropWhile_versions (k : K) (ws : List (Nat × V)) (t : Nat) :
    (versions k ws).dropWhile (lt_key · k t) = versions k (ws.dropWhile fun p => decide (t < p.1)) := by
  induction ws with
  | nil => rfl
  | cons p ws ih =>
    by_cases hp : t < p.1
    · rw [versions_cons, List.dropWhile_cons_of_pos (by simpa using hp), ih,
        List.dropWhile_cons_of_pos (by simpa using hp)]
    · rw [versions_cons, List.dropWhile_cons_of_neg (by simpa using hp),
        List.dropWhile_cons_of_neg (by simpa using hp), versions_cons]

theorem dropWhile_of_gt {l : List (K × Nat × V)} {k : K} (h : ∀ e ∈ l.head?, k < e.1) (t : Nat) :
    l.dropWhile (lt_key · k t) = l := by
  cases l with
  | nil => rfl
  | cons e l => rw [List.dropWhile_cons_of_neg (by simp [lt_key_of_gt (h e rfl)])]

theorem dropWhile_append_of_lt {pre l : List (K × Nat × V)} {k : K} (h : ∀ e ∈ pre, e.1 < k)
    (t : Nat) : (pre ++ l).dropWhile (lt_key · k t) = l.dropWhile (lt_key · k t) := by
  induction pre with
  | nil => rfl
  | cons e pre ih =>
    rw [List.cons_append, List.dropWhile_cons_of_pos (p := (lt_key · k t))
      (lt_key_of_lt (h e List.mem_cons_self) t)]
    exact ih fun x hx => h x (List.mem_cons_of_mem e hx)

section Sorted

variable {f : S → List (Nat × V)}

theorem column_keys_gt {m : List (K × S)} {k : K} (h : ∀ p ∈ m, k < p.1) :
    ∀ e ∈ column f m, k < e.1 := by
  intro e he
  obtain ⟨s, hs⟩ := mem_column he
  exact h (e.1, s) hs

theorem column_keys_lt {m : List (K × S)} {k : K} (h : ∀ p ∈ m, p.1 < k) :
    ∀ e ∈ column f m, e.1 < k := by
  intro e he
  obtain ⟨s, hs⟩ := mem_column he
  exact h (e.1, s) hs

theorem dropWhile_column {pre rest : List (K × S)} {k : K} {s : S}
    (hs : (pre ++ (k, s) :: rest).Pairwise fun a b => a.1 < b.1) (t : Nat) :
    (column f (pre ++ (k, s) :: rest)).dropWhile (lt_key · k t) =
      versions k ((f s).dropWhile fun p => decide (t < p.1)) ++ column f rest := by
  have hpre : ∀ p ∈ pre, p.1 < k := fun p hp =>
    (List.pairwise_append.mp hs).2.2 p hp (k, s) List.mem_cons_self
  have hrest : ∀ p ∈ rest, k < p.1 := fun p hp =>
    List.rel_of_pairwise_cons (List.pairwise_append.mp hs).2.1 hp
  rw [column_append, dropWhile_append_of_lt (column_keys_lt hpre) t, column_cons, List.dropWhile_append,
    dropWhile_versions]
  split
  · rename_i hnil
    rw [List.isEmpty_iff.mp hnil, List.nil_append]
    exact dropWhile_of_gt (fun e he => column_keys_gt hrest e (List.mem_of_mem_head? he)) t
  · rfl

end Sorted

end Order

end Tikv.Lib.Versioned
