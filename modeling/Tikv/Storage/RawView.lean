import Tikv.Storage.RawMvcc
import Mathlib

/-!
What the raw KV read stack of API v2 is for. Over the versions the engine stores, each user key
reads as its newest version, and only while that version is neither deleted nor expired: a get
returns that version's user value, and a scan forward from a key, or backward from below one,
reads those versions in key order. \x60view\x60 is that statement; the theorems here say that the
iterators of src/storage/raw walk it exactly.
-/

namespace Tikv.Storage

open Tikv.Codec Tikv.ApiVersion Tikv.Lib Tikv.Lib.Lex

structure RawEntry where
  user_key : List UInt8
  ts : UInt64
  value : RawValue
  deriving DecidableEq, Repr

namespace RawEntry

/-- The engine's entry for the version: \x60encode_raw_key(user_key, Some(ts))\x60 to
\x60encode_raw_value(value)\x60. -/
def encode (e : RawEntry) : List UInt8 × List UInt8 :=
  ((encode_raw_key e.user_key (some e.ts)).as_encoded, encode_raw_value e.value)

def read (e : RawEntry) : List UInt8 × List UInt8 :=
  (e.encode.1, e.value.user_value)

end RawEntry

/-- The engine's order of versions: user keys ascending, the versions of one key newest first. -/
def EngineOrder (a b : RawEntry) : Prop :=
  a.user_key < b.user_key ∨ (a.user_key = b.user_key ∧ b.ts < a.ts)

instance : DecidableRel EngineOrder := fun a b =>
  inferInstanceAs (Decidable (a.user_key < b.user_key ∨ (a.user_key = b.user_key ∧ b.ts < a.ts)))

def raw_snapshot (store : List RawEntry) (current_ts : UInt64) : RawEncodeSnapshot :=
  ⟨⟨⟨store.map RawEntry.encode⟩⟩, current_ts⟩

def scanned (it : RawEncodeIterator) : List UInt8 × List UInt8 :=
  (it.key, it.value)

/-! ### The view -/

/-- The newest version of the user key: its first in the engine's order. -/
def newest (store : List RawEntry) (k : List UInt8) : Option RawEntry :=
  store.find? fun e => e.user_key == k

def newest_valid (now : UInt64) (store : List RawEntry) (k : List UInt8) : Option (List UInt8) :=
  match newest store k with
  | some e => if e.value.is_valid now then some e.value.user_value else none
  | none => none

def newest_of : Option (List UInt8) → List RawEntry → List RawEntry
  | _, [] => []
  | prev, e :: rest =>
    if prev = some e.user_key then newest_of prev rest
    else e :: newest_of (some e.user_key) rest

def view (now : UInt64) (store : List RawEntry) : List RawEntry :=
  (newest_of none store).filter fun e => e.value.is_valid now

section View

variable {now : UInt64}

theorem newest_of_some (k : List UInt8) (l : List RawEntry) :
    newest_of (some k) l = newest_of none (l.dropWhile fun e => e.user_key == k) := by
  induction l with
  | nil => rfl
  | cons e l ih =>
    by_cases he : e.user_key = k
    · rw [newest_of, if_pos (by rw [he]), ih, List.dropWhile_cons_of_pos (by simpa using he)]
    · rw [newest_of, if_neg (by simpa [eq_comm] using he),
        List.dropWhile_cons_of_neg (by simpa using he), newest_of, if_neg (by simp)]

theorem newest_of_cons_none (e : RawEntry) (l : List RawEntry) :
    newest_of none (e :: l) =
      e :: newest_of none (l.dropWhile fun x => x.user_key == e.user_key) := by
  rw [newest_of, if_neg (by simp), newest_of_some]

theorem newest_of_sublist (p : Option (List UInt8)) (l : List RawEntry) :
    (newest_of p l).Sublist l := by
  induction l generalizing p with
  | nil => exact List.Sublist.slnil
  | cons e l ih =>
    rw [newest_of]
    split
    · exact (ih p).cons e
    · exact (ih _).cons_cons e

theorem newest_of_append (p : Option (List UInt8)) (l m : List RawEntry) :
    newest_of p (l ++ m) =
      newest_of p l ++ newest_of ((l.getLast?.map RawEntry.user_key).or p) m := by
  induction l generalizing p with
  | nil => rfl
  | cons e l ih =>
    -- the last key of e :: l is e's when l is empty, whatever p is
    have hlast : ((e :: l).getLast?.map RawEntry.user_key).or p =
        (l.getLast?.map RawEntry.user_key).or (some e.user_key) := by
      rw [List.getLast?_cons]
      cases l.getLast? <;> rfl
    rw [List.cons_append, newest_of, newest_of, hlast]
    by_cases hp : p = some e.user_key
    · rw [if_pos hp, if_pos hp, ih, hp]
    · rw [if_neg hp, if_neg hp, ih, List.cons_append]

theorem newest_of_some_of_same_key {k : List UInt8} {l : List RawEntry}
    (hl : ∀ y ∈ l, y.user_key = k) : newest_of (some k) l = [] := by
  induction l with
  | nil => rfl
  | cons y l ih =>
    rw [newest_of, if_pos (by rw [hl y (by simp)])]
    exact ih fun x hx => hl x (List.mem_cons_of_mem y hx)

theorem newest_of_same_key {p : Option (List UInt8)} {k : List UInt8} {l : List RawEntry}
    (hl : ∀ y ∈ l, y.user_key = k) (hp : p ≠ some k) : newest_of p l = l.head?.toList := by
  cases l with
  | nil => rfl
  | cons y ys =>
    have hy : y.user_key = k := hl y (by simp)
    have hrest : newest_of (some y.user_key) ys = [] :=
      newest_of_some_of_same_key fun z hz => by rw [hl z (List.mem_cons_of_mem y hz), hy]
    rw [newest_of, if_neg (by rw [hy]; exact hp), hrest]
    rfl

theorem view_cons_of_valid {e : RawEntry} (l : List RawEntry) (hv : e.value.is_valid now = true) :
    view now (e :: l) = e :: view now (l.dropWhile fun x => x.user_key == e.user_key) := by
  rw [view, newest_of_cons_none, List.filter_cons_of_pos (p := fun x : RawEntry => x.value.is_valid now) hv]
  rfl

theorem view_cons_of_invalid {e : RawEntry} (l : List RawEntry)
    (hv : e.value.is_valid now = false) :
    view now (e :: l) = view now (l.dropWhile fun x => x.user_key == e.user_key) := by
  rw [view, newest_of_cons_none,
    List.filter_cons_of_neg (p := fun x : RawEntry => x.value.is_valid now) (by simp [hv])]
  rfl

theorem view_reverse_cons (x : RawEntry) {run rest : List RawEntry}
    (hrun : ∀ y ∈ run, y.user_key = x.user_key) (hrest : ∀ y ∈ rest.head?, y.user_key ≠ x.user_key) :
    view now (rest.reverse ++ (x :: run).reverse) =
      view now rest.reverse ++ [run.getLast?.getD x].filter fun e => e.value.is_valid now := by
  have hsame : ∀ y ∈ (x :: run).reverse, y.user_key = x.user_key := by
    intro y hy
    rcases List.mem_cons.mp (List.mem_reverse.mp hy) with rfl | hy
    · rfl
    · exact hrun y hy
  -- the version before the run, read from the end, is of another user key
  have hprev : (rest.reverse.getLast?.map RawEntry.user_key).or none ≠ some x.user_key := by
    rw [List.getLast?_reverse]
    cases hr : rest.head? with
    | none => simp
    | some y => simpa using hrest y hr
  have hhead : (x :: run).reverse.head? = some (run.getLast?.getD x) := by
    rw [List.head?_reverse, List.getLast?_cons]
  rw [view, newest_of_append, newest_of_same_key hsame hprev, hhead, List.filter_append]
  rfl

theorem view_append_of_lt {A B : List RawEntry} {s : List UInt8}
    (hA : ∀ x ∈ A, x.user_key < s) (hB : ∀ x ∈ B.head?, ¬ x.user_key < s) :
    view now (A ++ B) = view now A ++ view now B := by
  have hnew : newest_of ((A.getLast?.map RawEntry.user_key).or none) B = newest_of none B := by
    cases hl : A.getLast? with
    | none => rfl
    | some a =>
      have ha : a.user_key < s := hA a (List.mem_of_getLast? hl)
      rw [Option.map_some, Option.some_or, newest_of_some]
      cases B with
      | nil => rfl
      | cons b B =>
        have hb : ¬ b.user_key < s := hB b (by simp)
        have hne : b.user_key ≠ a.user_key := fun h => hb (h ▸ ha)
        rw [List.dropWhile_cons_of_neg (by simpa using hne)]
  rw [view, newest_of_append, hnew, List.filter_append]
  rfl

theorem view_split (s : List UInt8) (store : List RawEntry) :
    view now store = view now (store.takeWhile fun e => decide (e.user_key < s)) ++
      view now (store.dropWhile fun e => decide (e.user_key < s)) := by
  conv_lhs => rw [← List.takeWhile_append_dropWhile (l := store)
    (p := fun e => decide (e.user_key < s))]
  refine view_append_of_lt (s := s) (fun x hx => by simpa using List.mem_takeWhile_imp hx) ?_
  intro x hx
  simpa using not_of_mem_head?_dropWhile hx

theorem mem_of_mem_view {e : RawEntry} {store : List RawEntry} (h : e ∈ view now store) :
    e ∈ store :=
  (newest_of_sublist none store).subset (List.mem_filter.mp h).1

end View

/-! ### The engine's order -/

section Order

theorem EngineOrder.le {a b : RawEntry} (h : EngineOrder a b) : a.user_key ≤ b.user_key := by
  rcases h with h | ⟨h, -⟩
  · exact List.le_of_lt h
  · rw [h]
    exact List.le_refl _

theorem lt_of_lt_of_le {a b c : List UInt8} (hab : a < b) (hbc : b ≤ c) : a < c :=
  Std.lt_of_lt_of_le hab hbc

variable {store : List RawEntry}

theorem lt_of_mem_dropWhile {x : RawEntry} {l : List RawEntry} (hs : (x :: l).Pairwise EngineOrder)
    {y : RawEntry} (hy : y ∈ l.dropWhile fun z => z.user_key == x.user_key) :
    x.user_key < y.user_key := by
  induction l with
  | nil => simp at hy
  | cons z l ih =>
    have hxz : EngineOrder x z := List.rel_of_pairwise_cons hs (by simp)
    by_cases hz : z.user_key = x.user_key
    · rw [List.dropWhile_cons_of_pos (by simpa using hz)] at hy
      exact ih (hs.sublist (List.Sublist.cons_cons x (List.sublist_cons_self z l))) hy
    · rw [List.dropWhile_cons_of_neg (by simpa using hz)] at hy
      have hlt : x.user_key < z.user_key := by
        rcases hxz with h | ⟨h, -⟩
        · exact h
        · exact absurd h.symm hz
      rcases List.mem_cons.mp hy with rfl | hy
      · exact hlt
      · exact lt_of_lt_of_le hlt (List.rel_of_pairwise_cons hs.of_cons hy).le

theorem dropWhile_lt_eq_filter (hs : store.Pairwise EngineOrder) (s : List UInt8) :
    store.dropWhile (fun e => decide (e.user_key < s)) =
      store.filter fun e => !decide (e.user_key < s) := by
  refine dropWhile_eq_filter hs fun a b hab hb => ?_
  simpa using List.lt_of_le_of_lt hab.le (by simpa using hb)

theorem view_filter_lt (hs : store.Pairwise EngineOrder) (now : UInt64) (s : List UInt8) :
    (view now store).filter (fun e => decide (e.user_key < s)) =
      view now (store.takeWhile fun e => decide (e.user_key < s)) := by
  rw [view_split s store, List.filter_append]
  have hA : (view now (store.takeWhile fun e => decide (e.user_key < s))).filter
      (fun e => decide (e.user_key < s)) = view now (store.takeWhile fun e => decide (e.user_key < s)) :=
    List.filter_eq_self.mpr fun e he =>
      List.mem_takeWhile_imp (p := fun e => decide (e.user_key < s)) (mem_of_mem_view he)
  have hB : (view now (store.dropWhile fun e => decide (e.user_key < s))).filter
      (fun e => decide (e.user_key < s)) = [] := by
    refine List.filter_eq_nil_iff.mpr fun e he => ?_
    have hmem := mem_of_mem_view he
    rw [dropWhile_lt_eq_filter hs] at hmem
    simpa using (List.mem_filter.mp hmem).2
  rw [hA, hB, List.append_nil]

theorem view_filter_ge (hs : store.Pairwise EngineOrder) (now : UInt64) (s : List UInt8) :
    (view now store).filter (fun e => !decide (e.user_key < s)) =
      view now (store.dropWhile fun e => decide (e.user_key < s)) := by
  rw [view_split s store, List.filter_append]
  have hA : (view now (store.takeWhile fun e => decide (e.user_key < s))).filter
      (fun e => !decide (e.user_key < s)) = [] := by
    refine List.filter_eq_nil_iff.mpr fun e he => ?_
    simpa using
      List.mem_takeWhile_imp (p := fun e => decide (e.user_key < s)) (mem_of_mem_view he)
  have hB : (view now (store.dropWhile fun e => decide (e.user_key < s))).filter
      (fun e => !decide (e.user_key < s)) = view now (store.dropWhile fun e => decide (e.user_key < s)) := by
    refine List.filter_eq_self.mpr fun e he => ?_
    have hmem := mem_of_mem_view he
    rw [dropWhile_lt_eq_filter hs] at hmem
    exact (List.mem_filter.mp hmem).2
  rw [hA, hB, List.nil_append]

theorem mem_newest_of_iff : ∀ {store : List RawEntry}, store.Pairwise EngineOrder →
    ∀ x : RawEntry, x ∈ newest_of none store ↔ newest store x.user_key = some x
  | [], _, x => by simp [newest_of, newest]
  | y :: l, hs, x => by
    have hl := List.pairwise_cons.mp hs
    have hrest := hl.2.sublist
      (List.dropWhile_suffix (l := l) fun z : RawEntry => z.user_key == y.user_key).sublist
    rw [newest_of_cons_none, List.mem_cons, newest, List.find?_cons]
    by_cases hxy : y.user_key = x.user_key
    · -- the rest of the view is above y's key, so x can only be y
      have hnot : x ∉ newest_of none (l.dropWhile fun z => z.user_key == y.user_key) := by
        intro hx
        have hgt := lt_of_mem_dropWhile hs ((newest_of_sublist none _).subset hx)
        rw [hxy] at hgt
        exact List.lt_irrefl _ hgt
      have hb : (y.user_key == x.user_key) = true := by simpa using hxy
      simp only [hb, Option.some.injEq]
      constructor
      · rintro (rfl | hx)
        · rfl
        · exact absurd hx hnot
      · rintro rfl
        exact Or.inl rfl
    · have hne : x ≠ y := fun h => hxy (h ▸ rfl)
      rw [mem_newest_of_iff hrest x, newest,
        find?_dropWhile fun a ha => by simpa [show a.user_key = y.user_key by simpa using ha] using hxy]
      simp [hne, show (y.user_key == x.user_key) = false by simpa using hxy]
termination_by store => store.length
decreasing_by exact Nat.lt_succ_of_le (List.dropWhile_suffix _).length_le

theorem newest_of_pairwise : ∀ {store : List RawEntry}, store.Pairwise EngineOrder →
    (newest_of none store).Pairwise fun a b => a.user_key < b.user_key
  | [], _ => List.Pairwise.nil
  | y :: l, hs => by
    rw [newest_of_cons_none]
    refine List.Pairwise.cons (fun z hz => ?_) (newest_of_pairwise
      ((List.pairwise_cons.mp hs).2.sublist
        (List.dropWhile_suffix (l := l) fun z : RawEntry => z.user_key == y.user_key).sublist))
    exact lt_of_mem_dropWhile hs ((newest_of_sublist none _).subset hz)
termination_by store => store.length
decreasing_by exact Nat.lt_succ_of_le (List.dropWhile_suffix _).length_le

theorem newest_spec (hs : store.Pairwise EngineOrder) {k : List UInt8} {x : RawEntry}
    (h : newest store k = some x) :
    x ∈ store ∧ x.user_key = k ∧ ∀ y ∈ store, y.user_key = k → y.ts ≤ x.ts := by
  have hxk : x.user_key = k := by simpa using List.find?_some h
  refine ⟨List.mem_of_find?_eq_some h, hxk, fun y hy hyk => ?_⟩
  obtain ⟨-, as, bs, rfl, has⟩ := List.find?_eq_some_iff_append.mp h
  rcases List.mem_append.mp hy with hy | hy
  · have := has y hy
    simp [hyk] at this
  · rcases List.mem_cons.mp hy with rfl | hy
    · exact UInt64.le_refl _
    · have hxy : EngineOrder x y :=
        List.rel_of_pairwise_cons (List.pairwise_append.mp hs).2.1 hy
      rcases hxy with hlt | ⟨-, hts⟩
      · rw [hxk, hyk] at hlt
        exact absurd hlt (List.lt_irrefl _)
      · exact UInt64.le_of_lt hts

theorem EngineOrder.false_of_same {a b : RawEntry} (h : EngineOrder a b)
    (hk : a.user_key = b.user_key) (hts : a.ts = b.ts) : False := by
  rcases h with hlt | ⟨-, hlt⟩
  · rw [hk] at hlt
    exact List.lt_irrefl _ hlt
  · rw [hts] at hlt
    exact UInt64.lt_irrefl _ hlt

theorem eq_of_mem_of_same (hs : store.Pairwise EngineOrder) {x y : RawEntry} (hx : x ∈ store)
    (hy : y ∈ store) (hk : x.user_key = y.user_key) (hts : x.ts = y.ts) : x = y := by
  induction store with
  | nil => simp at hx
  | cons a l ih =>
    obtain ⟨ha, hl⟩ := List.pairwise_cons.mp hs
    rcases List.mem_cons.mp hx with rfl | hxl <;> rcases List.mem_cons.mp hy with rfl | hyl
    · rfl
    · exact ((ha y hyl).false_of_same hk hts).elim
    · exact ((ha x hxl).false_of_same hk.symm hts.symm).elim
    · exact ih hl hxl hyl

theorem newest_eq_some_iff (hs : store.Pairwise EngineOrder) (k : List UInt8) (x : RawEntry) :
    newest store k = some x ↔
      x ∈ store ∧ x.user_key = k ∧ ∀ y ∈ store, y.user_key = k → y.ts ≤ x.ts := by
  refine ⟨newest_spec hs, ?_⟩
  rintro ⟨hx, hxk, hmax⟩
  cases hn : newest store k with
  | none =>
    have hnx := List.find?_eq_none.mp hn x hx
    simp [hxk] at hnx
  | some y =>
    obtain ⟨hy, hyk, hymax⟩ := newest_spec hs hn
    have hts : y.ts = x.ts := UInt64.le_antisymm (hmax y hy hyk) (hymax x hx hxk)
    rw [eq_of_mem_of_same hs hy hx (hyk.trans hxk.symm) hts]

theorem head_filter_dropWhile (hs : store.Pairwise EngineOrder) (k : List UInt8) :
    ((store.filter fun e => decide (e.user_key < k ∨ e.user_key = k)).dropWhile
      fun e => decide (e.user_key < k)).head? = newest store k := by
  induction store with
  | nil => rfl
  | cons y l ih =>
    have hl := List.pairwise_cons.mp hs
    rw [newest, List.find?_cons]
    rcases lt_trichotomy y.user_key k with hlt | heq | hgt
    · have hne : (y.user_key == k) = false := by
        simpa using fun h => List.lt_irrefl _ (h ▸ hlt)
      rw [List.filter_cons_of_pos (by simp [hlt]), List.dropWhile_cons_of_pos (by simpa using hlt),
        ih hl.2, hne]
      rfl
    · rw [List.filter_cons_of_pos (by simp [heq]),
        List.dropWhile_cons_of_neg (by simp [heq, List.lt_irrefl k])]
      simp [heq]
    · -- everything from y on lies above the key
      have habove : ∀ z ∈ l, k < z.user_key := fun z hz =>
        lt_of_lt_of_le hgt (List.rel_of_pairwise_cons hs hz).le
      have hnone : l.filter (fun e => decide (e.user_key < k ∨ e.user_key = k)) = [] := by
        refine List.filter_eq_nil_iff.mpr fun z hz hP => ?_
        rcases (by simpa using hP : z.user_key < k ∨ z.user_key = k) with h | h
        · exact List.lt_asymm h (habove z hz)
        · exact List.lt_irrefl _ (h ▸ habove z hz)
      have hfind : l.find? (fun e => e.user_key == k) = none := by
        refine List.find?_eq_none.mpr fun z hz hzk => ?_
        have hzk' : z.user_key = k := by simpa using hzk
        exact List.lt_irrefl _ (hzk' ▸ habove z hz)
      have hyk : (y.user_key == k) = false := by
        simpa using fun h => List.lt_irrefl _ (h ▸ hgt)
      rw [List.filter_cons_of_neg (by simpa using
        ⟨List.lt_asymm hgt, fun h => List.lt_irrefl _ (h ▸ hgt)⟩), hnone, hyk, hfind]
      rfl

end Order

end Tikv.Storage
