import Tikv.Util.Lru

/-!
What keeps the LRU cache of `lru.rs` sound. The trace runs from its head sentinel through one
record per entry of the map to its tail sentinel (`Trace.Spans`), each entry's record holds the
entry's key, and the count of the size policy is the map's length, at most the capacity
(`LruCache.Wf`). The entries are taken in the order of the trace, most recently used first.
Every call keeps this, so the `unwrap`s and the reads of a key from the tail's record never
fail on a reachable cache.
-/

namespace Tikv.Util

open Tikv.Lib.DList
open Tikv.Lib.AssocList (keys)

namespace Trace

variable {K : Type}

/-- The records between the sentinels, read from the head by following `next`. -/
def records (t : Trace K) : List Nat := walk t.heap t.tail t.next_alloc (t.heap t.head).next

/-- The trace runs from its head through `cells` to its tail, all of them distinct and
allocated. -/
structure Spans (t : Trace K) (cells : List Nat) : Prop where
  linked : Linked t.heap (t.head :: (cells ++ [t.tail]))
  nodup : (t.head :: (cells ++ [t.tail])).Nodup
  allocated : ∀ x ∈ t.head :: (cells ++ [t.tail]), x < t.next_alloc

variable {t : Trace K} {cells A B : List Nat} {r : Nat}

theorem Spans.head_not_mem (hs : t.Spans cells) : t.head ∉ cells := by
  have := hs.nodup
  simp_all [List.nodup_cons]

theorem Spans.tail_not_mem (hs : t.Spans cells) : t.tail ∉ cells := by
  have := hs.nodup
  simp only [List.nodup_cons, List.nodup_append, List.mem_append, List.mem_singleton] at this
  exact fun h => this.2.2.2 _ h _ rfl rfl

theorem Spans.cells_nodup (hs : t.Spans cells) : cells.Nodup :=
  (List.nodup_cons.mp hs.nodup).2.sublist (List.sublist_append_left _ _)

theorem Spans.records_eq (hs : t.Spans cells) : t.records = cells := by
  have hlen : (t.head :: (cells ++ [t.tail])).length ≤ t.next_alloc :=
    length_le_of_nodup hs.nodup hs.allocated
  have hnext : (t.heap t.head).next = cells.headD t.tail := by
    have hl := hs.linked
    cases cells with
    | nil => exact (List.isChain_cons_cons.mp hl).1.1
    | cons x cells => exact (List.isChain_cons_cons.mp hl).1.1
  rw [records, hnext]
  exact walk_eq (List.IsChain.tail hs.linked) hs.tail_not_mem (by simp at hlen; omega)

theorem Spans.tail_prev (hs : t.Spans (A ++ [r])) : (t.heap t.tail).prev = r := by
  have hl := hs.linked
  rw [show t.head :: (A ++ [r] ++ [t.tail]) = (t.head :: A) ++ [r, t.tail] by simp] at hl
  exact hl.prev_last

/-- A relinked heap that spans part of the records, in any order, keeps the invariant. -/
theorem Spans.relink {cells' : List Nat} {heap : Nat → Record K} (hs : t.Spans cells)
    (hl : Linked heap (t.head :: (cells' ++ [t.tail]))) (hsub : cells' ⊆ cells)
    (hnd : cells'.Nodup) : Spans { t with heap } cells' := by
  have hnd₀ := hs.nodup
  simp only [List.nodup_cons, List.mem_append, List.mem_singleton, not_or,
    List.nodup_append] at hnd₀
  refine ⟨hl, ?_, fun x hx => hs.allocated x ?_⟩
  · simp only [List.nodup_cons, List.mem_append, List.mem_singleton, not_or, List.nodup_append]
    exact ⟨⟨fun h => hs.head_not_mem (hsub h), hnd₀.1.2⟩, hnd, by simp,
      fun a ha b hb hab => hs.tail_not_mem (by rw [← hb, ← hab]; exact hsub ha)⟩
  · simp only [List.mem_cons, List.mem_append] at hx ⊢
    rcases hx with hx | hx | hx
    · exact .inl hx
    · exact .inr (.inl (hsub hx))
    · exact .inr (.inr hx)

theorem Spans.tick {n : Nat} (hs : t.Spans cells) : Spans { t with tick := n } cells :=
  ⟨hs.linked, hs.nodup, hs.allocated⟩

theorem Spans.set_val {x : Nat} {v : Option K} (hs : t.Spans cells) :
    Spans { t with heap := Function.update t.heap x { t.heap x with val := v } } cells := by
  have hframe : ∀ y, (Function.update t.heap x { t.heap x with val := v } y).next =
      (t.heap y).next ∧ (Function.update t.heap x { t.heap x with val := v } y).prev =
      (t.heap y).prev := by
    intro y
    by_cases hy : y = x
    · subst hy; simp
    · simp [hy]
  exact ⟨hs.linked.frame (fun y _ => (hframe y).1) (fun y _ => (hframe y).2), hs.nodup,
    hs.allocated⟩

theorem Spans.linked_cut_out (hs : t.Spans (A ++ r :: B)) :
    Linked (cut_out t.heap r) (t.head :: (A ++ B ++ [t.tail])) := by
  have hl := hs.linked
  have hnd := hs.nodup
  rw [show t.head :: (A ++ r :: B ++ [t.tail]) = (t.head :: A) ++ r :: (B ++ [t.tail]) by simp]
    at hl hnd
  have hcut := hl.cut hnd (List.cons_ne_nil _ _) (by simp)
  simpa [cut_out, suture] using hcut

theorem Spans.delete (hs : t.Spans (A ++ r :: B)) : (t.delete r).Spans (A ++ B) :=
  hs.relink hs.linked_cut_out (fun x hx => by simp at hx ⊢; tauto)
    (List.nodup_cons.mp (List.nodup_middle.mp hs.cells_nodup)).2

theorem Spans.promote (hs : t.Spans (A ++ r :: B)) : (t.promote r).Spans (r :: (A ++ B)) := by
  have hnd := hs.nodup
  rw [show t.head :: (A ++ r :: B ++ [t.tail]) = (t.head :: A) ++ r :: (B ++ [t.tail]) by simp]
    at hnd
  obtain ⟨hr, hnd'⟩ := List.nodup_cons.mp (List.nodup_middle.mp hnd)
  have hl := hs.linked_cut_out.link_front (by simpa using hnd') (by simp) (by simpa using hr)
  exact hs.relink (by simpa [suture] using hl) (fun x hx => by simp at hx ⊢; tauto)
    (List.nodup_middle.mp hs.cells_nodup)

theorem Spans.create (hs : t.Spans cells) (key : K) :
    (t.create key).1.Spans (t.next_alloc :: cells) := by
  obtain ⟨b, l, hbl⟩ := List.exists_cons_of_ne_nil (List.concat_ne_nil t.tail cells)
  have hl : Linked t.heap (t.head :: b :: l) := hbl ▸ hs.linked
  have hnd : (t.head :: b :: l).Nodup := hbl ▸ hs.nodup
  have hfresh : t.next_alloc ∉ t.head :: b :: l :=
    fun h => lt_irrefl _ (hs.allocated _ (hbl ▸ h))
  have hb : (t.heap t.head).next = b := (List.isChain_cons_cons.mp hl).1.1
  simp only [List.mem_cons, not_or] at hfresh
  obtain ⟨hrh, hrb, hrl⟩ := hfresh
  obtain ⟨hhb, hhl⟩ : t.head ≠ b ∧ t.head ∉ l := by simpa using (List.nodup_cons.mp hnd).1
  have hbl' : b ∉ l := (List.nodup_cons.mp (List.nodup_cons.mp hnd).2).1
  have hhr : t.head ≠ t.next_alloc := Ne.symm hrh
  have hbr : b ≠ t.next_alloc := Ne.symm hrb
  refine ⟨?_, ?_, ?_⟩
  · -- the record goes in right behind the head, by the three writes of `create`
    simp only [Trace.create, List.cons_append, hbl]
    refine hl.cons_insert (fun x hx => ?_) (fun x hx => ?_) ⟨?_, ?_⟩ ⟨?_, ?_⟩
    · have hx' := List.dropLast_subset _ hx
      have hxh : x ≠ t.head := fun h => hhb (by simp_all)
      have hxr : x ≠ t.next_alloc := fun h => by simp_all
      by_cases hxb : x = b
      · subst hxb; simp [Function.update_apply, hxh, hxr, hhr, hb]
      · simp [Function.update_apply, hxh, hxr, hhr, hb, hxb]
    · have hxh : x ≠ t.head := fun h => hhl (h ▸ hx)
      have hxb : x ≠ b := fun h => hbl' (h ▸ hx)
      have hxr : x ≠ t.next_alloc := fun h => hrl (h ▸ hx)
      simp [Function.update_apply, hxh, hxr, hhr, hb, hxb]
    · simp
    · simp [Function.update_apply, hrh, hhr, hb, hrb]
    · simp [Function.update_apply, hrh, hhr, hb, hrb]
    · simp [Function.update_apply, hhr, hb, hhb.symm, hbr]
  · simp only [Trace.create, List.cons_append, hbl]
    exact List.nodup_cons.mpr ⟨by simp [hhr, hhb, hhl],
      List.nodup_cons.mpr ⟨by simp [hrb, hrl], (List.nodup_cons.mp hnd).2⟩⟩
  · intro x hx
    simp only [Trace.create, List.cons_append, List.mem_cons] at hx ⊢
    rcases hx with hx | hx | hx
    · have := hs.allocated x (by simp [hx]); omega
    · omega
    · have := hs.allocated x (by simp [hx]); omega

theorem create_snd (key : K) : (t.create key).2 = t.next_alloc := rfl

@[simp] theorem create_val (key : K) (x : Nat) :
    ((t.create key).1.heap x).val = if x = t.next_alloc then some key else (t.heap x).val := by
  -- the two writes that link the record in keep the values
  simp only [Trace.create, val_update]
  by_cases hx : x = t.next_alloc
  · subst hx; simp
  · simp [hx]

@[simp] theorem promote_val (x : Nat) : ((t.promote r).heap x).val = (t.heap x).val := by
  simp [Trace.promote, cut_out, suture]

@[simp] theorem delete_val (x : Nat) : ((t.delete r).heap x).val = (t.heap x).val := by
  simp [Trace.delete, cut_out, suture]

/-- After the cut, `reuse_tail` links its record as `promote` does and then writes the key. -/
theorem reuse_tail_eq (key : K) : t.reuse_tail key =
    (((t.heap (t.heap t.tail).prev).val, (t.heap t.tail).prev),
      { t.promote (t.heap t.tail).prev with
        heap := Function.update (t.promote (t.heap t.tail).prev).heap (t.heap t.tail).prev
          { (t.promote (t.heap t.tail).prev).heap (t.heap t.tail).prev with val := some key } }) := by
  simp [reuse_tail, promote, cut_out, suture]

theorem Spans.reuse_tail (hs : t.Spans (A ++ [r])) (key : K) :
    (t.reuse_tail key).1 = ((t.heap r).val, r) ∧
      (t.reuse_tail key).2.Spans (r :: A) ∧ ((t.reuse_tail key).2.heap r).val = some key ∧
      ∀ x ≠ r, ((t.reuse_tail key).2.heap x).val = (t.heap x).val := by
  have hr := hs.tail_prev
  have hp := hs.promote (B := [])
  rw [List.append_nil] at hp
  rw [reuse_tail_eq, hr]
  exact ⟨rfl, hp.set_val, by simp, fun x hx => by simp [hx]⟩

theorem Spans.remove_tail (hs : t.Spans (A ++ [r])) :
    t.remove_tail.1 = (t.heap r).val ∧ t.remove_tail.2.Spans A ∧
      ∀ x, (t.remove_tail.2.heap x).val = (t.heap x).val := by
  have hr := hs.tail_prev
  have hd := hs.delete (B := [])
  rw [List.append_nil] at hd
  refine ⟨by simp [Trace.remove_tail, hr, cut_out, suture], ?_,
    fun x => by simp [Trace.remove_tail, cut_out, suture]⟩
  simpa [Trace.remove_tail, Trace.delete, hr] using hd

theorem Spans.clear (hs : t.Spans cells) : t.clear.Spans [] :=
  hs.relink (by simp [Linked, Adjacent, suture]) (List.nil_subset _) List.nodup_nil

/-- `maybe_promote` counts the call and promotes on the calls the mask samples. -/
theorem maybe_promote_eq : t.maybe_promote r =
    if (t.tick + 1) &&& t.sample_mask = 0 then { t with tick := t.tick + 1 }.promote r
    else { t with tick := t.tick + 1 } := rfl

@[simp] theorem maybe_promote_sample_mask : (t.maybe_promote r).sample_mask = t.sample_mask := by
  rw [maybe_promote_eq]
  split <;> rfl

end Trace

theorem EvictPolicy.le_of_should_evict_eq_false {K V : Type} {policy : EvictPolicy V}
    {current capacity : Nat} {tail_entry : Option (K × V)}
    (h : policy.should_evict current capacity tail_entry = false) : current ≤ capacity := by
  cases policy <;> simp [EvictPolicy.should_evict] at h <;> omega

namespace LruCache

open Tikv.Lib

variable {K V : Type}

/-- An entry of the map as the cache's user sees it. -/
def view (e : K × ValueEntry V) : K × V := (e.1, e.2.value)

/-- `es` are the entries of the map in the order of the trace. -/
structure Wf (c : LruCache K V) (es : List (K × ValueEntry V)) : Prop where
  spans : c.trace.Spans (es.map (·.2.record))
  perm : es.Perm c.map
  keys_nodup : (keys c.map).Nodup
  holds_key : ∀ e ∈ es, (c.trace.heap e.2.record).val = some e.1
  size_eq : c.size_policy = c.map.length
  capacity_pos : 0 < c.capacity
  fits : c.map.length ≤ c.capacity

section

variable {c : LruCache K V} {es : List (K × ValueEntry V)}

theorem Wf.of_entries (hs : c.trace.Spans (es.map (·.2.record))) (hp : es.Perm c.map) (hnd : (keys c.map).Nodup)
    (hk : ∀ e ∈ es, (c.trace.heap e.2.record).val = some e.1)
    (hsize : c.size_policy = es.length) (hcap : 0 < c.capacity) (hfits : es.length ≤ c.capacity) :
    c.Wf es :=
  ⟨hs, hp, hnd, hk, hp.length_eq ▸ hsize, hcap, hp.length_eq ▸ hfits⟩

theorem Wf.length_eq (hw : c.Wf es) : c.map.length = es.length := hw.perm.length_eq.symm

theorem Wf.size_eq_length (hw : c.Wf es) : c.size_policy = es.length :=
  hw.size_eq.trans hw.length_eq

theorem Wf.length_le_capacity (hw : c.Wf es) : es.length ≤ c.capacity :=
  hw.length_eq ▸ hw.fits

theorem Wf.keys_nodup_entries (hw : c.Wf es) : (keys es).Nodup :=
  (hw.perm.map Prod.fst).nodup_iff.mpr hw.keys_nodup

theorem Wf.tick (hw : c.Wf es) (n : Nat) : Wf { c with trace := { c.trace with tick := n } } es :=
  ⟨hw.spans.tick, hw.perm, hw.keys_nodup, hw.holds_key, hw.size_eq, hw.capacity_pos, hw.fits⟩

theorem Wf.set_capacity (hw : c.Wf es) {n : Nat} (hpos : 0 < n) (hfit : es.length ≤ n) :
    Wf { c with capacity := n } es :=
  ⟨hw.spans, hw.perm, hw.keys_nodup, hw.holds_key, hw.size_eq, hpos, hw.length_eq ▸ hfit⟩

/-- The last record before the tail sentinel holds the least recently used entry. -/
theorem Wf.tail_record {A : List (K × ValueEntry V)} {o : K} {eo : ValueEntry V}
    (hw : c.Wf (A ++ [(o, eo)])) :
    (c.trace.heap c.trace.tail).prev = eo.record ∧ (c.trace.heap eo.record).val = some o :=
  ⟨(show c.trace.Spans (A.map (·.2.record) ++ [eo.record]) by simpa using hw.spans).tail_prev,
    hw.holds_key (o, eo) (by simp)⟩

theorem Wf.clear (hw : c.Wf es) : c.clear.Wf [] :=
  Wf.of_entries hw.spans.clear List.Perm.nil List.nodup_nil (by simp) rfl hw.capacity_pos
    (Nat.zero_le _)

theorem new_wf (capacity sample_mask : Nat) : (new capacity sample_mask : LruCache K V).Wf [] := by
  refine Wf.of_entries ⟨?_, ?_, ?_⟩ List.Perm.nil List.nodup_nil (by simp) rfl ?_ (Nat.zero_le _)
  · simp [LruCache.new, Trace.new, Linked, Adjacent, suture]
  · simp [LruCache.new, Trace.new]
  · simp [LruCache.new, Trace.new]
  · simp only [LruCache.new]
    split <;> omega

end

variable [DecidableEq K] {c : LruCache K V} {es A : List (K × ValueEntry V)} {key o : K}
  {e eo : ValueEntry V}

/-- The entries from the most recently used on: the keys of the trace's records with their
values in the map. -/
def entries (c : LruCache K V) : List (K × V) :=
  c.trace.records.filterMap fun r =>
    (c.trace.heap r).val.bind fun k => (c.map.lookup k).map fun e => (k, e.value)

theorem Wf.perm_erase (hw : c.Wf es) (k : K) :
    (AssocList.erase k es).Perm (AssocList.erase k c.map) :=
  hw.perm.filter _

theorem Wf.mem_iff (hw : c.Wf es) : (key, e) ∈ es ↔ c.map.lookup key = some e := by
  rw [hw.perm.mem_iff, AssocList.mem_iff_lookup hw.keys_nodup]

theorem Wf.not_mem_keys (hw : c.Wf es) (h : c.map.lookup key = none) : key ∉ keys es :=
  fun hk => AssocList.lookup_eq_none_iff_not_mem_keys.mp h ((hw.perm.map Prod.fst).mem_iff.mp hk)

theorem Wf.entries_eq (hw : c.Wf es) : c.entries = es.map view := by
  rw [entries, hw.spans.records_eq, List.filterMap_map, ← List.filterMap_eq_map]
  refine List.filterMap_congr fun ⟨k, e⟩ he => ?_
  simp [hw.holds_key _ he, hw.mem_iff.mp he, view]

theorem Wf.promote (hw : c.Wf es) (he : (key, e) ∈ es) :
    Wf { c with trace := c.trace.promote e.record } ((key, e) :: AssocList.erase key es) := by
  obtain ⟨A, B, rfl, herase⟩ := AssocList.erase_split hw.keys_nodup_entries he
  rw [herase]
  have hs : c.trace.Spans (A.map (·.2.record) ++ e.record :: B.map (·.2.record)) := by
    simpa using hw.spans
  refine Wf.of_entries (by simpa using hs.promote) (List.perm_middle.symm.trans hw.perm)
    hw.keys_nodup (fun e' he' => ?_) ?_ hw.capacity_pos ?_
  · simpa using hw.holds_key e' (List.perm_middle.mem_iff.mpr he')
  · have := hw.size_eq_length; simp at this ⊢; omega
  · have := hw.length_le_capacity; simp at this ⊢; omega

theorem Wf.maybe_promote (hw : c.Wf es) (he : (key, e) ∈ es) :
    Wf { c with trace := c.trace.maybe_promote e.record }
      (if (c.trace.tick + 1) &&& c.trace.sample_mask = 0 then (key, e) :: AssocList.erase key es
        else es) := by
  rw [Trace.maybe_promote_eq]
  split
  · exact (hw.tick (c.trace.tick + 1)).promote he
  · exact hw.tick _

theorem Wf.set_value (hw : c.Wf es) (he : (key, e) ∈ es) (value : V) :
    Wf { c with map := AssocList.insert key { e with value } c.map }
      (AssocList.insert key { e with value } es) := by
  obtain ⟨A, B, rfl, hins, -⟩ := AssocList.insert_split hw.keys_nodup_entries he { e with value }
  rw [hins]
  have hperm : (AssocList.insert key { e with value } (A ++ (key, e) :: B)).Perm
      (AssocList.insert key { e with value } c.map) :=
    ((AssocList.perm_insert hw.keys_nodup_entries _ _).trans
      ((hw.perm.filter _).cons _)).trans (AssocList.perm_insert hw.keys_nodup _ _).symm
  rw [hins] at hperm
  refine Wf.of_entries (by simpa using hw.spans) hperm
    (AssocList.nodup_insert hw.keys_nodup) (fun e' he' => ?_) ?_ hw.capacity_pos ?_
  · rcases List.mem_append.mp he' with h | h
    · exact hw.holds_key e' (by simp [h])
    · rcases List.mem_cons.mp h with rfl | h
      · simpa using hw.holds_key (key, e) (by simp)
      · exact hw.holds_key e' (by simp [h])
  · have := hw.size_eq_length; simp at this ⊢; omega
  · have := hw.length_le_capacity; simp at this ⊢; omega

theorem Wf.get (hw : c.Wf es) (h : c.map.lookup key = some e) :
    (c.get key).1.Wf (if (c.trace.tick + 1) &&& c.trace.sample_mask = 0 then
      (key, e) :: AssocList.erase key es else es) := by
  have hget : (c.get key).1 = { c with trace := c.trace.maybe_promote e.record } := by
    simp [LruCache.get, h]
  rw [hget]
  exact hw.maybe_promote (hw.mem_iff.mpr h)

theorem Wf.get_mut (hw : c.Wf es) (h : c.map.lookup key = some e) (f : V → V) :
    (c.get_mut key f).1.Wf (if (c.trace.tick + 1) &&& c.trace.sample_mask = 0 then
      (key, { e with value := f e.value }) :: AssocList.erase key es
      else AssocList.insert key { e with value := f e.value } es) := by
  have hget : (c.get_mut key f).1 = { c with
      map := AssocList.insert key { e with value := f e.value } c.map
      trace := c.trace.maybe_promote e.record } := by
    simp [LruCache.get_mut, h]
  rw [hget]
  have hw' := (hw.set_value (hw.mem_iff.mpr h) (f e.value)).maybe_promote
    (AssocList.mem_insert_self key { e with value := f e.value } es)
  rwa [AssocList.erase_insert] at hw'

theorem Wf.remove (hw : c.Wf es) (key : K) : (c.remove key).1.Wf (AssocList.erase key es) := by
  cases h : c.map.lookup key with
  | none =>
    simpa [LruCache.remove, h, AssocList.erase_of_not_mem_keys (hw.not_mem_keys h)] using hw
  | some e =>
    have hperm := hw.perm_erase key
    obtain ⟨A, B, rfl, herase⟩ := AssocList.erase_split hw.keys_nodup_entries (hw.mem_iff.mpr h)
    have hs : c.trace.Spans (A.map (·.2.record) ++ e.record :: B.map (·.2.record)) := by
      simpa using hw.spans
    rw [herase] at hperm ⊢
    simp only [LruCache.remove, h]
    refine Wf.of_entries (by simpa using hs.delete) hperm
      (AssocList.nodup_filter hw.keys_nodup) (fun e' he' => ?_) ?_ hw.capacity_pos ?_
    · simpa using hw.holds_key e' (by simp at he' ⊢; tauto)
    · have := hw.size_eq_length; simp at this ⊢; omega
    · have := hw.length_le_capacity; simp at this ⊢; omega

theorem erase_last (hnd : (keys (A ++ [(o, eo)])).Nodup) :
    AssocList.erase o (A ++ [(o, eo)]) = A := by
  have ho := AssocList.erase_of_not_mem_keys (AssocList.not_mem_keys_of_split (t := []) hnd).1
  unfold AssocList.erase at ho ⊢
  rw [List.filter_append, ho]
  simp

/-- One turn of the eviction loops: the least recently used entry goes. -/
theorem Wf.pop_tail (hw : c.Wf (A ++ [(o, eo)])) :
    ∃ c', c.pop_tail = some c' ∧ c'.Wf A ∧ c'.capacity = c.capacity ∧
      c'.trace.sample_mask = c.trace.sample_mask := by
  obtain ⟨hprev, hval⟩ := hw.tail_record
  have hs : c.trace.Spans (A.map (·.2.record) ++ [eo.record]) := by simpa using hw.spans
  obtain ⟨hfst, hspans, hvals⟩ := hs.remove_tail
  have hlook : c.map.lookup o = some eo := hw.mem_iff.mp (by simp)
  have hperm := hw.perm_erase o
  rw [erase_last hw.keys_nodup_entries] at hperm
  have hrt : c.trace.remove_tail = (some o, c.trace.remove_tail.2) := Prod.ext (hfst.trans hval) rfl
  refine ⟨{ c with
      trace := c.trace.remove_tail.2
      map := AssocList.erase o c.map
      size_policy := c.size_policy - 1 }, ?_, Wf.of_entries hspans hperm
    (AssocList.nodup_filter hw.keys_nodup) (fun e' he' => ?_) ?_ hw.capacity_pos ?_, rfl, ?_⟩
  · rw [LruCache.pop_tail, hrt]
    simp [remove_entry, hlook]
  · simpa [hvals] using hw.holds_key e' (by simp [he'])
  · have := hw.size_eq_length; simp at this ⊢; omega
  · have := hw.length_le_capacity; simp at this ⊢; omega
  · simp [Trace.remove_tail]

theorem Wf.evict_until_fit_loop (policy : EvictPolicy V) :
    ∀ {fuel : Nat} {c : LruCache K V} {es : List (K × ValueEntry V)}, c.Wf es → es.length < fuel →
      ∃ c' es', c.evict_until_fit_loop policy fuel = some c' ∧ es' <+: es ∧ c'.Wf es' ∧
        c'.capacity = c.capacity ∧ c'.trace.sample_mask = c.trace.sample_mask
  | 0, _, _, _, hfuel => absurd hfuel (Nat.not_lt_zero _)
  | fuel + 1, c, es, hw, hfuel => by
    rw [LruCache.evict_until_fit_loop]
    split
    · exact ⟨c, es, rfl, List.prefix_refl _, hw, rfl, rfl⟩
    · rename_i hstop
      -- the loop goes on only while the map has an entry
      have hne : es ≠ [] := by
        rintro rfl
        simp [List.isEmpty_iff, ← List.length_eq_zero_iff, hw.length_eq] at hstop
      obtain ⟨A, ⟨o, eo⟩, rfl⟩ := (List.eq_nil_or_concat' es).resolve_left hne
      obtain ⟨c₁, hpop, hw₁, hcap₁, hmask₁⟩ := hw.pop_tail
      obtain ⟨c₂, es₂, hloop, hpre, hw₂, hcap₂, hmask₂⟩ :=
        Wf.evict_until_fit_loop policy hw₁ (by simp at hfuel; omega)
      exact ⟨c₂, es₂, by rw [hpop]; exact hloop, hpre.trans (List.prefix_append _ _), hw₂,
        hcap₂.trans hcap₁, hmask₂.trans hmask₁⟩

theorem Wf.evict_until_fit (hw : c.Wf es) (policy : EvictPolicy V) :
    ∃ c' es', c.evict_until_fit policy = some c' ∧ es' <+: es ∧ c'.Wf es' ∧
      c'.capacity = c.capacity ∧ c'.trace.sample_mask = c.trace.sample_mask :=
  hw.evict_until_fit_loop policy (by rw [← hw.length_eq]; omega)

/-- Under `EvictOnFull` a cache that fits is left as it is. -/
theorem Wf.evict_on_full (hw : c.Wf es) : c.evict_until_fit .EvictOnFull = some c := by
  have := hw.fits
  simp [LruCache.evict_until_fit, LruCache.evict_until_fit_loop, EvictPolicy.should_evict,
    hw.size_eq, this]

theorem Wf.resize_loop (new_cap : Nat) :
    ∀ {fuel : Nat} {c : LruCache K V} {es : List (K × ValueEntry V)}, c.Wf es → es.length < fuel →
      ∃ c', c.resize_loop new_cap fuel = some c' ∧ c'.Wf (es.take new_cap) ∧
        c'.capacity = c.capacity ∧ c'.trace.sample_mask = c.trace.sample_mask
  | 0, _, _, _, hfuel => absurd hfuel (Nat.not_lt_zero _)
  | fuel + 1, c, es, hw, hfuel => by
    rw [LruCache.resize_loop]
    split
    · rename_i hsize
      rw [hw.size_eq_length] at hsize
      obtain ⟨A, ⟨o, eo⟩, rfl⟩ := (List.eq_nil_or_concat' es).resolve_left
        (List.ne_nil_of_length_pos (by omega))
      obtain ⟨c₁, hpop, hw₁, hcap₁, hmask₁⟩ := hw.pop_tail
      obtain ⟨c₂, hloop, hw₂, hcap₂, hmask₂⟩ :=
        Wf.resize_loop new_cap hw₁ (by simp at hfuel; omega)
      rw [List.take_append_of_le_length (by simp at hsize; omega)]
      exact ⟨c₂, by rw [hpop]; exact hloop, hw₂, hcap₂.trans hcap₁, hmask₂.trans hmask₁⟩
    · rename_i hsize
      rw [hw.size_eq_length] at hsize
      rw [List.take_of_length_le (by omega)]
      exact ⟨c, rfl, hw, rfl, rfl⟩

theorem Wf.resize (hw : c.Wf es) (new_cap : Nat) :
    ∃ c', c.resize new_cap = some c' ∧ c'.Wf (es.take (max new_cap 1)) ∧
      c'.capacity = max new_cap 1 ∧ c'.trace.sample_mask = c.trace.sample_mask := by
  have hn : (if new_cap = 0 then 1 else new_cap) = max new_cap 1 := by split <;> omega
  have hfits := hw.length_le_capacity
  by_cases hshrink : max new_cap 1 < c.capacity ∧ c.size_policy > max new_cap 1
  · have hfuel : es.length < c.size_policy + 1 := by rw [hw.size_eq_length]; omega
    obtain ⟨c₁, hloop, hw₁, hcap₁, hmask₁⟩ := hw.resize_loop (max new_cap 1) hfuel
    refine ⟨{ c₁ with capacity := max new_cap 1 }, ?_,
      hw₁.set_capacity (by omega) (List.length_take_le _ _), rfl, hmask₁⟩
    simp only [LruCache.resize, hn, if_pos hshrink, hloop]
    rfl
  · refine ⟨{ c with capacity := max new_cap 1 }, ?_, ?_, rfl, rfl⟩
    · simp only [LruCache.resize, hn, if_neg hshrink]
      rfl
    · have hle : es.length ≤ max new_cap 1 := by
        rw [hw.size_eq_length] at hshrink; omega
      rw [List.take_of_length_le hle]
      exact hw.set_capacity (by omega) hle

theorem Wf.ne_nil_of_should_evict (hw : c.Wf es) {policy : EvictPolicy V}
    (h : policy.should_evict (c.size_policy + 1) c.capacity c.get_tail_entry = true) : es ≠ [] := by
  rintro rfl
  have hmap : c.map = [] := List.length_eq_zero_iff.mp hw.length_eq
  have htail : c.get_tail_entry = none := by simp [get_tail_entry, is_empty, hmap]
  have := hw.capacity_pos
  have := hw.size_eq
  cases policy <;> simp [EvictPolicy.should_evict, htail, hmap] at h this <;> omega

section Insert

variable (policy : EvictPolicy V) (value : V) (replace : Bool)

theorem insert_impl_of_lookup_some (h : c.map.lookup key = some e) :
    c.insert_impl policy key value replace =
      if replace then
        ({ c with
          map := AssocList.insert key { e with value } c.map
          trace := c.trace.promote e.record
          size_policy := c.size_policy - 1 + 1 }.evict_until_fit policy).bind
          fun c => some (c, true)
      else (c.evict_until_fit policy).bind fun c => some (c, false) := by
  cases replace <;> simp [insert_impl, h]

theorem insert_impl_of_create (h : c.map.lookup key = none)
    (hevict : policy.should_evict (c.size_policy + 1) c.capacity c.get_tail_entry = false) :
    c.insert_impl policy key value replace =
      ({ c with
        map := AssocList.insert key ⟨value, (c.trace.create key).2⟩ c.map
        trace := (c.trace.create key).1
        size_policy := c.size_policy + 1 }.evict_until_fit policy).bind
        fun c => some (c, true) := by
  simp [insert_impl, h, hevict]

theorem insert_impl_of_reuse {r : Nat} (h : c.map.lookup key = none)
    (hevict : policy.should_evict (c.size_policy + 1) c.capacity c.get_tail_entry = true)
    (hreuse : (c.trace.reuse_tail key).1 = (some o, r)) :
    c.insert_impl policy key value replace =
      ({ c with
        map := AssocList.insert key ⟨value, r⟩ c.map
        trace := (c.trace.reuse_tail key).2
        size_policy := c.size_policy + 1 }.remove_entry o).bind
        fun c => (c.evict_until_fit policy).bind fun c => some (c, true) := by
  have hrt : c.trace.reuse_tail key = ((some o, r), (c.trace.reuse_tail key).2) :=
    Prod.ext hreuse rfl
  simp only [insert_impl, h, hevict, if_true]
  rw [hrt]
  rfl

-- under the status cache's policy an old tail entry gives its record to a new key even below
-- the capacity
example : ((new 3 0 : LruCache Nat Nat).run [(.insert 1 5, .TxnStatusCacheEvictPolicy id 10 10),
    (.insert 2 95, .TxnStatusCacheEvictPolicy id 10 100)]).map entries = some [(2, 95)] := by
  decide

/-- A present key gets its new value and goes to the front. -/
theorem Wf.overwrite (hw : c.Wf es) (h : c.map.lookup key = some e) :
    Wf { c with
      map := AssocList.insert key { e with value } c.map
      trace := c.trace.promote e.record
      size_policy := c.size_policy - 1 + 1 } ((key, { e with value }) :: AssocList.erase key es) := by
  have he := hw.mem_iff.mpr h
  have hsize : c.size_policy - 1 + 1 = c.size_policy := by
    have := hw.size_eq_length; have := List.length_pos_of_mem he; omega
  have hw' := (hw.set_value he value).promote (AssocList.mem_insert_self key { e with value } es)
  rw [AssocList.erase_insert] at hw'
  rw [hsize]
  exact hw'

/-- An absent key gets a new record at the front when the cache has room for it. -/
theorem Wf.create (hw : c.Wf es) (h : c.map.lookup key = none)
    (hfit : c.size_policy + 1 ≤ c.capacity) :
    Wf { c with
      map := AssocList.insert key ⟨value, (c.trace.create key).2⟩ c.map
      trace := (c.trace.create key).1
      size_policy := c.size_policy + 1 } ((key, ⟨value, c.trace.next_alloc⟩) :: es) := by
  have hperm : ((key, ⟨value, c.trace.next_alloc⟩) :: es).Perm
      (AssocList.insert key ⟨value, (c.trace.create key).2⟩ c.map) := by
    rw [Trace.create_snd, AssocList.insert_of_lookup_eq_none h]
    exact (hw.perm.cons _).trans (List.perm_append_singleton _ _).symm
  refine Wf.of_entries (by simpa using hw.spans.create key) hperm
    (AssocList.nodup_insert hw.keys_nodup) ?_ ?_ hw.capacity_pos ?_
  · rintro e' (_ | ⟨_, he'⟩)
    · simp
    · -- the old records are all allocated before the new one
      have hlt : e'.2.record < c.trace.next_alloc := hw.spans.allocated _
        (List.mem_cons_of_mem _ (List.mem_append_left _ (List.mem_map_of_mem he')))
      simpa [hlt.ne] using hw.holds_key e' he'
  · have := hw.size_eq_length; simp at this ⊢; omega
  · have := hw.size_eq_length; simp; omega

/-- An absent key takes over the record of the least recently used entry, whose key then
leaves the map. -/
theorem Wf.reuse (hw : c.Wf (A ++ [(o, eo)])) (h : c.map.lookup key = none) :
    (c.trace.reuse_tail key).1 = (some o, eo.record) ∧
      ∃ c₂, { c with
        map := AssocList.insert key ⟨value, eo.record⟩ c.map
        trace := (c.trace.reuse_tail key).2
        size_policy := c.size_policy + 1 }.remove_entry o = some c₂ ∧
        c₂.Wf ((key, ⟨value, eo.record⟩) :: A) ∧ c₂.capacity = c.capacity ∧
        c₂.trace.sample_mask = c.trace.sample_mask := by
  obtain ⟨-, hval⟩ := hw.tail_record
  have hs : c.trace.Spans (A.map (·.2.record) ++ [eo.record]) := by simpa using hw.spans
  obtain ⟨hfst, hspans, hkey, hvals⟩ := hs.reuse_tail key
  have hok : o ≠ key := fun hok => hw.not_mem_keys h (hok ▸ by simp [keys])
  have hlook : (AssocList.insert key (⟨value, eo.record⟩ : ValueEntry V) c.map).lookup o =
      some eo := by
    rw [AssocList.lookup_insert, if_neg hok]
    exact hw.mem_iff.mp (by simp)
  have hperm : ((key, ⟨value, eo.record⟩) :: A).Perm
      (AssocList.erase o (AssocList.insert key ⟨value, eo.record⟩ c.map)) := by
    have hA := hw.perm_erase o
    rw [erase_last hw.keys_nodup_entries] at hA
    have herase : AssocList.erase o (AssocList.insert key ⟨value, eo.record⟩ c.map) =
        AssocList.erase o c.map ++ [(key, ⟨value, eo.record⟩)] := by
      rw [AssocList.insert_of_lookup_eq_none h]
      simp [AssocList.erase, List.filter_append, Ne.symm hok]
    rw [herase]
    exact (List.perm_append_singleton _ _).symm.trans (hA.append_right _)
  have hnd : (A.map (·.2.record) ++ [eo.record]).Nodup := by simpa using hs.cells_nodup
  refine ⟨by rw [hfst, hval], { c with
      map := AssocList.erase o (AssocList.insert key ⟨value, eo.record⟩ c.map)
      trace := (c.trace.reuse_tail key).2
      size_policy := c.size_policy + 1 - 1 }, by simp [remove_entry, hlook], Wf.of_entries
    (by simpa using hspans) hperm (AssocList.nodup_filter (AssocList.nodup_insert hw.keys_nodup))
    ?_ ?_ hw.capacity_pos ?_, rfl, rfl⟩
  · rintro e' (_ | ⟨_, he'⟩)
    · simpa using hkey
    · have hne : e'.2.record ≠ eo.record := fun heq => by
        simp only [List.nodup_append, List.mem_map, List.mem_singleton] at hnd
        exact hnd.2.2 _ ⟨e', he', rfl⟩ _ rfl heq
      simpa [hvals _ hne] using hw.holds_key e' (List.mem_append_left _ he')
  · have := hw.size_eq_length; simp at this ⊢; omega
  · have := hw.length_le_capacity; simp at this ⊢; omega

theorem Wf.insert_impl (hw : c.Wf es) (key : K) :
    ∃ c' inserted es', c.insert_impl policy key value replace = some (c', inserted) ∧
      c'.Wf es' ∧ c'.trace.sample_mask = c.trace.sample_mask := by
  cases h : c.map.lookup key with
  | some e =>
    rw [insert_impl_of_lookup_some policy value replace h]
    cases replace
    · obtain ⟨c', es', hev, -, hw', -, hmask⟩ := hw.evict_until_fit policy
      exact ⟨c', false, es', by simp [hev], hw', hmask⟩
    · obtain ⟨c', es', hev, -, hw', -, hmask⟩ := (hw.overwrite value h).evict_until_fit policy
      exact ⟨c', true, es', by simp [hev], hw', hmask⟩
  | none =>
    cases hevict : policy.should_evict (c.size_policy + 1) c.capacity c.get_tail_entry
    · rw [insert_impl_of_create policy value replace h hevict]
      obtain ⟨c', es', hev, -, hw', -, hmask⟩ :=
        (hw.create value h (EvictPolicy.le_of_should_evict_eq_false hevict)).evict_until_fit policy
      exact ⟨c', true, es', by simp [hev], hw', hmask⟩
    · obtain ⟨A, ⟨o, eo⟩, rfl⟩ :=
        (List.eq_nil_or_concat' es).resolve_left (hw.ne_nil_of_should_evict hevict)
      obtain ⟨hreuse, c₂, hrem, hw₂, -, hmask₂⟩ := hw.reuse value h
      rw [insert_impl_of_reuse policy value replace h hevict hreuse, hrem]
      obtain ⟨c', es', hev, -, hw', -, hmask⟩ := hw₂.evict_until_fit policy
      exact ⟨c', true, es', by simp [hev], hw', hmask.trans hmask₂⟩

end Insert

/-- Every call keeps the invariant and leaves the sampling mask as it is. -/
theorem Wf.apply (hw : c.Wf es) (policy : EvictPolicy V) (op : LruOp K V) :
    ∃ c' es', op.apply policy c = some c' ∧ c'.Wf es' ∧
      c'.trace.sample_mask = c.trace.sample_mask := by
  cases op with
  | insert key value =>
    obtain ⟨c', b, es', h, hw', hmask⟩ := hw.insert_impl policy value true key
    exact ⟨c', es', by simp [LruOp.apply, LruCache.insert, h], hw', hmask⟩
  | insert_if_not_exist key value =>
    obtain ⟨c', b, es', h, hw', hmask⟩ := hw.insert_impl policy value false key
    exact ⟨c', es', by simp [LruOp.apply, insert_if_not_exist, h], hw', hmask⟩
  | get key =>
    cases h : c.map.lookup key with
    | none => exact ⟨c, es, by simp [LruOp.apply, LruCache.get, h], hw, rfl⟩
    | some e => exact ⟨_, _, rfl, hw.get h, by simp [LruCache.get, h]⟩
  | get_mut key f =>
    cases h : c.map.lookup key with
    | none => exact ⟨c, es, by simp [LruOp.apply, LruCache.get_mut, h], hw, rfl⟩
    | some e => exact ⟨_, _, rfl, hw.get_mut h f, by simp [LruCache.get_mut, h]⟩
  | get_no_promote key => exact ⟨c, es, rfl, hw, rfl⟩
  | remove key =>
    refine ⟨_, _, rfl, hw.remove key, ?_⟩
    cases h : c.map.lookup key <;> simp [LruCache.remove, h, Trace.delete]
  | resize new_cap =>
    obtain ⟨c', h, hw', -, hmask⟩ := hw.resize new_cap
    exact ⟨c', _, h, hw', hmask⟩
  | clear => exact ⟨_, _, rfl, hw.clear, rfl⟩

/-- From a sound cache, every sequence of calls returns, and leaves a sound cache. -/
theorem Wf.run : ∀ {c : LruCache K V} {es : List (K × ValueEntry V)}, c.Wf es →
    ∀ ops : List (LruOp K V × EvictPolicy V), ∃ c' es', c.run ops = some c' ∧ c'.Wf es'
  | c, es, hw, [] => ⟨c, es, rfl, hw⟩
  | _, _, hw, (op, policy) :: ops => by
    obtain ⟨c₁, es₁, h₁, hw₁, -⟩ := hw.apply policy op
    obtain ⟨c', es', h', hw'⟩ := hw₁.run ops
    exact ⟨c', es', by simp [LruCache.run, h₁, h'], hw'⟩

end LruCache

end Tikv.Util
