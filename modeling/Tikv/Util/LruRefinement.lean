import Tikv.Util.LruInvariant

/-!
What the LRU cache of `lru.rs` is for: a list of entries, most recently used first, that an
insert cuts to the capacity from the least recently used end. With `EvictOnFull` and a sampling
mask of 0, so that every `get` promotes, the cache shows the entries of this list after every
sequence of calls, and answers every lookup as the list does.
-/

namespace Tikv.Util

open Tikv.Lib
open Tikv.Lib.AssocList (keys)

/-- A reference LRU: its entries, most recently used first, and its capacity. -/
structure RefLru (K V : Type) where
  entries : List (K × V)
  capacity : Nat

namespace RefLru

variable {K V : Type} [DecidableEq K]

def new (capacity : Nat) : RefLru K V := ⟨[], max capacity 1⟩

/-- The entries with `key` made the most recently used, holding `value`. -/
def touch (l : RefLru K V) (key : K) (value : V) : List (K × V) :=
  (key, value) :: AssocList.erase key l.entries

def apply (l : RefLru K V) : LruOp K V → RefLru K V
  | .insert key value => { l with entries := (l.touch key value).take l.capacity }
  | .insert_if_not_exist key value =>
    if key ∈ keys l.entries then l else { l with entries := (l.touch key value).take l.capacity }
  | .get key =>
    match l.entries.lookup key with
    | some value => { l with entries := l.touch key value }
    | none => l
  | .get_mut key f =>
    match l.entries.lookup key with
    | some value => { l with entries := l.touch key (f value) }
    | none => l
  | .get_no_promote _ => l
  | .remove key => { l with entries := AssocList.erase key l.entries }
  | .resize new_cap => ⟨l.entries.take (max new_cap 1), max new_cap 1⟩
  | .clear => { l with entries := [] }

def run (l : RefLru K V) (ops : List (LruOp K V)) : RefLru K V := ops.foldl apply l

end RefLru

namespace LruCache

variable {K V : Type}

theorem map_view (es : List (K × ValueEntry V)) :
    es.map view = es.map fun p => (p.1, p.2.value) := rfl

theorem keys_map_view (es : List (K × ValueEntry V)) : keys (es.map view) = keys es := by
  rw [map_view, AssocList.keys_map_snd]

variable [DecidableEq K] {c : LruCache K V} {es : List (K × ValueEntry V)} {l : RefLru K V}
  {key : K}

theorem Wf.lookup_entries (hw : c.Wf es) (key : K) : es.lookup key = c.map.lookup key := by
  cases h : c.map.lookup key with
  | none => exact AssocList.lookup_eq_none_iff_not_mem_keys.mpr (hw.not_mem_keys h)
  | some e => exact (AssocList.mem_iff_lookup hw.keys_nodup_entries).mp (hw.mem_iff.mpr h)

theorem Wf.lookup_view (hw : c.Wf es) (key : K) :
    (es.map view).lookup key = (c.map.lookup key).map (·.value) := by
  rw [map_view, AssocList.lookup_map_snd, hw.lookup_entries]

theorem Wf.get_no_promote_eq (hw : c.Wf es) (key : K) :
    c.get_no_promote key = (es.map view).lookup key := by
  rw [hw.lookup_view, get_no_promote]

/-- The cache holds the reference's entries in the reference's order, under its capacity. -/
def Refines (c : LruCache K V) (l : RefLru K V) : Prop :=
  ∃ es, c.Wf es ∧ es.map view = l.entries ∧ c.capacity = l.capacity

/-- An absent key goes to the front, in a new record while the cache has room and in the
record of the least recently used entry once it is full. -/
theorem Refines.insert_absent (h : Refines c l) (hk : c.map.lookup key = none) (value : V)
    (replace : Bool) :
    ∃ c', c.insert_impl .EvictOnFull key value replace = some (c', true) ∧
      Refines c' { l with entries := (l.touch key value).take l.capacity } := by
  obtain ⟨es, hw, hview, hcap⟩ := h
  have herase : AssocList.erase key l.entries = l.entries := by
    rw [← hview]
    exact AssocList.erase_of_not_mem_keys (by rw [keys_map_view]; exact hw.not_mem_keys hk)
  simp only [RefLru.touch, herase]
  cases hevict : (EvictPolicy.EvictOnFull : EvictPolicy V).should_evict (c.size_policy + 1)
      c.capacity c.get_tail_entry
  · have hw₂ := hw.create value hk (EvictPolicy.le_of_should_evict_eq_false hevict)
    refine ⟨_, by rw [insert_impl_of_create _ _ _ hk hevict, hw₂.evict_on_full]; rfl, _, hw₂,
      ?_, hcap⟩
    have hfits := hw₂.length_le_capacity
    rw [List.take_of_length_le (by rw [← hview, ← hcap]; simpa using hfits)]
    simp [view, ← hview]
  · -- a full cache: the insert takes over the last record
    have hfull : c.size_policy = c.capacity := by
      have := hw.fits
      have := hw.size_eq
      simp [EvictPolicy.should_evict] at hevict
      omega
    obtain ⟨A, ⟨o, eo⟩, rfl⟩ :=
      (List.eq_nil_or_concat' es).resolve_left (hw.ne_nil_of_should_evict hevict)
    obtain ⟨hreuse, c₂, hrem, hw₂, hcap₂, -⟩ := hw.reuse value hk
    refine ⟨c₂, ?_, _, hw₂, ?_, hcap₂.trans hcap⟩
    · rw [insert_impl_of_reuse _ _ _ hk hevict hreuse, hrem]
      simp [hw₂.evict_on_full]
    · have hlen : l.capacity = A.length + 1 := by
        rw [← hcap, ← hfull, hw.size_eq, hw.length_eq]
        simp
      rw [← hview, hlen]
      simp [view]

/-- One call of the cache is one call of the reference. -/
theorem Refines.apply (h : Refines c l) (hmask : c.trace.sample_mask = 0) (op : LruOp K V) :
    ∃ c', op.apply .EvictOnFull c = some c' ∧ Refines c' (l.apply op) := by
  obtain ⟨es, hw, hview, hcap⟩ := h
  have hlook : ∀ key, l.entries.lookup key = (c.map.lookup key).map (·.value) := fun key => by
    rw [← hview, hw.lookup_view]
  cases op with
  | insert key value =>
    cases hk : c.map.lookup key with
    | none =>
      obtain ⟨c', hins, href⟩ := Refines.insert_absent ⟨es, hw, hview, hcap⟩ hk value true
      exact ⟨c', by simp [LruOp.apply, LruCache.insert, hins], href⟩
    | some e =>
      have hw₂ := hw.overwrite value hk
      refine ⟨_, ?_, _, hw₂, ?_, hcap⟩
      · simp [LruOp.apply, LruCache.insert, insert_impl_of_lookup_some _ _ _ hk,
          hw₂.evict_on_full]
      · have hfits := hw₂.length_le_capacity
        simp only [RefLru.apply, RefLru.touch]
        rw [List.take_of_length_le (by simpa [← hview, ← hcap, keys_map_view,
          AssocList.erase_map_snd, map_view] using hfits)]
        simp [← hview, view, map_view, AssocList.erase_map_snd]
  | insert_if_not_exist key value =>
    cases hk : c.map.lookup key with
    | none =>
      obtain ⟨c', hins, href⟩ := Refines.insert_absent ⟨es, hw, hview, hcap⟩ hk value false
      have hnk : key ∉ keys l.entries := by
        rw [← hview, keys_map_view]; exact hw.not_mem_keys hk
      exact ⟨c', by simp [LruOp.apply, insert_if_not_exist, hins], by simpa [RefLru.apply, hnk]⟩
    | some e =>
      have hmk : key ∈ keys l.entries := by
        rw [← hview, keys_map_view]
        exact List.mem_map_of_mem (hw.mem_iff.mpr hk)
      exact ⟨c, by simp [LruOp.apply, insert_if_not_exist, insert_impl_of_lookup_some _ _ _ hk,
        hw.evict_on_full], by simpa [RefLru.apply, hmk] using ⟨es, hw, hview, hcap⟩⟩
  | get key =>
    cases hk : c.map.lookup key with
    | none =>
      exact ⟨c, by simp [LruOp.apply, LruCache.get, hk], by simpa [RefLru.apply, hlook, hk] using
        ⟨es, hw, hview, hcap⟩⟩
    | some e =>
      have hw₂ := hw.get hk
      simp only [hmask, Nat.and_zero, if_true] at hw₂
      refine ⟨_, rfl, _, hw₂, ?_, by simpa [LruCache.get, hk, RefLru.apply, hlook] using hcap⟩
      simp only [RefLru.apply, hlook, hk, Option.map_some]
      simp [RefLru.touch, ← hview, view, map_view, AssocList.erase_map_snd]
  | get_mut key f =>
    cases hk : c.map.lookup key with
    | none =>
      exact ⟨c, by simp [LruOp.apply, get_mut, hk], by simpa [RefLru.apply, hlook, hk] using
        ⟨es, hw, hview, hcap⟩⟩
    | some e =>
      have hw₂ := hw.get_mut hk f
      simp only [hmask, Nat.and_zero, if_true] at hw₂
      refine ⟨_, rfl, _, hw₂, ?_, by simpa [get_mut, hk, RefLru.apply, hlook] using hcap⟩
      simp only [RefLru.apply, hlook, hk, Option.map_some]
      simp [RefLru.touch, ← hview, view, map_view, AssocList.erase_map_snd]
  | get_no_promote key => exact ⟨c, rfl, es, hw, hview, hcap⟩
  | remove key =>
    refine ⟨_, rfl, _, hw.remove key, ?_, ?_⟩
    · simp [RefLru.apply, ← hview, map_view, AssocList.erase_map_snd]
    · cases h : c.map.lookup key <;> simp [LruCache.remove, h, RefLru.apply, hcap]
  | resize new_cap =>
    obtain ⟨c', hres, hw', hcap', -⟩ := hw.resize new_cap
    exact ⟨c', hres, _, hw', by simp [RefLru.apply, ← hview, List.map_take], hcap'⟩
  | clear => exact ⟨_, rfl, _, hw.clear, rfl, hcap⟩

theorem Refines.run : ∀ {c : LruCache K V} {l : RefLru K V}, Refines c l →
    c.trace.sample_mask = 0 → ∀ ops : List (LruOp K V),
      ∃ c', c.run (ops.map (·, .EvictOnFull)) = some c' ∧ Refines c' (l.run ops)
  | c, _, h, _, [] => ⟨c, rfl, h⟩
  | c, l, h, hmask, op :: ops => by
    obtain ⟨c₁, h₁, href₁⟩ := h.apply hmask op
    -- the call leaves the mask as it is
    obtain ⟨es, hw, -⟩ := h
    obtain ⟨c₁', -, h₁', -, hmask₁⟩ := hw.apply .EvictOnFull op
    have hc : c₁' = c₁ := Option.some.inj (h₁'.symm.trans h₁)
    obtain ⟨c', h', href⟩ := href₁.run (hc ▸ hmask₁.trans hmask) ops
    exact ⟨c', by simp [LruCache.run, h₁, h'], by simpa [RefLru.run] using href⟩

/-- From `new`, every sequence of calls returns, under any evict policy and sampling mask, and
leaves the trace spanning the map's records, each holding its entry's key, with the count at
the map's length and within the capacity. With `EvictOnFull` and a mask of 0 the cache holds
the reference's entries in its order, answers every lookup as it does, and has its capacity. -/
theorem lru_cache_sound (capacity sample_mask : Nat) (ops : List (LruOp K V × EvictPolicy V))
    (ops' : List (LruOp K V)) :
    (∃ c, (new capacity sample_mask).run ops = some c ∧ (∃ es, c.Wf es) ∧
      c.size = c.len ∧ c.len ≤ c.capacity) ∧
    ∃ c, (new capacity 0).run (ops'.map (·, .EvictOnFull)) = some c ∧
      c.entries = ((RefLru.new capacity).run ops').entries ∧
      (∀ key, c.get_no_promote key = ((RefLru.new capacity).run ops').entries.lookup key) ∧
      c.capacity = ((RefLru.new capacity).run ops').capacity := by
  obtain ⟨c, es, hrun, hw⟩ := (new_wf capacity sample_mask).run ops
  refine ⟨⟨c, hrun, ⟨es, hw⟩, hw.size_eq, hw.fits⟩, ?_⟩
  have hnew : Refines (new capacity 0 : LruCache K V) (RefLru.new capacity) :=
    ⟨[], new_wf capacity 0, rfl, by simp only [LruCache.new, RefLru.new]; split <;> omega⟩
  obtain ⟨c', hrun', es', hw', hview, hcap⟩ := hnew.run rfl ops'
  exact ⟨c', hrun', by rw [hw'.entries_eq, hview],
    fun key => by rw [hw'.get_no_promote_eq, hview], hcap⟩

example : ((new 2 0 : LruCache Nat Nat).run [(.insert 1 10, .EvictOnFull),
    (.insert 2 20, .EvictOnFull), (.get 1, .EvictOnFull), (.insert 3 30, .EvictOnFull)]).map
      entries = some [(3, 30), (1, 10)] := by
  decide

end LruCache

end Tikv.Util
