import Tikv.Lib.SortedList

/-!
The log side of a peer's storage (src/components/raftstore/src/store/entry_storage.rs): the
entry cache of recent entries, the term cache of `(term, start_index)` runs fed with committed
entries, and `term`, which asks a shortcut, the entry cache, the term cache and then the raft
engine, in that order.

An entry is its index and term; its data only counts towards memory sizes, which are left
out with the metrics. The raft engine is the list of entries written to it: an append removes
every entry from its first index on, as `set_append` asks the write task to. A `panic`, a
failed `assert!` or an out-of-range index is `none`.
-/

namespace Tikv.Raft

structure Entry where
  index : Nat
  term : Nat
  deriving DecidableEq, Repr

structure TermCache where
  cache : List (Nat × Nat)
  capacity : Nat
  deriving DecidableEq, Repr

def TermCache.default : TermCache := ⟨[], 8⟩

namespace TermCache

def push_back (tc : TermCache) (term index : Nat) : TermCache :=
  let cache := tc.cache ++ [(term, index)]
  { tc with cache := if tc.capacity < cache.length then cache.tail else cache }

def append (tc : TermCache) (index term : Nat) : Option TermCache :=
  match tc.cache.head? with
  | none => some (tc.push_back term index)
  | some (first_term, _) =>
    if term + 1 < first_term then some tc
    else if first_term = term + 1 then
      some (if tc.cache.length < tc.capacity then { tc with cache := (term, index) :: tc.cache }
        else tc)
    else
      match tc.cache[term - first_term]? with
      | some (cached_term, cached_start_idx) =>
        if cached_term ≠ term then none
        else if index < cached_start_idx then
          some { tc with cache := tc.cache.set (term - first_term) (cached_term, index) }
        else some tc
      | none =>
        -- a jump of terms: what the cache holds may be stale
        let tc := if tc.cache.getLast?.any (fun (b : Nat × Nat) => b.1 + 1 < term) then
          { tc with cache := [] } else tc
        some (tc.push_back term index)

def compact_to (tc : TermCache) (index : Nat) : TermCache :=
  { tc with cache := tc.cache.filter fun p => index ≤ p.2 }

def scan (idx : Nat) : List (Nat × Nat) → Option Nat → Option Nat
  | [], candidate => candidate
  | (term, start_index) :: rest, _ => if start_index ≤ idx then some term else scan idx rest (some term)

def entry (tc : TermCache) (idx : Nat) : Option Nat :=
  match tc.cache.head?, tc.cache.getLast? with
  | some (_, start_idx), some (end_term, end_idx) =>
    if idx < start_idx then none
    else if end_idx ≤ idx then some end_term
    else scan idx tc.cache.reverse none
  | _, _ => none

section Terms

open Tikv.Lib.SortedList

end Terms

end TermCache

structure EntryCache where
  persisted : Nat
  cache : List Entry
  /-- The index ranges `[start, end)` of committed entries sent to apply. -/
  trace : List (Nat × Nat)
  deriving DecidableEq, Repr

def EntryCache.default : EntryCache := ⟨0, [], []⟩

namespace EntryCache

def first_index (c : EntryCache) : Option Nat := c.cache.head?.map (·.index)

/-- `none` for an unexpected hole or a truncation of traced entries. -/
def append_impl (c : EntryCache) (entries : List Entry) : Option EntryCache :=
  match c.cache.getLast?, entries.head? with
  | some last, some first =>
    if first.index ≤ last.index then
      let truncate_to := c.cache.length - (last.index - first.index + 1)
      match c.cache[truncate_to]? with
      | none => none
      | some trunc_to =>
        if c.trace.getLast?.any (fun (r : Nat × Nat) => trunc_to.index ≤ r.2 - 1) then none
        else some { c with cache := c.cache.take truncate_to ++ entries }
    else if last.index + 1 < first.index then none
    else some { c with cache := c.cache ++ entries }
  | _, _ => some { c with cache := c.cache ++ entries }

/-- `none` where the index is past the cache. -/
def entry (c : EntryCache) (idx : Nat) : Option (Option Entry) :=
  match c.cache.head? with
  | none => some none
  | some low => if low.index ≤ idx then (c.cache[idx - low.index]?).map some else some none

def compact_trace (persisted : Nat) : List (Nat × Nat) → Nat → List (Nat × Nat) × Nat
  | [], idx => ([], idx)
  | r :: rest, idx =>
    if idx ≤ r.1 ∨ persisted + 1 < r.2 then (r :: rest, idx)
    else compact_trace persisted rest (max r.2 idx)

def compact_to (c : EntryCache) (idx : Nat) : EntryCache :=
  let idx := min idx (c.persisted + 1)
  let r := compact_trace c.persisted c.trace idx
  let c := { c with trace := r.1 }
  match c.cache.head?, c.cache.getLast? with
  | some first, some last =>
    if r.2 ≤ first.index then c
    else { c with cache := c.cache.drop (min (last.index + 1) r.2 - first.index) }
  | _, _ => c

end EntryCache

inductive StorageError
  | Compacted
  | Unavailable
  | Other
  deriving DecidableEq, Repr

structure EntryStorage where
  raft_engine : List Entry
  term_cache : TermCache
  cache : EntryCache
  last_index : Nat
  last_term : Nat
  truncated_index : Nat
  truncated_term : Nat
  deriving DecidableEq, Repr

def get_entry (raft_engine : List Entry) (idx : Nat) : Option Entry :=
  raft_engine.find? (·.index = idx)

namespace EntryStorage

def check_range (s : EntryStorage) (low high : Nat) : Except StorageError Unit :=
  if high < low then .error .Other
  else if low ≤ s.truncated_index then .error .Compacted
  else if s.last_index + 1 < high then .error .Other
  else .ok ()

def append (s : EntryStorage) (entries : List Entry) : Option EntryStorage :=
  match entries.head?, entries.getLast? with
  | some first, some last =>
    (s.cache.append_impl entries).map fun cache =>
      { s with
        cache
        raft_engine := s.raft_engine.filter (·.index < first.index) ++ entries
        last_index := last.index
        last_term := last.term }
  | _, _ => some s

def update_cache_persisted (s : EntryStorage) (persisted : Nat) : EntryStorage :=
  { s with cache := { s.cache with persisted } }

def update_term_cache (s : EntryStorage) (index term : Nat) : Option EntryStorage :=
  (s.term_cache.append index term).map fun term_cache => { s with term_cache }

def evict_entry_cache (s : EntryStorage) (half : Bool) : Option EntryStorage :=
  if s.cache.cache.isEmpty then
    if half then some s else some { s with cache := s.cache.compact_to (2 ^ 64 - 1) }
  else
    let drain_to := if half then s.cache.cache.length / 2 else s.cache.cache.length - 1
    (s.cache.cache[drain_to]?).map fun e => { s with cache := s.cache.compact_to (e.index + 1) }

/-- `none` where the source panics. -/
def term (s : EntryStorage) (idx : Nat) : Option (Except StorageError Nat) :=
  if idx = s.truncated_index then some (.ok s.truncated_term)
  else
    match s.check_range idx (idx + 1) with
    | .error e => some (.error e)
    | .ok () =>
      if s.truncated_term = s.last_term ∨ idx = s.last_index then some (.ok s.last_term)
      else
        match s.cache.entry idx with
        | none => none
        | some (some e) => some (.ok e.term)
        | some none =>
          match s.term_cache.entry idx with
          | some term => some (.ok term)
          | none => (get_entry s.raft_engine idx).map fun e => .ok e.term

end EntryStorage

/-- Entries 6 to 8 of term 6 are committed and fed the term cache; entries 9 and 10 of term 7
are persisted but not committed; the entry cache is evicted. `term 9` then answers from the term
cache's newest run, term 6, while the raft engine holds term 7 at index 9. -/
theorem term_after_evict_answers_stale_run :
    let s : Option EntryStorage := do
      let s ← EntryStorage.append ⟨[], TermCache.default, EntryCache.default, 5, 5, 5, 5⟩
        [⟨6, 6⟩, ⟨7, 6⟩, ⟨8, 6⟩]
      let s := s.update_cache_persisted 8
      let s ← s.update_term_cache 6 6
      let s ← s.update_term_cache 7 6
      let s ← s.update_term_cache 8 6
      let s ← s.append [⟨9, 7⟩, ⟨10, 7⟩]
      let s := s.update_cache_persisted 10
      s.evict_entry_cache false
    s.bind (·.term 9) = some (.ok 6) ∧ (s.bind fun s => get_entry s.raft_engine 9) = some ⟨9, 7⟩ :=
  ⟨rfl, rfl⟩

end Tikv.Raft
