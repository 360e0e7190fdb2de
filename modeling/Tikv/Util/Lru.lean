import Tikv.Lib.DList
import Tikv.Lib.AssocList

/-!
The LRU cache of src/components/tikv_util/src/lru.rs. A hash map holds each key's value and a
pointer to its record in the trace, a doubly linked list between two sentinel records, most
recently used first. The records live on a heap of cells addressed by numbers: address 0 stands
for `NonNull::dangling()`, `Box::new` takes the next fresh address, and freeing a record is
not tracked, as nothing reads a freed record again. Reading the key of a sentinel, which is
uninitialised, is undefined behaviour in the source; here it ends the operation with `none`,
as does an `unwrap` that fails.

The size policy is `CountTracker`, whose count is `size_policy`. The evict policy is
`EvictOnFull` or `TxnStatusCacheEvictPolicy` of src/src/storage/txn/txn_status_cache.rs; the
latter reads a clock, and each operation gets the policy with the clock's reading.
-/

namespace Tikv.Util

open Tikv.Lib.DList (Cell link)

/-- A record of the trace; a sentinel's key is `none`. -/
abbrev Record (K : Type) := Cell (Option K)

structure ValueEntry (V : Type) where
  value : V
  record : Nat

/-- The trace list on its heap; `next_alloc` is the address the next record gets. -/
structure Trace (K : Type) where
  heap : Nat → Record K
  head : Nat
  tail : Nat
  tick : Nat
  sample_mask : Nat
  next_alloc : Nat

def suture {K : Type} (heap : Nat → Record K) (leading following : Nat) : Nat → Record K :=
  link heap leading following

def cut_out {K : Type} (heap : Nat → Record K) (record : Nat) : Nat → Record K :=
  suture heap (heap record).prev (heap record).next

namespace Trace

variable {K : Type}

def new (sample_mask : Nat) : Trace K :=
  ⟨suture (fun _ => ⟨0, 0, none⟩) 1 2, 1, 2, 0, sample_mask, 3⟩

def promote (t : Trace K) (record : Nat) : Trace K :=
  let heap := cut_out t.heap record
  let heap := suture heap record (heap t.head).next
  { t with heap := suture heap t.head record }

def maybe_promote (t : Trace K) (record : Nat) : Trace K :=
  let t := { t with tick := t.tick + 1 }
  if t.tick &&& t.sample_mask = 0 then t.promote record else t

def delete (t : Trace K) (record : Nat) : Trace K :=
  { t with heap := cut_out t.heap record }

def create (t : Trace K) (key : K) : Trace K × Nat :=
  let record := t.next_alloc
  let heap := Function.update t.heap record ⟨t.head, (t.heap t.head).next, some key⟩
  let following := (heap t.head).next
  let heap := Function.update heap following { heap following with prev := record }
  let heap := Function.update heap t.head { heap t.head with next := record }
  ({ t with heap, next_alloc := record + 1 }, record)

def reuse_tail (t : Trace K) (key : K) : (Option K × Nat) × Trace K :=
  let record := (t.heap t.tail).prev
  let heap := cut_out t.heap record
  let heap := suture heap record (heap t.head).next
  let heap := suture heap t.head record
  (((heap record).val, record),
    { t with heap := Function.update heap record { heap record with val := some key } })

/-- The loop that frees the records only frees memory. -/
def clear (t : Trace K) : Trace K :=
  { t with heap := suture t.heap t.head t.tail }

def remove_tail (t : Trace K) : Option K × Trace K :=
  let record := (t.heap t.tail).prev
  let heap := cut_out t.heap record
  ((heap record).val, { t with heap })

def get_tail (t : Trace K) : Option K :=
  (t.heap (t.heap t.tail).prev).val

end Trace

/-- The evict policies, `TxnStatusCacheEvictPolicy` with `now_millis` its clock's reading. -/
inductive EvictPolicy (V : Type)
  | EvictOnFull
  | TxnStatusCacheEvictPolicy (update_time : V → Nat) (required_keep_time_millis now_millis : Nat)

def EvictPolicy.should_evict {K V : Type} :
    EvictPolicy V → Nat → Nat → Option (K × V) → Bool
  | .EvictOnFull, current_size, capacity, _ => capacity < current_size
  | .TxnStatusCacheEvictPolicy update_time required_keep_time_millis now_millis, current_size,
      capacity, tail_entry =>
    (match tail_entry with
      | some (_, v) => required_keep_time_millis + update_time v < now_millis
      | none => false) || capacity < current_size

structure LruCache (K V : Type) where
  map : List (K × ValueEntry V)
  trace : Trace K
  capacity : Nat
  size_policy : Nat

namespace LruCache

variable {K V : Type} [DecidableEq K]

def new (capacity sample_mask : Nat) : LruCache K V :=
  ⟨[], Trace.new sample_mask, if capacity = 0 then 1 else capacity, 0⟩

def size (c : LruCache K V) : Nat := c.size_policy

def len (c : LruCache K V) : Nat := c.map.length

def is_empty (c : LruCache K V) : Bool := c.map.isEmpty

def clear (c : LruCache K V) : LruCache K V :=
  { c with map := [], trace := c.trace.clear, size_policy := 0 }

def get_tail_entry (c : LruCache K V) : Option (K × V) :=
  if c.is_empty then none
  else match c.trace.get_tail with
    | some k => (c.map.lookup k).map fun e => (k, e.value)
    | none => none

/-- `self.map.remove(&key).unwrap()` and the count's `on_remove`. -/
def remove_entry (c : LruCache K V) (key : K) : Option (LruCache K V) :=
  match c.map.lookup key with
  | some _ =>
    some { c with
      map := Lib.AssocList.erase key c.map
      size_policy := c.size_policy - 1 }
  | none => none

/-- The body of both eviction loops: the tail's record goes, and then its key's entry. -/
def pop_tail (c : LruCache K V) : Option (LruCache K V) :=
  match c.trace.remove_tail with
  | (some key, trace) => remove_entry { c with trace } key
  | (none, _) => none

def evict_until_fit_loop (policy : EvictPolicy V) : Nat → LruCache K V → Option (LruCache K V)
  | 0, _ => none
  | fuel + 1, c =>
    if !policy.should_evict c.size_policy c.capacity c.get_tail_entry || c.map.isEmpty then
      some c
    else (pop_tail c).bind (evict_until_fit_loop policy fuel)

/-- Each turn removes an entry, so the map's length bounds the turns. -/
def evict_until_fit (policy : EvictPolicy V) (c : LruCache K V) : Option (LruCache K V) :=
  evict_until_fit_loop policy (c.map.length + 1) c

def insert_impl (policy : EvictPolicy V) (c : LruCache K V) (key : K) (value : V)
    (replace : Bool) : Option (LruCache K V × Bool) := do
  -- whether to reuse the tail is decided before the key is looked up
  let should_evict_on_insert :=
    policy.should_evict (c.size_policy + 1) c.capacity c.get_tail_entry
  let (c, inserted, old_key) ← match c.map.lookup key with
    | some entry =>
      if replace then
        some ({ c with
            map := Lib.AssocList.insert key { entry with value := value } c.map
            trace := c.trace.promote entry.record
            size_policy := c.size_policy - 1 + 1 }, true, none)
      else some (c, false, none)
    | none =>
      if should_evict_on_insert then
        match c.trace.reuse_tail key with
        | ((some old_key, record), trace) =>
          some ({ c with
            map := Lib.AssocList.insert key ⟨value, record⟩ c.map
            trace
            size_policy := c.size_policy + 1 }, true, some old_key)
        | ((none, _), _) => none
      else
        let (trace, record) := c.trace.create key
        some ({ c with
          map := Lib.AssocList.insert key ⟨value, record⟩ c.map
          trace
          size_policy := c.size_policy + 1 }, true, none)
  let c ← match old_key with
    | some o => c.remove_entry o
    | none => some c
  let c ← c.evict_until_fit policy
  pure (c, inserted)

def insert (policy : EvictPolicy V) (c : LruCache K V) (key : K) (value : V) :
    Option (LruCache K V) :=
  (c.insert_impl policy key value true).map Prod.fst

def insert_if_not_exist (policy : EvictPolicy V) (c : LruCache K V) (key : K) (value : V) :
    Option (LruCache K V × Bool) :=
  c.insert_impl policy key value false

def remove (c : LruCache K V) (key : K) : LruCache K V × Option V :=
  match c.map.lookup key with
  | some v =>
    ({ c with
      map := Lib.AssocList.erase key c.map
      trace := c.trace.delete v.record
      size_policy := c.size_policy - 1 }, some v.value)
  | none => (c, none)

def get (c : LruCache K V) (key : K) : LruCache K V × Option V :=
  match c.map.lookup key with
  | some v => ({ c with trace := c.trace.maybe_promote v.record }, some v.value)
  | none => (c, none)

def get_no_promote (c : LruCache K V) (key : K) : Option V :=
  (c.map.lookup key).map (·.value)

def contains_key (c : LruCache K V) (key : K) : Bool :=
  (c.get_no_promote key).isSome

/-- `get_mut` with `f` the caller's write through the reference it returns. -/
def get_mut (c : LruCache K V) (key : K) (f : V → V) : LruCache K V × Option V :=
  match c.map.lookup key with
  | some v =>
    ({ c with
      map := Lib.AssocList.insert key { v with value := f v.value } c.map
      trace := c.trace.maybe_promote v.record }, some v.value)
  | none => (c, none)

def resize_loop (new_cap : Nat) : Nat → LruCache K V → Option (LruCache K V)
  | 0, _ => none
  | fuel + 1, c =>
    if c.size_policy > new_cap then (pop_tail c).bind (resize_loop new_cap fuel) else some c

def resize (c : LruCache K V) (new_cap : Nat) : Option (LruCache K V) := do
  let new_cap := if new_cap = 0 then 1 else new_cap
  let c ← if new_cap < c.capacity ∧ c.size_policy > new_cap then
      resize_loop new_cap (c.size_policy + 1) c
    else some c
  pure { c with capacity := new_cap }

end LruCache

/-- The calls on a cache that change it or read it. -/
inductive LruOp (K V : Type)
  | insert (key : K) (value : V)
  | insert_if_not_exist (key : K) (value : V)
  | get (key : K)
  | get_mut (key : K) (f : V → V)
  | get_no_promote (key : K)
  | remove (key : K)
  | resize (new_cap : Nat)
  | clear

namespace LruOp

variable {K V : Type} [DecidableEq K]

def apply (policy : EvictPolicy V) (c : LruCache K V) : LruOp K V → Option (LruCache K V)
  | .insert key value => c.insert policy key value
  | .insert_if_not_exist key value => (c.insert_if_not_exist policy key value).map Prod.fst
  | .get key => some (c.get key).1
  | .get_mut key f => some (c.get_mut key f).1
  | .get_no_promote _ => some c
  | .remove key => some (c.remove key).1
  | .resize new_cap => c.resize new_cap
  | .clear => some c.clear

end LruOp

namespace LruCache

variable {K V : Type} [DecidableEq K]

/-- Each call with the evict policy as it reads at that call. -/
def run (c : LruCache K V) : List (LruOp K V × EvictPolicy V) → Option (LruCache K V)
  | [] => some c
  | (op, policy) :: ops => (op.apply policy c).bind fun c => run c ops

end LruCache

end Tikv.Util
