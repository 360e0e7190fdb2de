import Tikv.Lib.AssocList

/-!
The wait-for graph of the deadlock detector (src/server/lock_manager/deadlock.rs). For every
waiting transaction it keeps the transactions it waits for; each edge carries the key hashes
it waits on and the time it was last detected, and an edge whose time is `ttl` old is expired.

Instants and durations are milliseconds. A hash map is an association list with distinct keys,
iterated in list order; a `panic`, a failed `assert!` or `unwrap` is `none`.
-/

namespace Tikv.Deadlock

open Tikv.Lib.AssocList

/-- The locks of one transaction that a waiter waits for. The source drops a `Locks` as soon
as its last key is removed, so its keys are never empty. -/
structure Locks where
  ts : Nat
  keys : List (Nat × List UInt8)
  resource_group_tag : List UInt8
  last_detect_time : Nat
  keys_ne_nil : keys ≠ []
  deriving DecidableEq

def Locks.new (ts hash : Nat) (key resource_group_tag : List UInt8) (last_detect_time : Nat) :
    Locks :=
  ⟨ts, [(hash, key)], resource_group_tag, last_detect_time, List.cons_ne_nil _ _⟩

def Locks.push (l : Locks) (lock_hash : Nat) (key : List UInt8) (now : Nat) : Locks where
  ts := l.ts
  keys := if l.keys.any (fun k => k.1 == lock_hash) then l.keys else l.keys ++ [(lock_hash, key)]
  resource_group_tag := l.resource_group_tag
  last_detect_time := now
  keys_ne_nil := by split <;> simp [l.keys_ne_nil]

/-- Remove the hash; `none` when no key is left, where the source returns true. -/
def Locks.remove (l : Locks) (lock_hash : Nat) : Option Locks :=
  let keys := l.keys.eraseP (fun k => k.1 == lock_hash)
  if h : keys = [] then none else some { l with keys, keys_ne_nil := h }

def Locks.is_expired (l : Locks) (now ttl : Nat) : Bool := ttl ≤ now - l.last_detect_time

structure WaitForEntry where
  txn : Nat
  wait_for_txn : Nat
  key_hash : Nat
  key : List UInt8
  resource_group_tag : List UInt8
  deriving DecidableEq, Repr

def Locks.to_wait_for_entry (l : Locks) (waiter_ts : Nat) : WaitForEntry :=
  let k := l.keys.head l.keys_ne_nil
  ⟨waiter_ts, l.ts, k.1, k.2, l.resource_group_tag⟩

structure LockDigest where
  ts : Nat
  hash : Nat

structure DetectTable where
  wait_for_map : List (Nat × List (Nat × Locks))
  ttl : Nat
  last_active_expire : Nat
  now : Nat
  deriving DecidableEq

def DetectTable.new (ttl now : Nat) : DetectTable := ⟨[], ttl, now, now⟩

def DetectTable.edge (t : DetectTable) (txn_ts lock_ts : Nat) : Option Locks :=
  (t.wait_for_map.lookup txn_ts).bind (·.lookup lock_ts)

def edgeCount (t : DetectTable) : Nat := (t.wait_for_map.map (·.2.length)).sum

def retain_live (now ttl : Nat) (wait_for : List (Nat × Locks)) : List (Nat × Locks) :=
  wait_for.filter (fun e => !e.2.is_expired now ttl)

def ACTIVE_EXPIRE_THRESHOLD : Nat := 100000

def ACTIVE_EXPIRE_INTERVAL : Nat := 3600 * 1000

def DetectTable.active_expire (t : DetectTable) : DetectTable :=
  if ACTIVE_EXPIRE_THRESHOLD ≤ t.wait_for_map.length ∧
      ACTIVE_EXPIRE_INTERVAL ≤ t.now - t.last_active_expire then
    { t with
      wait_for_map := (t.wait_for_map.map (fun p => (p.1, retain_live t.now t.ttl p.2))).filter
        (fun p => !p.2.isEmpty)
      last_active_expire := t.now }
  else t

/-- `none` where the source returns false. -/
def DetectTable.register_if_existed (t : DetectTable) (txn_ts lock_ts lock_hash : Nat)
    (key resource_group_tag : List UInt8) : Option DetectTable :=
  match t.edge txn_ts lock_ts with
  | some _ => some { t with
      wait_for_map := modify txn_ts (modify lock_ts fun locks =>
        { locks.push lock_hash key t.now with resource_group_tag }) t.wait_for_map }
  | none => none

def DetectTable.register (t : DetectTable) (txn_ts lock_ts lock_hash : Nat)
    (key resource_group_tag : List UInt8) : Option DetectTable :=
  let wait_for := (t.wait_for_map.lookup txn_ts).getD []
  if (wait_for.lookup lock_ts).isSome then none
  else
    let locks := Locks.new lock_ts lock_hash key resource_group_tag t.now
    some { t with wait_for_map := insert txn_ts (wait_for ++ [(locks.ts, locks)]) t.wait_for_map }

def DetectTable.clean_up_wait_for (t : DetectTable) (txn_ts : Nat) (lock_digest : LockDigest) :
    DetectTable :=
  match t.wait_for_map.lookup txn_ts with
  | none => t
  | some wait_for =>
    match wait_for.lookup lock_digest.ts with
    | none => t
    | some locks =>
      match locks.remove lock_digest.hash with
      | some locks =>
        { t with wait_for_map := modify txn_ts (modify lock_digest.ts fun _ => locks) t.wait_for_map }
      | none =>
        let wait_for := erase lock_digest.ts wait_for
        { t with wait_for_map := if wait_for.isEmpty then erase txn_ts t.wait_for_map
            else modify txn_ts (fun _ => wait_for) t.wait_for_map }

def DetectTable.clean_up (t : DetectTable) (txn_ts : Nat) : DetectTable :=
  { t with wait_for_map := erase txn_ts t.wait_for_map }

def DetectTable.clear (t : DetectTable) : DetectTable := { t with wait_for_map := [] }

def DetectTable.reset_ttl (t : DetectTable) (ttl : Nat) : DetectTable := { t with ttl }

def push_wait_for (txn_ts curr_ts : Nat) : List (Nat × Locks) → List Nat → List (Nat × Nat) →
    (Locks × List (Nat × Nat)) ⊕ (List Nat × List (Nat × Nat))
  | [], stack, pushed => .inr (stack, pushed)
  | (lock_ts, locks) :: rest, stack, pushed =>
    if lock_ts = txn_ts then .inl (locks, pushed)
    else if lock_ts ∈ keys pushed then push_wait_for txn_ts curr_ts rest stack pushed
    else push_wait_for txn_ts curr_ts rest (lock_ts :: stack) ((lock_ts, curr_ts) :: pushed)

def DetectTable.generate_wait_chain (t : DetectTable) (start end_ : Nat)
    (vertex_predecessors_map : List (Nat × Nat)) : Option (List WaitForEntry) :=
  (walk vertex_predecessors_map.length end_ []).map List.reverse
where
  walk : Nat → Nat → List WaitForEntry → Option (List WaitForEntry)
  | 0, _, _ => none
  | fuel + 1, lock_ts, wait_chain =>
    match vertex_predecessors_map.lookup lock_ts with
    | none => none
    | some waiter_ts =>
      if waiter_ts = 0 then if lock_ts = start then some wait_chain else none
      else match t.edge waiter_ts lock_ts with
        | none => none
        | some locks => walk fuel waiter_ts (wait_chain ++ [locks.to_wait_for_entry waiter_ts])

def DetectTable.do_detect_loop (txn_ts wait_for_ts : Nat) :
    Nat → DetectTable → List Nat → List (Nat × Nat) →
      Option (Option (Nat × List WaitForEntry) × DetectTable)
  | 0, _, _, _ => none
  | _ + 1, t, [], _ => some (none, t)
  | fuel + 1, t, curr_ts :: stack, pushed =>
    match t.wait_for_map.lookup curr_ts with
    | none => do_detect_loop txn_ts wait_for_ts fuel t stack pushed
    | some wait_for =>
      if (retain_live t.now t.ttl wait_for).isEmpty then
        do_detect_loop txn_ts wait_for_ts fuel
          { t with wait_for_map := erase curr_ts t.wait_for_map } stack pushed
      else
        let t := { t with wait_for_map := modify curr_ts (retain_live t.now t.ttl) t.wait_for_map }
        match push_wait_for txn_ts curr_ts (retain_live t.now t.ttl wait_for) stack pushed with
        | .inl (locks, pushed) =>
          let hash := (locks.keys.head locks.keys_ne_nil).1
          let last_entry := locks.to_wait_for_entry curr_ts
          (t.generate_wait_chain wait_for_ts curr_ts pushed).map fun wait_chain =>
            (some (hash, wait_chain ++ [last_entry]), t)
        | .inr (stack, pushed) => do_detect_loop txn_ts wait_for_ts fuel t stack pushed

def DetectTable.do_detect (t : DetectTable) (txn_ts wait_for_ts : Nat) :
    Option (Option (Nat × List WaitForEntry) × DetectTable) :=
  do_detect_loop txn_ts wait_for_ts (edgeCount t + 2) t [wait_for_ts] [(wait_for_ts, 0)]

def DetectTable.detect (t : DetectTable) (now txn_ts lock_ts lock_hash : Nat)
    (lock_key resource_group_tag : List UInt8) :
    Option (Option (Nat × List WaitForEntry) × DetectTable) :=
  let t := { t with now }.active_expire
  match t.register_if_existed txn_ts lock_ts lock_hash lock_key resource_group_tag with
  | some t => some (none, t)
  | none =>
    match t.do_detect txn_ts lock_ts with
    | none => none
    | some (some r, t) => some (some r, t)
    | some (none, t) =>
      (t.register txn_ts lock_ts lock_hash lock_key resource_group_tag).map fun t => (none, t)

end Tikv.Deadlock
