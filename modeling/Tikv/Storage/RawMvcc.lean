import Tikv.ApiVersion.RawValue
import Tikv.Lib.Cursor

/-!
The read stack of raw KV on API v2 (src/storage/raw/raw_mvcc.rs and encoded.rs): a
\x60RawEncodeSnapshot\x60 over a \x60RawMvccSnapshot\x60 over the engine's snapshot of the default
column family. \x60RawMvccIterator\x60 turns the versions of a user key, stored newest first, into
the newest one; \x60RawEncodeIterator\x60 decodes the values and steps over those deleted or
expired, in the direction it walks.

The engine is modelled by its order: the entries of the column family in key order, and an
iterator as a cursor on the entries below its upper bound. Engine errors are not modelled. The
default column family has no prefix extractor, so the prefix seek of a point get asks nothing
more of the engine than its upper bound.
-/

namespace Tikv.Storage

open Tikv.Codec Tikv.ApiVersion Tikv.Lib

inductive Error
  | Other (msg : String)
  | Codec (e : Codec.Error)
  deriving DecidableEq, Repr

/-! ### The engine -/

/-- The engine's snapshot of the default column family: its entries in key order. -/
structure EngineSnapshot where
  entries : List (List UInt8 × List UInt8)

/-- An iterator of the engine: the entries it walks, those below its upper bound, and its
position, none when it is not valid. -/
structure EngineIterator where
  entries : List (List UInt8 × List UInt8)
  pos : Option (Cursor (List UInt8 × List UInt8))

namespace EngineIterator

def seek (it : EngineIterator) (key : List UInt8) : Bool × EngineIterator :=
  let pos := Cursor.seek (fun e => decide (e.1 < key)) it.entries
  (pos.isSome, { it with pos })

def seek_for_prev (it : EngineIterator) (key : List UInt8) : Bool × EngineIterator :=
  let pos := Cursor.seek_last (fun e => decide (e.1 ≤ key)) it.entries
  (pos.isSome, { it with pos })

def next (it : EngineIterator) : Bool × EngineIterator :=
  let pos := it.pos.bind Cursor.next
  (pos.isSome, { it with pos })

def prev (it : EngineIterator) : Bool × EngineIterator :=
  let pos := it.pos.bind Cursor.prev
  (pos.isSome, { it with pos })

def valid (it : EngineIterator) : Bool :=
  it.pos.isSome

/-- The key at the position; the engine asserts that the iterator is valid, and the stack asks
only a valid one. -/
def key (it : EngineIterator) : List UInt8 :=
  (it.pos.map fun c => c.cur.1).getD []

def value (it : EngineIterator) : List UInt8 :=
  (it.pos.map fun c => c.cur.2).getD []

variable {it : EngineIterator}

theorem ahead_next (it : EngineIterator) :
    Cursor.ahead it.next.2.pos = (Cursor.ahead it.pos).tail :=
  Cursor.ahead_bind_next it.pos

theorem behind_prev (it : EngineIterator) :
    Cursor.behind it.prev.2.pos = (Cursor.behind it.pos).tail :=
  Cursor.behind_bind_prev it.pos

theorem valid_eq_ahead (it : EngineIterator) : it.valid = !(Cursor.ahead it.pos).isEmpty :=
  Cursor.isSome_eq_ahead it.pos

theorem valid_eq_behind (it : EngineIterator) : it.valid = !(Cursor.behind it.pos).isEmpty :=
  Cursor.isSome_eq_behind it.pos

@[simp]
theorem next_fst (it : EngineIterator) : it.next.1 = it.next.2.valid := rfl

theorem key_of_ahead {e : List UInt8 × List UInt8} {l : List (List UInt8 × List UInt8)}
    (h : Cursor.ahead it.pos = e :: l) : it.key = e.1 ∧ it.value = e.2 := by
  have hcur := Cursor.map_cur_eq_ahead it.pos
  rw [h] at hcur
  cases hp : it.pos with
  | none => simp [hp] at hcur
  | some c =>
    rw [hp] at hcur
    cases hcur
    simp [key, value, hp]

theorem key_of_behind {e : List UInt8 × List UInt8} {l : List (List UInt8 × List UInt8)}
    (h : Cursor.behind it.pos = e :: l) : it.key = e.1 ∧ it.value = e.2 := by
  have hcur := Cursor.map_cur_eq_behind it.pos
  rw [h] at hcur
  cases hp : it.pos with
  | none => simp [hp] at hcur
  | some c =>
    rw [hp] at hcur
    cases hcur
    simp [key, value, hp]

theorem length_ahead_next_lt (h : it.valid = true) :
    (Cursor.ahead it.next.2.pos).length < (Cursor.ahead it.pos).length := by
  rw [ahead_next]
  rw [valid_eq_ahead] at h
  cases hl : Cursor.ahead it.pos with
  | nil => simp [hl] at h
  | cons e l => simp

theorem length_behind_prev_lt (h : it.valid = true) :
    (Cursor.behind it.prev.2.pos).length < (Cursor.behind it.pos).length := by
  rw [behind_prev]
  rw [valid_eq_behind] at h
  cases hl : Cursor.behind it.pos with
  | nil => simp [hl] at h
  | cons e l => simp

theorem ahead_seek (it : EngineIterator) (key : List UInt8) :
    Cursor.ahead (it.seek key).2.pos = it.entries.dropWhile fun e => decide (e.1 < key) :=
  Cursor.ahead_seek _ _

theorem behind_seek_for_prev (it : EngineIterator) (key : List UInt8) :
    Cursor.behind (it.seek_for_prev key).2.pos =
      (it.entries.takeWhile fun e => decide (e.1 ≤ key)).reverse :=
  Cursor.behind_seek_last _ _

end EngineIterator

def EngineSnapshot.iter (snap : EngineSnapshot) (upper_bound : Option (List UInt8)) :
    EngineIterator :=
  let entries := match upper_bound with
    | some upper_bound => snap.entries.filter fun e => decide (e.1 < upper_bound)
    | none => snap.entries
  ⟨entries, none⟩

/-! ### RawMvccIterator -/

def is_user_key_eq (left right : List UInt8) : Bool :=
  if left.length ≠ right.length then false
  else
    match Key.truncate_ts_for right with
    | .ok user_key => Key.is_user_key_eq left user_key
    -- the source unwraps: right has the length of left, and every key here carries a ts
    | .error _ => false

structure RawMvccIterator where
  inner : EngineIterator
  cur_key : Option (List UInt8)
  cur_value : Option (List UInt8)
  is_valid : Option Bool
  is_forward : Bool

namespace RawMvccIterator

def new (inner : EngineIterator) : RawMvccIterator :=
  ⟨inner, none, none, none, true⟩

/-- Keeps the entry the engine is on; the source's handling of the buffers' capacity is not
modelled. -/
def update_cur_kv (it : RawMvccIterator) : RawMvccIterator :=
  { it with cur_key := some it.inner.key, cur_value := some it.inner.value, is_valid := some true }

def clear_cur_kv (it : RawMvccIterator) : RawMvccIterator :=
  { it with cur_key := none, cur_value := none, is_valid := none }

/-- The loop of \x60move_to_prev_max_ts\x60: while the engine is on a version of the kept key,
keep that version and step back. -/
def move_to_prev_max_ts_loop (it : RawMvccIterator) : RawMvccIterator :=
  -- cur_key is set: the source unwraps it
  if _h : it.inner.valid = true ∧ is_user_key_eq (it.cur_key.getD []) it.inner.key = true then
    move_to_prev_max_ts_loop { it.update_cur_kv with inner := it.inner.prev.2 }
  else it
termination_by (Cursor.behind it.inner.pos).length
decreasing_by exact EngineIterator.length_behind_prev_lt _h.1

def move_to_prev_max_ts (it : RawMvccIterator) : Bool × RawMvccIterator :=
  if it.inner.valid then
    (true, move_to_prev_max_ts_loop { it.update_cur_kv with inner := it.inner.prev.2 })
  else (false, it.clear_cur_kv)

def next_loop (cur_key : List UInt8) (res : Bool) (inner : EngineIterator) :
    Bool × EngineIterator :=
  if _h : res = true ∧ inner.valid = true ∧ is_user_key_eq cur_key inner.key = true then
    next_loop cur_key inner.next.1 inner.next.2
  else (res, inner)
termination_by (Cursor.ahead inner.pos).length
decreasing_by exact EngineIterator.length_ahead_next_lt _h.2.1

def next (it : RawMvccIterator) : Except Error Bool × RawMvccIterator :=
  if !it.is_forward then (.error (.Other "invalid raw mvcc operation"), it)
  else
    let cur_key := it.inner.key
    let r := it.inner.next
    let r := next_loop cur_key r.1 r.2
    (.ok r.1, { it with inner := r.2 }.clear_cur_kv)

def prev (it : RawMvccIterator) : Except Error Bool × RawMvccIterator :=
  if it.is_forward then (.error (.Other "invalid raw mvcc operation"), it)
  else
    let r := it.move_to_prev_max_ts
    (.ok r.1, r.2)

def seek (it : RawMvccIterator) (key : Key) : Except Error Bool × RawMvccIterator :=
  let it := { it with is_forward := true }.clear_cur_kv
  let r := it.inner.seek key.as_encoded
  (.ok r.1, { it with inner := r.2 })

def seek_for_prev (it : RawMvccIterator) (key : Key) : Except Error Bool × RawMvccIterator :=
  let it := { it with is_forward := false }
  let r := it.inner.seek_for_prev key.as_encoded
  let it := { it with inner := r.2 }
  if r.1 then
    let r := it.move_to_prev_max_ts
    (.ok r.1, r.2)
  else (.ok false, it)

def valid (it : RawMvccIterator) : Bool :=
  it.is_valid.getD it.inner.valid

def key (it : RawMvccIterator) : List UInt8 :=
  it.cur_key.getD it.inner.key

def value (it : RawMvccIterator) : List UInt8 :=
  it.cur_value.getD it.inner.value

end RawMvccIterator

structure RawMvccSnapshot where
  snap : EngineSnapshot

namespace RawMvccSnapshot

def iter (s : RawMvccSnapshot) (upper_bound : Option (List UInt8)) : RawMvccIterator :=
  .new (s.snap.iter upper_bound)

def seek_first_key_value_cf (s : RawMvccSnapshot) (key : Key) :
    Except Error (Option (List UInt8)) :=
  let upper_bound := (key.append_ts 0).as_encoded
  let iter := s.iter (some upper_bound)
  match iter.seek key with
  | (.ok true, iter) => .ok (some iter.value)
  | (.ok false, _) => .ok none
  | (.error e, _) => .error e

def get (s : RawMvccSnapshot) (key : Key) : Except Error (Option (List UInt8)) :=
  s.seek_first_key_value_cf key

theorem seek_first_key_value_cf_eq (s : RawMvccSnapshot) (key : Key) :
    s.seek_first_key_value_cf key = .ok ((Cursor.ahead
      ((s.snap.iter (some (key.append_ts 0).as_encoded)).seek key.as_encoded).2.pos).head?.map
        Prod.snd) := by
  unfold seek_first_key_value_cf RawMvccIterator.seek
  simp only [iter, RawMvccIterator.new, RawMvccIterator.clear_cur_kv, EngineIterator.seek]
  set pos := Cursor.seek (fun e => decide (e.1 < key.as_encoded))
    (s.snap.iter (some (key.append_ts 0).as_encoded)).entries
  cases hp : pos with
  | none => rfl
  | some c => rfl

end RawMvccSnapshot

/-! ### RawEncodeIterator -/

structure RawEncodeIterator where
  inner : RawMvccIterator
  current_ts : UInt64
  skip_invalid : Nat

/-! The loop of \x60find_valid_value\x60 ends: every move that reports a valid position has moved
the engine by an entry at least, forward for \x60next\x60 and back for \x60prev\x60. -/

namespace RawMvccIterator

variable {it : RawMvccIterator}

theorem next_loop_false (cur_key : List UInt8) (inner : EngineIterator) :
    next_loop cur_key false inner = (false, inner) := by
  rw [next_loop]
  simp

theorem length_ahead_next_loop_le (cur_key : List UInt8) (res : Bool) (inner : EngineIterator) :
    (Cursor.ahead (next_loop cur_key res inner).2.pos).length ≤
      (Cursor.ahead inner.pos).length := by
  induction res, inner using next_loop.induct cur_key with
  | case1 res inner h ih =>
    rw [next_loop, dif_pos h]
    exact Nat.le_trans ih (Nat.le_of_lt (EngineIterator.length_ahead_next_lt h.2.1))
  | case2 res inner h =>
    rw [next_loop, dif_neg h]

theorem length_ahead_next_lt (h : it.next.1 = .ok true) :
    (Cursor.ahead it.next.2.inner.pos).length < (Cursor.ahead it.inner.pos).length := by
  unfold next at h ⊢
  cases hf : it.is_forward
  · simp [hf] at h
  · simp only [hf, Bool.not_true, Bool.false_eq_true, if_false, Except.ok.injEq] at h ⊢
    -- the engine was valid: had next not moved it onto an entry, the loop would not run
    have hv : it.inner.next.2.valid = true := by
      cases hn : it.inner.next.2.valid
      · rw [EngineIterator.next_fst, hn, next_loop_false] at h
        cases h
      · rfl
    have hlt : (Cursor.ahead it.inner.next.2.pos).length < (Cursor.ahead it.inner.pos).length := by
      rw [EngineIterator.ahead_next]
      rw [EngineIterator.valid_eq_ahead, EngineIterator.ahead_next] at hv
      cases hl : Cursor.ahead it.inner.pos with
      | nil => simp [hl] at hv
      | cons e l => simp
    exact Nat.lt_of_le_of_lt (length_ahead_next_loop_le _ _ _) hlt

theorem length_behind_move_to_prev_max_ts_loop_le (it : RawMvccIterator) :
    (Cursor.behind (move_to_prev_max_ts_loop it).inner.pos).length ≤
      (Cursor.behind it.inner.pos).length := by
  induction it using move_to_prev_max_ts_loop.induct with
  | case1 it h ih =>
    rw [move_to_prev_max_ts_loop, dif_pos h]
    exact Nat.le_trans ih (Nat.le_of_lt (EngineIterator.length_behind_prev_lt h.1))
  | case2 it h =>
    rw [move_to_prev_max_ts_loop, dif_neg h]

theorem length_behind_prev_lt (h : it.prev.1 = .ok true) :
    (Cursor.behind it.prev.2.inner.pos).length < (Cursor.behind it.inner.pos).length := by
  unfold prev at h ⊢
  cases hf : it.is_forward
  · simp only [hf, Bool.false_eq_true, if_false, Except.ok.injEq] at h ⊢
    unfold move_to_prev_max_ts at h ⊢
    cases hv : it.inner.valid
    · simp [hv] at h
    · simp only [if_true]
      exact Nat.lt_of_le_of_lt (length_behind_move_to_prev_max_ts_loop_le _)
        (EngineIterator.length_behind_prev_lt hv)
  · simp [hf] at h

theorem next_of_forward (hf : it.is_forward = true) :
    it.next = (.ok (next_loop it.inner.key it.inner.next.2.valid it.inner.next.2).1,
      { it with inner := (next_loop it.inner.key it.inner.next.2.valid it.inner.next.2).2 }.clear_cur_kv) := by
  simp [next, hf]

theorem prev_of_backward (hb : it.is_forward = false) :
    it.prev = (.ok it.move_to_prev_max_ts.1, it.move_to_prev_max_ts.2) := by
  simp [prev, hb]

theorem seek_eq (it : RawMvccIterator) (key : Key) :
    it.seek key = (.ok (it.inner.seek key.as_encoded).2.valid,
      { it with is_forward := true, inner := (it.inner.seek key.as_encoded).2 }.clear_cur_kv) :=
  rfl

theorem seek_for_prev_eq (it : RawMvccIterator) (key : Key) :
    it.seek_for_prev key =
      if (it.inner.seek_for_prev key.as_encoded).1 then
        { it with is_forward := false, inner := (it.inner.seek_for_prev key.as_encoded).2 }.prev
      else (.ok false, { it with is_forward := false, inner := (it.inner.seek_for_prev key.as_encoded).2 }) := by
  by_cases h : (it.inner.seek_for_prev key.as_encoded).1
  · simp [seek_for_prev, prev, h]
  · simp [seek_for_prev, h]

end RawMvccIterator

namespace RawEncodeIterator

def new (inner : RawMvccIterator) (current_ts : UInt64) : RawEncodeIterator :=
  ⟨inner, current_ts, 0⟩

/-- What the loop of \x60find_valid_value\x60 decreases: the entries the engine has still to walk
in the direction, while the last move reported a valid position. -/
def walk_measure (it : RawEncodeIterator) (res : Except Error Bool) (forward : Bool) : Nat :=
  match res with
  | .ok true =>
    (if forward then (Cursor.ahead it.inner.inner.pos).length
      else (Cursor.behind it.inner.inner.pos).length) + 1
  | _ => 0

theorem walk_measure_lt (it : RawEncodeIterator) (forward : Bool) (n : Nat) :
    let r := if forward then it.inner.next else it.inner.prev
    walk_measure { it with skip_invalid := n, inner := r.2 } r.1 forward <
      walk_measure it (.ok true) forward := by
  cases forward with
  | true =>
    simp only [if_true, walk_measure]
    split
    · rename_i h
      have := RawMvccIterator.length_ahead_next_lt h
      omega
    · omega
  | false =>
    simp only [Bool.false_eq_true, if_false, walk_measure]
    split
    · rename_i h
      have := RawMvccIterator.length_behind_prev_lt h
      omega
    · omega

def find_valid_value (it : RawEncodeIterator) (res : Except Error Bool) (forward : Bool) :
    Except Error Bool × RawEncodeIterator :=
  match res with
  | .ok true =>
    match decode_raw_value it.inner.value with
    | .ok raw_value =>
      if !raw_value.is_valid it.current_ts then
        let n := it.skip_invalid + 1
        let r := if forward then it.inner.next else it.inner.prev
        find_valid_value { it with skip_invalid := n, inner := r.2 } r.1 forward
      else (res, it)
    | .error e => (.error (.Codec e), it)
  | _ => (res, it)
termination_by walk_measure it res forward
decreasing_by exact walk_measure_lt it forward _

variable {it : RawEncodeIterator} {forward : Bool}

theorem find_valid_value_false (it : RawEncodeIterator) (forward : Bool) :
    find_valid_value it (.ok false) forward = (.ok false, it) := by
  simp [find_valid_value]

theorem find_valid_value_valid {v : RawValue} (hd : decode_raw_value it.inner.value = .ok v)
    (hv : v.is_valid it.current_ts = true) :
    find_valid_value it (.ok true) forward = (.ok true, it) := by
  rw [find_valid_value, hd]
  simp [hv]

theorem find_valid_value_invalid {v : RawValue} (hd : decode_raw_value it.inner.value = .ok v)
    (hv : v.is_valid it.current_ts = false) :
    find_valid_value it (.ok true) forward =
      find_valid_value
        { it with
          skip_invalid := it.skip_invalid + 1
          inner := (if forward then it.inner.next else it.inner.prev).2 }
        (if forward then it.inner.next else it.inner.prev).1 forward := by
  rw [find_valid_value, hd]
  simp [hv]

def next (it : RawEncodeIterator) : Except Error Bool × RawEncodeIterator :=
  let r := it.inner.next
  find_valid_value { it with inner := r.2 } r.1 true

def prev (it : RawEncodeIterator) : Except Error Bool × RawEncodeIterator :=
  let r := it.inner.prev
  find_valid_value { it with inner := r.2 } r.1 false

def seek (it : RawEncodeIterator) (key : Key) : Except Error Bool × RawEncodeIterator :=
  let r := it.inner.seek key
  find_valid_value { it with inner := r.2 } r.1 true

def seek_for_prev (it : RawEncodeIterator) (key : Key) : Except Error Bool × RawEncodeIterator :=
  let r := it.inner.seek_for_prev key
  find_valid_value { it with inner := r.2 } r.1 false

def valid (it : RawEncodeIterator) : Bool :=
  it.inner.valid

def key (it : RawEncodeIterator) : List UInt8 :=
  it.inner.key

/-- The user value at the position; the source unwraps the decoding, which every value raw KV
stores passes. -/
def value (it : RawEncodeIterator) : List UInt8 :=
  match decode_raw_value it.inner.value with
  | .ok v => v.user_value
  | .error _ => []

end RawEncodeIterator

/-! ### RawEncodeSnapshot -/

structure RawEncodeSnapshot where
  snap : RawMvccSnapshot
  current_ts : UInt64

namespace RawEncodeSnapshot

def map_value (s : RawEncodeSnapshot) (value : Except Error (Option (List UInt8))) :
    Except Error (Option (List UInt8)) := do
  match ← value with
  | some v =>
    let raw_value ← (decode_raw_value v).mapError .Codec
    pure (if raw_value.is_valid s.current_ts then some raw_value.user_value else none)
  | none => pure none

def get (s : RawEncodeSnapshot) (key : Key) : Except Error (Option (List UInt8)) :=
  s.map_value (s.snap.get key)

theorem map_value_some (s : RawEncodeSnapshot) {v : List UInt8} {raw_value : RawValue}
    (hd : decode_raw_value v = .ok raw_value) :
    s.map_value (.ok (some v)) =
      .ok (if raw_value.is_valid s.current_ts then some raw_value.user_value else none) := by
  simp [map_value, hd, Except.mapError, bind, Except.bind, pure, Except.pure]

theorem map_value_none (s : RawEncodeSnapshot) : s.map_value (.ok none) = .ok none := rfl

def iter (s : RawEncodeSnapshot) (upper_bound : Option (List UInt8)) : RawEncodeIterator :=
  .new (s.snap.iter upper_bound) s.current_ts

end RawEncodeSnapshot

end Tikv.Storage
