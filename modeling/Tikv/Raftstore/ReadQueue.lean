import Tikv.Lib.AssocList
import Mathlib

/-!
The queue of read-index requests of a peer (src/components/raftstore/src/store/read_queue.rs).
The first `ready_cnt` requests have their read index and are served in order; `handled_cnt`
counts those popped so far, and `contexts` maps the uuid of a follower's request to its absolute
position `handled_cnt + i`. A leader's responses come in queue order; a follower's may be lost
or come in any order, and one advances `ready_cnt` past the requests before it.

A request's uuid is a number; its commands, its lock info and the contents of its addition
request, which the queue only drops, are not modelled. A step is one call; a call that panics
is not a step.
-/

namespace Tikv.Raftstore

open Tikv.Lib.AssocList (insert erase keys)

structure ReadIndexRequest where
  id : Nat
  read_index : Option Nat
  /-- Whether the request still carries its `addition_request`, the lock check of a replica
  read. -/
  addition_request : Bool
  in_contexts : Bool
  deriving DecidableEq, Repr

def ReadIndexRequest.with_command (id : Nat) (addition_request : Bool) : ReadIndexRequest :=
  ⟨id, none, addition_request, false⟩

structure ReadIndexQueue where
  reads : List ReadIndexRequest
  ready_cnt : Nat
  handled_cnt : Nat
  contexts : List (Nat × Nat)
  deriving DecidableEq, Repr

namespace ReadIndexQueue

def new : ReadIndexQueue := ⟨[], 0, 0, []⟩

def clear_all (q : ReadIndexQueue) : ReadIndexQueue :=
  { q with reads := [], contexts := [], ready_cnt := 0, handled_cnt := 0 }

def clear_uncommitted_on_role_change (q : ReadIndexQueue) : ReadIndexQueue :=
  { q with reads := q.reads.take q.ready_cnt, contexts := [] }

def push_back (q : ReadIndexQueue) (read : ReadIndexRequest) (is_leader : Bool) :
    ReadIndexQueue :=
  if is_leader then { q with reads := q.reads ++ [read] }
  else
    { q with reads := q.reads ++ [{ read with in_contexts := true }],
             contexts := insert read.id (q.handled_cnt + q.reads.length) q.contexts }

/-- The leader's responses, each for the first request that is not ready; `none` where the
source panics at an unexpected uuid. -/
def advance_leader_reads (q : ReadIndexQueue) : List (Nat × Nat) → Option ReadIndexQueue
  | [] => some q
  | (uuid, index) :: states =>
    match q.reads[q.ready_cnt]? with
    | some r =>
      if r.id = uuid then
        advance_leader_reads
          { q with reads := q.reads.set q.ready_cnt { r with read_index := some index },
                   ready_cnt := q.ready_cnt + 1 } states
      else none
    | none => none

/-- The loop of `advance_replica_reads` over the responses, with the least offset it changed
(`usize::MAX` in the source for none) and the greatest; `none` where it panics. -/
def advance_replica_reads_loop :
    ReadIndexQueue → Option Nat → Nat → List (Nat × Nat) → Option (ReadIndexQueue × Option Nat × Nat)
  | q, min_changed_offset, max_changed_offset, [] => some (q, min_changed_offset, max_changed_offset)
  | q, min_changed_offset, max_changed_offset, (uuid, index) :: states =>
    match q.contexts.lookup uuid with
    | none => advance_replica_reads_loop q min_changed_offset max_changed_offset states
    | some raw_offset =>
      let q := { q with contexts := erase uuid q.contexts }
      if raw_offset < q.handled_cnt then none
      else
        let offset := raw_offset - q.handled_cnt
        match q.reads[offset]? with
        | none => none
        | some r =>
          if r.id ≠ uuid then none
          else
            -- the lock check is over: the request leaves contexts and drops its addition request
            let r := { r with in_contexts := false, addition_request := false }
            if r.read_index.any (· < index) then
              advance_replica_reads_loop { q with reads := q.reads.set offset r }
                min_changed_offset max_changed_offset states
            else
              advance_replica_reads_loop
                { q with reads := q.reads.set offset { r with read_index := some index } }
                (some (min_changed_offset.elim offset (min · offset)))
                (max max_changed_offset offset) states

def advance_replica_reads (q : ReadIndexQueue) (states : List (Nat × Nat)) :
    Option ReadIndexQueue :=
  match q.advance_replica_reads_loop none 0 states with
  | some (q, min_changed_offset, max_changed_offset) =>
    if min_changed_offset.isSome then
      some { q with ready_cnt := max q.ready_cnt (max_changed_offset + 1) }
    else some q
  | none => none

/-- The first ready request; `none` where the source's `expect` panics. -/
def pop_front (q : ReadIndexQueue) : Option (Option ReadIndexRequest × ReadIndexQueue) :=
  if q.ready_cnt = 0 then some (none, q)
  else
    match q.reads with
    | [] => none
    | res :: reads =>
      let q := { q with ready_cnt := q.ready_cnt - 1, handled_cnt := q.handled_cnt + 1, reads }
      if res.in_contexts then
        some (some { res with in_contexts := false }, { q with contexts := erase res.id q.contexts })
      else some (some res, q)

def push_front (q : ReadIndexQueue) (read : ReadIndexRequest) : ReadIndexQueue :=
  { q with reads := read :: q.reads, ready_cnt := q.ready_cnt + 1,
           handled_cnt := q.handled_cnt - 1 }

end ReadIndexQueue

open ReadIndexQueue

/-- The calls a peer makes on its queue: pushes of new requests with fresh uuids, the leader's responses for
its unready requests in queue order, any responses of a follower, pops, a pop put back at once,
and the two clears. -/
inductive Step : ReadIndexQueue → ReadIndexQueue → Prop
  | push_back (q : ReadIndexQueue) (id : Nat) (addition_request is_leader : Bool)
      (hfresh : id ∉ q.reads.map (·.id)) :
      Step q (q.push_back (.with_command id addition_request) is_leader)
  | advance_leader_reads {q q' : ReadIndexQueue} (states : List (Nat × Nat))
      (hids : states.map (·.1) <+: (q.reads.drop q.ready_cnt).map (·.id))
      (h : q.advance_leader_reads states = some q') : Step q q'
  | advance_replica_reads {q q' : ReadIndexQueue} (states : List (Nat × Nat))
      (h : q.advance_replica_reads states = some q') : Step q q'
  | pop_front {q q' : ReadIndexQueue} {read : Option ReadIndexRequest}
      (h : q.pop_front = some (read, q')) : Step q q'
  | pop_push_front {q q' : ReadIndexQueue} {read : ReadIndexRequest}
      (h : q.pop_front = some (some read, q')) : Step q (q'.push_front read)
  | clear_uncommitted_on_role_change (q : ReadIndexQueue) :
      Step q q.clear_uncommitted_on_role_change
  | clear_all (q : ReadIndexQueue) : Step q q.clear_all

def Reachable (q : ReadIndexQueue) : Prop := Relation.ReflTransGen Step ReadIndexQueue.new q

/-! ### The offsets of `contexts` -/

def shape (reads : List ReadIndexRequest) : List (Nat × Bool) :=
  reads.map fun r => (r.id, r.in_contexts)

theorem shape_set (reads : List ReadIndexRequest) (i : Nat) (r : ReadIndexRequest) :
    shape (reads.set i r) = (shape reads).set i (r.id, r.in_contexts) := by
  simp [shape, List.map_set]

theorem getElem?_shape {reads : List ReadIndexRequest} {i : Nat} {x : Nat × Bool} :
    (shape reads)[i]? = some x ↔ ∃ r, reads[i]? = some r ∧ (r.id, r.in_contexts) = x := by
  simp only [shape, List.getElem?_map, Option.map_eq_some_iff]

/-- The queue's invariant: the ready requests are in the queue, the uuids are distinct, and
each entry of `contexts` is at or above `handled_cnt` and points to the request of its uuid,
which knows it is there. -/
structure QueueInv (q : ReadIndexQueue) : Prop where
  ready_le : q.ready_cnt ≤ q.reads.length
  ids_nodup : (q.reads.map (·.id)).Nodup
  contexts_nodup : (keys q.contexts).Nodup
  contexts_ok : ∀ p ∈ q.contexts,
    q.handled_cnt ≤ p.2 ∧ (shape q.reads)[p.2 - q.handled_cnt]? = some (p.1, true)

theorem queueInv_new : QueueInv ReadIndexQueue.new :=
  ⟨Nat.le_refl _, List.nodup_nil, List.nodup_nil, fun _ h => by cases h⟩

theorem QueueInv.clear_all {q : ReadIndexQueue} : QueueInv q.clear_all :=
  ⟨Nat.le_refl _, List.nodup_nil, List.nodup_nil, fun _ h => by cases h⟩

theorem QueueInv.clear_uncommitted_on_role_change {q : ReadIndexQueue} (hi : QueueInv q) :
    QueueInv q.clear_uncommitted_on_role_change := by
  refine ⟨?_, hi.ids_nodup.sublist ((List.take_sublist _ _).map _), List.nodup_nil,
    fun _ h => by cases h⟩
  simp only [ReadIndexQueue.clear_uncommitted_on_role_change, List.length_take]
  exact Nat.le_min.mpr ⟨Nat.le_refl _, hi.ready_le⟩

theorem QueueInv.mem_ids_of_mem_keys {q : ReadIndexQueue} (hi : QueueInv q) {u : Nat}
    (hu : u ∈ keys q.contexts) : u ∈ q.reads.map (·.id) := by
  obtain ⟨off, hp⟩ := Tikv.Lib.AssocList.mem_keys_iff.mp hu
  obtain ⟨r, hr, hid⟩ := getElem?_shape.mp (hi.contexts_ok _ hp).2
  simp only [Prod.mk.injEq] at hid
  exact List.mem_map.mpr ⟨r, List.mem_of_getElem? hr, hid.1⟩

theorem QueueInv.push_back {q : ReadIndexQueue} (hi : QueueInv q) {id : Nat}
    (hfresh : id ∉ q.reads.map (·.id)) (addition_request is_leader : Bool) :
    QueueInv (q.push_back (.with_command id addition_request) is_leader) := by
  -- the offsets below the old length still point where they did
  have hold : ∀ (x : ReadIndexRequest), ∀ p ∈ q.contexts,
      (shape (q.reads ++ [x]))[p.2 - q.handled_cnt]? = some (p.1, true) := by
    intro x p hp
    have hget := (hi.contexts_ok p hp).2
    have hlt : p.2 - q.handled_cnt < (shape q.reads).length := (List.getElem?_eq_some_iff.mp hget).1
    rw [← hget, shape, List.map_append, List.getElem?_append_left (by simpa [shape] using hlt)]
    rfl
  have hids : ∀ (x : ReadIndexRequest), x.id = id → ((q.reads ++ [x]).map (·.id)).Nodup := by
    intro x hx
    rw [List.map_append, List.map_singleton, hx, ← List.concat_eq_append]
    exact List.Nodup.concat hfresh hi.ids_nodup
  cases is_leader with
  | true =>
    refine ⟨?_, hids _ rfl, hi.contexts_nodup, fun p hp => ⟨(hi.contexts_ok p hp).1, hold _ p hp⟩⟩
    simp only [ReadIndexQueue.push_back, if_true, List.length_append]
    exact Nat.le_succ_of_le hi.ready_le
  | false =>
    have hkey : id ∉ keys q.contexts := fun h => hfresh (hi.mem_ids_of_mem_keys h)
    have hins : Tikv.Lib.AssocList.insert id (q.handled_cnt + q.reads.length) q.contexts =
        q.contexts ++ [(id, q.handled_cnt + q.reads.length)] := by
      simp [Tikv.Lib.AssocList.insert, Tikv.Lib.AssocList.lookup_eq_none_iff_not_mem_keys.mpr hkey]
    simp only [ReadIndexQueue.push_back, Bool.false_eq_true, if_false,
      ReadIndexRequest.with_command, hins]
    refine ⟨?_, hids _ rfl, ?_, ?_⟩
    · simp only [List.length_append]
      exact Nat.le_succ_of_le hi.ready_le
    · rw [Tikv.Lib.AssocList.keys_append, Tikv.Lib.AssocList.keys_cons, Tikv.Lib.AssocList.keys_nil,
        ← List.concat_eq_append]
      exact List.Nodup.concat hkey hi.contexts_nodup
    · intro p hp
      rcases List.mem_append.mp hp with hp | hp
      · exact ⟨(hi.contexts_ok p hp).1, hold _ p hp⟩
      · rw [List.mem_singleton.mp hp]
        refine ⟨Nat.le_add_right _ _, ?_⟩
        simp [shape]

theorem shape_set_self {reads : List ReadIndexRequest} {i : Nat} {r r' : ReadIndexRequest}
    (hr : reads[i]? = some r) (hid : r'.id = r.id) (hin : r'.in_contexts = r.in_contexts) :
    shape (reads.set i r') = shape reads := by
  have hsh : (shape reads)[i]? = some (r.id, r.in_contexts) := getElem?_shape.mpr ⟨r, hr, rfl⟩
  obtain ⟨hi, heq⟩ := List.getElem?_eq_some_iff.mp hsh
  rw [shape_set, hid, hin, ← heq, List.set_getElem_self]

theorem ids_eq_of_shape {reads reads' : List ReadIndexRequest} (h : shape reads' = shape reads) :
    reads'.map (·.id) = reads.map (·.id) := by
  have := congrArg (List.map Prod.fst) h
  simpa [shape, Function.comp_def] using this

theorem QueueInv.of_shape {q q' : ReadIndexQueue} (hi : QueueInv q)
    (hshape : shape q'.reads = shape q.reads) (hcontexts : q'.contexts = q.contexts)
    (hhandled : q'.handled_cnt = q.handled_cnt) (hready : q'.ready_cnt ≤ q'.reads.length) :
    QueueInv q' := by
  refine ⟨hready, (ids_eq_of_shape hshape) ▸ hi.ids_nodup, hcontexts ▸ hi.contexts_nodup, ?_⟩
  intro p hp
  rw [hcontexts] at hp
  rw [hshape, hhandled]
  exact hi.contexts_ok p hp

theorem QueueInv.advance_leader_reads {q q' : ReadIndexQueue} {states : List (Nat × Nat)}
    (hi : QueueInv q) (h : q.advance_leader_reads states = some q') : QueueInv q' := by
  induction states generalizing q with
  | nil =>
    cases h
    exact hi
  | cons state states ih =>
    obtain ⟨uuid, index⟩ := state
    simp only [ReadIndexQueue.advance_leader_reads] at h
    split at h
    case h_2 => cases h
    case h_1 r hr =>
    split_ifs at h
    have hi' : QueueInv
        { q with reads := q.reads.set q.ready_cnt { r with read_index := some index },
                 ready_cnt := q.ready_cnt + 1 } := by
      refine hi.of_shape (shape_set_self hr rfl rfl) rfl rfl ?_
      -- the request set ready is in the queue
      simp only [List.length_set]
      exact (List.getElem?_eq_some_iff.mp hr).1
    exact ih hi' h

theorem QueueInv.answer {q : ReadIndexQueue} (hi : QueueInv q) {uuid raw_offset : Nat}
    (hmem : (uuid, raw_offset) ∈ q.contexts) {r : ReadIndexRequest}
    (hr : q.reads[raw_offset - q.handled_cnt]? = some r) (r' : ReadIndexRequest)
    (hid : r'.id = r.id) :
    QueueInv { q with contexts := erase uuid q.contexts,
                      reads := q.reads.set (raw_offset - q.handled_cnt) r' } := by
  have hruuid : r.id = uuid := by
    obtain ⟨r₀, hr₀, heq⟩ := getElem?_shape.mp (hi.contexts_ok _ hmem).2
    rw [hr] at hr₀
    cases hr₀
    exact (Prod.mk.inj heq).1
  refine ⟨?_, ?_, ?_, ?_⟩
  · simpa using hi.ready_le
  · -- the uuids are those of the request rewritten with its old place in contexts
    have hids := ids_eq_of_shape
      (@shape_set_self _ _ _ { r' with in_contexts := r.in_contexts } hr hid rfl)
    rw [List.map_set] at hids
    dsimp only
    rw [List.map_set, hids]
    exact hi.ids_nodup
  · exact hi.contexts_nodup.sublist (Tikv.Lib.AssocList.keys_filter_sublist _ _)
  · intro p hp
    simp only [erase, List.mem_filter, decide_eq_true_eq] at hp
    obtain ⟨hp, hne⟩ := hp
    obtain ⟨hle, hsh⟩ := hi.contexts_ok p hp
    refine ⟨hle, ?_⟩
    -- another uuid points to another request
    have hoff : raw_offset - q.handled_cnt ≠ p.2 - q.handled_cnt := by
      intro heq
      have hsh' := (hi.contexts_ok _ hmem).2
      rw [heq, hsh] at hsh'
      exact hne (Prod.mk.inj (Option.some.inj hsh')).1
    simp only [shape_set, List.getElem?_set_ne hoff]
    exact hsh

theorem advance_replica_reads_loop_spec :
    ∀ (states : List (Nat × Nat)) (q : ReadIndexQueue) (min_changed_offset : Option Nat)
      (max_changed_offset : Nat), QueueInv q →
      (min_changed_offset.isSome → max_changed_offset < q.reads.length) →
      (max_changed_offset < q.reads.length ∨ max_changed_offset = 0) →
      ∃ q' min' max', q.advance_replica_reads_loop min_changed_offset max_changed_offset states =
        some (q', min', max') ∧ QueueInv q' ∧ q'.reads.length = q.reads.length ∧
        q'.ready_cnt = q.ready_cnt ∧ (min'.isSome → max' < q'.reads.length)
  | [], q, _, _, hi, hmax, _ => ⟨_, _, _, rfl, hi, rfl, rfl, hmax⟩
  | (uuid, index) :: states, q, min_changed_offset, max_changed_offset, hi, hmax, hzero => by
    cases hl : q.contexts.lookup uuid with
    | none =>
      simp only [ReadIndexQueue.advance_replica_reads_loop, hl]
      exact advance_replica_reads_loop_spec states q _ _ hi hmax hzero
    | some raw_offset =>
      have hmem : (uuid, raw_offset) ∈ q.contexts := by
        rw [Tikv.Lib.AssocList.lookup_eq_lookup_decEq] at hl
        exact Tikv.Lib.AssocList.mem_of_lookup hl
      obtain ⟨hle, hsh⟩ := hi.contexts_ok _ hmem
      obtain ⟨r, hr, hrid⟩ := getElem?_shape.mp hsh
      simp only [Prod.mk.injEq] at hrid
      have hlt : raw_offset - q.handled_cnt < q.reads.length := (List.getElem?_eq_some_iff.mp hr).1
      have hid : ¬ r.id ≠ uuid := fun h => h hrid.1
      simp only [ReadIndexQueue.advance_replica_reads_loop, hl, if_neg (Nat.not_lt.mpr hle), hr,
        if_neg hid]
      split
      · -- an older response with a larger index: only the lock check is recorded
        obtain ⟨q', min', max', h, hi', hlen, hready, hmax'⟩ :=
          advance_replica_reads_loop_spec states _ min_changed_offset max_changed_offset
            (hi.answer hmem hr { r with in_contexts := false, addition_request := false } rfl)
            (by simpa using hmax) (by simpa using hzero)
        exact ⟨q', min', max', h, hi', by simpa using hlen, hready, hmax'⟩
      · obtain ⟨q', min', max', h, hi', hlen, hready, hmax'⟩ :=
          advance_replica_reads_loop_spec states _ _ (max max_changed_offset (raw_offset - q.handled_cnt))
            (hi.answer hmem hr
              { r with in_contexts := false, addition_request := false, read_index := some index } rfl)
            (fun _ => by simp only [List.length_set]; omega)
            (by simp only [List.length_set]; omega)
        exact ⟨q', min', max', h, hi', by simpa using hlen, hready, hmax'⟩

theorem QueueInv.advance_replica_reads {q : ReadIndexQueue} (hi : QueueInv q)
    (states : List (Nat × Nat)) :
    ∃ q', q.advance_replica_reads states = some q' ∧ QueueInv q' := by
  obtain ⟨q', min', max', h, hi', hlen, hready, hmax'⟩ :=
    advance_replica_reads_loop_spec states q none 0 hi (fun h => by cases h) (Or.inr rfl)
  simp only [ReadIndexQueue.advance_replica_reads, h]
  split
  · -- the greatest offset answered is in the queue
    rename_i hsome
    refine ⟨_, rfl, hi'.of_shape rfl rfl rfl ?_⟩
    exact Nat.max_le.mpr ⟨hi'.ready_le, hmax' hsome⟩
  · exact ⟨q', rfl, hi'⟩

theorem pop_front_none {q q' : ReadIndexQueue} (h : q.pop_front = some (none, q')) : q' = q := by
  simp only [ReadIndexQueue.pop_front] at h
  split_ifs at h
  · cases h
    rfl
  · split at h
    · cases h
    · split_ifs at h <;> cases h

theorem pop_front_some {q q' : ReadIndexQueue} {read : ReadIndexRequest}
    (h : q.pop_front = some (some read, q')) :
    ∃ res, q.reads = res :: q'.reads ∧ read = { res with in_contexts := false } ∧
      q.ready_cnt ≠ 0 ∧ q'.ready_cnt = q.ready_cnt - 1 ∧ q'.handled_cnt = q.handled_cnt + 1 ∧
      q'.contexts = if res.in_contexts then erase res.id q.contexts else q.contexts := by
  simp only [ReadIndexQueue.pop_front] at h
  split_ifs at h with h0
  · cases h
  split at h
  · cases h
  rename_i res reads hreads
  split_ifs at h with hin
  · cases h
    exact ⟨res, hreads, rfl, h0, rfl, rfl, by simp [hin]⟩
  · -- the head was not in contexts, and is popped as it is
    cases h
    refine ⟨read, hreads, ?_, h0, rfl, rfl, by simp [hin]⟩
    cases read
    simp_all

theorem QueueInv.pop_front {q q' : ReadIndexQueue} {read : Option ReadIndexRequest}
    (hi : QueueInv q) (h : q.pop_front = some (read, q')) : QueueInv q' := by
  cases read with
  | none => exact (pop_front_none h) ▸ hi
  | some read =>
  obtain ⟨res, hreads, -, h0, hready, hhandled, hcontexts⟩ := pop_front_some h
  have hids := hi.ids_nodup
  rw [hreads, List.map_cons] at hids
  refine ⟨?_, (List.nodup_cons.mp hids).2, ?_, ?_⟩
  · have := hi.ready_le
    rw [hreads, List.length_cons] at this
    omega
  · rw [hcontexts]
    split
    · exact hi.contexts_nodup.sublist (Tikv.Lib.AssocList.keys_filter_sublist _ _)
    · exact hi.contexts_nodup
  · intro p hp
    have hp' : p ∈ q.contexts ∧ (res.in_contexts → p.1 ≠ res.id) := by
      rw [hcontexts] at hp
      split at hp
      · simp only [erase, List.mem_filter, decide_eq_true_eq] at hp
        exact ⟨hp.1, fun _ => hp.2⟩
      · rename_i hin
        exact ⟨hp, fun h => absurd h hin⟩
    obtain ⟨hle, hsh⟩ := hi.contexts_ok p hp'.1
    rw [hreads] at hsh
    -- the head's entry, if it had one, is gone: the others are above it
    have hgt : q.handled_cnt < p.2 := by
      rcases Nat.lt_or_eq_of_le hle with hlt | heq
      · exact hlt
      · rw [← heq, Nat.sub_self] at hsh
        simp only [shape, List.map_cons, List.getElem?_cons_zero, Option.some.injEq,
          Prod.mk.injEq] at hsh
        exact absurd hsh.1.symm (hp'.2 hsh.2)
    refine ⟨by omega, ?_⟩
    rw [hhandled, ← hsh, show p.2 - q.handled_cnt = p.2 - (q.handled_cnt + 1) + 1 by omega]
    simp [shape]

theorem QueueInv.pop_push_front {q q' : ReadIndexQueue} {read : ReadIndexRequest}
    (hi : QueueInv q) (h : q.pop_front = some (some read, q')) : QueueInv (q'.push_front read) := by
  have hi' := hi.pop_front h
  obtain ⟨res, hreads, hread, -, hready, hhandled, -⟩ := pop_front_some h
  have hids := hi.ids_nodup
  rw [hreads, List.map_cons] at hids
  refine ⟨?_, ?_, hi'.contexts_nodup, ?_⟩
  · simp only [ReadIndexQueue.push_front, List.length_cons]
    exact Nat.succ_le_succ hi'.ready_le
  · simpa [ReadIndexQueue.push_front, hread] using hids
  · intro p hp
    obtain ⟨hle, hsh⟩ := hi'.contexts_ok p hp
    refine ⟨by simp only [ReadIndexQueue.push_front]; omega, ?_⟩
    simp only [ReadIndexQueue.push_front]
    rw [show p.2 - (q'.handled_cnt - 1) = p.2 - q'.handled_cnt + 1 by omega, ← hsh]
    simp [shape]

theorem QueueInv.step {q q' : ReadIndexQueue} (hi : QueueInv q) (h : Step q q') : QueueInv q' := by
  cases h with
  | push_back id addition_request is_leader hfresh => exact hi.push_back hfresh _ _
  | advance_leader_reads states _ h => exact hi.advance_leader_reads h
  | advance_replica_reads states h =>
    obtain ⟨q'', h', hi''⟩ := hi.advance_replica_reads states
    rw [h] at h'
    cases h'
    exact hi''
  | pop_front h => exact hi.pop_front h
  | pop_push_front h => exact hi.pop_push_front h
  | clear_uncommitted_on_role_change => exact hi.clear_uncommitted_on_role_change
  | clear_all => exact QueueInv.clear_all

theorem queueInv_reachable {q : ReadIndexQueue} (h : Reachable q) : QueueInv q := by
  induction h with
  | refl => exact queueInv_new
  | tail _ hstep ih => exact ih.step hstep

/-- Over every run, the ready requests are in the queue, each entry of `contexts` points at or
above `handled_cnt` to the request of its uuid, and so `advance_replica_reads` never panics. -/
theorem read_index_queue_offsets_valid {q : ReadIndexQueue} (h : Reachable q) :
    q.ready_cnt ≤ q.reads.length ∧
      (∀ p ∈ q.contexts, q.handled_cnt ≤ p.2 ∧
        ∃ r, q.reads[p.2 - q.handled_cnt]? = some r ∧ r.id = p.1) ∧
      ∀ states, ∃ q', q.advance_replica_reads states = some q' := by
  have hi := queueInv_reachable h
  refine ⟨hi.ready_le, fun p hp => ?_, fun states => ?_⟩
  · obtain ⟨hle, hsh⟩ := hi.contexts_ok p hp
    obtain ⟨r, hr, hid⟩ := getElem?_shape.mp hsh
    exact ⟨hle, r, hr, (Prod.mk.inj hid).1⟩
  · obtain ⟨q', h', -⟩ := hi.advance_replica_reads states
    exact ⟨q', h'⟩

/-- Two follower reads; the response to the first is lost and the second's makes both ready:
the first has neither its read index nor its addition request, and
`post_pending_read_index_on_replica` asserts one of the two before it serves it. -/
theorem follower_read_ready_without_index :
    let q : ReadIndexQueue :=
      ⟨[⟨1, none, false, true⟩, ⟨2, some 100, false, false⟩], 2, 0, [(1, 0)]⟩
    Reachable q ∧
      ∃ r ∈ q.reads.take q.ready_cnt, r.read_index = none ∧ r.addition_request = false := by
  intro q
  have h1 : Step ReadIndexQueue.new ⟨[⟨1, none, false, true⟩], 0, 0, [(1, 0)]⟩ :=
    Step.push_back _ 1 false false (by decide)
  have h2 : Step ⟨[⟨1, none, false, true⟩], 0, 0, [(1, 0)]⟩
      ⟨[⟨1, none, false, true⟩, ⟨2, none, false, true⟩], 0, 0, [(1, 0), (2, 1)]⟩ :=
    Step.push_back _ 2 false false (by decide)
  have h3 : Step ⟨[⟨1, none, false, true⟩, ⟨2, none, false, true⟩], 0, 0, [(1, 0), (2, 1)]⟩ q :=
    Step.advance_replica_reads [(2, 100)] (by decide)
  exact ⟨.tail (.tail (.tail .refl h1) h2) h3, ⟨1, none, false, true⟩, by decide, rfl, rfl⟩

end Tikv.Raftstore
