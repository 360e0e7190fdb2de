import Tikv.Mvcc.Write
import Tikv.Concurrency.MaxTs

/-!
Garbage collection of the versions of one key (src/src/storage/txn/actions/gc.rs). GC walks
the write records newest first, each seek starting one below the last commit timestamp, and
only buffers its deletions in the transaction (src/src/storage/mvcc/txn.rs), so every seek
sees the records as they were before the run. The run may return early once the transaction
holds `MAX_TXN_WRITE_SIZE` bytes; the pending Delete of `RemoveAll` is removed only when the
walk reaches the oldest version.

The records GC removes are the ones `Shadowed` at the safe point, and on completion also the
newest change below it when that is a Delete; the reads at or above the safe point do not see
any of them.
-/

namespace Tikv.Mvcc

open Tikv.Lib.SortedList
open Tikv.Concurrency (TimeStamp.max)

inductive CF
  | CF_DEFAULT
  | CF_LOCK
  | CF_WRITE
  deriving DecidableEq, Repr

def CF.size : CF → Nat
  | .CF_DEFAULT => 0
  | .CF_LOCK => 4
  | .CF_WRITE => 5

inductive Modify
  | Delete (cf : CF) (key : List UInt8) (ts : Nat)
  deriving DecidableEq, Repr

def Modify.size : Modify → Nat
  | .Delete cf key _ => cf.size + (key.length + 8)

structure MvccTxn where
  modifies : List Modify
  write_size : Nat
  deriving DecidableEq, Repr

def MAX_TXN_WRITE_SIZE : Nat := 32 * 1024

def MvccTxn.delete (txn : MvccTxn) (cf : CF) (key : List UInt8) (ts : Nat) : MvccTxn :=
  let write := Modify.Delete cf key ts
  { txn with write_size := txn.write_size + write.size, modifies := txn.modifies ++ [write] }

def MvccTxn.delete_value (txn : MvccTxn) (key : List UInt8) (ts : Nat) : MvccTxn :=
  txn.delete .CF_DEFAULT key ts

def MvccTxn.delete_write (txn : MvccTxn) (key : List UInt8) (ts : Nat) : MvccTxn :=
  txn.delete .CF_WRITE key ts

structure GcInfo where
  found_versions : Nat
  deleted_versions : Nat
  is_completed : Bool
  deriving DecidableEq, Repr

/-- The source's `Gc` without its reader, which is the list of records, and `cur_ts`, which is
the argument of `Gc.run_loop`. -/
structure Gc where
  key : List UInt8
  info : GcInfo
  txn : MvccTxn
  deriving DecidableEq, Repr

def Gc.delete_write (gc : Gc) (write : Write) (ts : Nat) : Gc :=
  let txn := gc.txn.delete_write gc.key ts
  let txn := if write.write_type = .Put ∧ write.short_value = none then
    txn.delete_value gc.key write.start_ts else txn
  { gc with txn, info := { gc.info with deleted_versions := gc.info.deleted_versions + 1 } }

inductive State
  | Rewind (safe_point : Nat)
  | RemoveIdempotent
  | RemoveAll (pending : Option (Nat × Write))
  deriving DecidableEq, Repr

def State.remove_idempotent (gc : Gc) (write : Write) (commit_ts : Nat) : State × Gc :=
  match write.write_type with
  | .Put => (.RemoveAll none, gc)
  | .Delete => (.RemoveAll (some (commit_ts, write)), gc)
  | .Rollback | .Lock => (.RemoveIdempotent, gc.delete_write write commit_ts)

def State.step (state : State) (gc : Gc) (write : Write) (commit_ts : Nat) : State × Gc :=
  match state with
  | .Rewind safe_point =>
    if commit_ts ≤ safe_point then State.remove_idempotent gc write commit_ts else (state, gc)
  | .RemoveIdempotent => State.remove_idempotent gc write commit_ts
  | .RemoveAll pending => (.RemoveAll pending, gc.delete_write write commit_ts)

def Gc.finish (state : State) (gc : Gc) : Gc :=
  let gc := match state with
    | .RemoveAll (some (commit, write)) => gc.delete_write write commit
    | _ => gc
  { gc with info := { gc.info with is_completed := true } }

def Gc.turn (state : State) (gc : Gc) (commit : Nat) (write : Write) : Gc ⊕ (State × Gc) :=
  let gc := { gc with info := { gc.info with found_versions := gc.info.found_versions + 1 } }
  if MAX_TXN_WRITE_SIZE ≤ gc.txn.write_size then .inl gc else .inr (state.step gc write commit)

/-- The loop of `Gc::run` from `cur_ts`; `none` is the panic of `commit.prev()` at 0. -/
def Gc.run_loop (versions : List (Nat × Write)) (state : State) (gc : Gc) (cur_ts : Nat) :
    Option Gc :=
  match _h : seek_write versions cur_ts with
  | none => some (Gc.finish state gc)
  | some (commit, write) =>
    if commit = 0 then none
    else
      match Gc.turn state gc commit write with
      | .inl gc => some gc
      | .inr r => Gc.run_loop versions r.1 r.2 (commit - 1)
termination_by cur_ts
decreasing_by
  have hle := seek_write_le ‹_›
  dsimp only at hle
  omega

def gc (txn : MvccTxn) (key : List UInt8) (versions : List (Nat × Write)) (safe_point : Nat) :
    Option (MvccTxn × GcInfo) :=
  (Gc.run_loop versions (.Rewind safe_point) ⟨key, ⟨0, 0, false⟩, txn⟩ TimeStamp.max).map
    fun g => (g.txn, g.info)

/-- The write records of `key` left once the engine applies the deletions `added`. -/
def apply_writes (key : List UInt8) (added : List Modify) (writes : List (Nat × Write)) :
    List (Nat × Write) :=
  writes.filter fun p => !added.contains (.Delete .CF_WRITE key p.1)

/-- The values of `key` left once the engine applies the deletions `added`. -/
def apply_defaults (key : List UInt8) (added : List Modify) (defaults : List (Nat × List UInt8)) :
    List (Nat × List UInt8) :=
  defaults.filter fun p => !added.contains (.Delete .CF_DEFAULT key p.1)

section Walk

/-! The loop over the records it finds, once `seek_write` is known to step through the list. -/

def Gc.walk : State → Gc → List (Nat × Write) → Gc
  | state, gc, [] => Gc.finish state gc
  | state, gc, (commit, write) :: rest =>
    match Gc.turn state gc commit write with
    | .inl gc => gc
    | .inr r => Gc.walk r.1 r.2 rest

theorem run_loop_eq_walk {versions : List (Nat × Write)}
    (hdesc : versions.Pairwise fun a b => b.1 < a.1) (hpos : ∀ p ∈ versions, 0 < p.1) :
    ∀ (l : List (Nat × Write)) (state : State) (gc : Gc) (cur_ts : Nat),
      (versions.dropWhile fun p => cur_ts < p.1) = l →
        Gc.run_loop versions state gc cur_ts = some (Gc.walk state gc l)
  | [], state, gc, cur_ts, hl => by
    have hseek : seek_write versions cur_ts = none := by rw [seek_write, hl]; rfl
    rw [Gc.run_loop]
    split
    · rfl
    · rename_i h
      rw [hseek] at h
      cases h
  | (commit, write) :: rest, state, gc, cur_ts, hl => by
    have hseek : seek_write versions cur_ts = some (commit, write) := by rw [seek_write, hl]; rfl
    have hc : 0 < commit :=
      hpos _ ((List.dropWhile_sublist _).subset (by rw [hl]; exact List.mem_cons_self))
    rw [Gc.run_loop]
    split
    · rename_i h
      rw [hseek] at h
      cases h
    · rename_i commit' write' h
      rw [hseek] at h
      obtain ⟨rfl, rfl⟩ := Prod.mk.inj (Option.some.inj h)
      rw [if_neg (Nat.pos_iff_ne_zero.mp hc), Gc.walk]
      split
      · rfl
      · exact run_loop_eq_walk hdesc hpos rest _ _ _ (dropWhile_prev hdesc hl hc)

end Walk

section Deletes

def deletes (key : List UInt8) (p : Nat × Write) : List Modify :=
  .Delete .CF_WRITE key p.1 ::
    if p.2.write_type = .Put ∧ p.2.short_value = none then [.Delete .CF_DEFAULT key p.2.start_ts]
    else []

def MvccTxn.Extends (t t' : MvccTxn) (added : List Modify) : Prop :=
  t'.modifies = t.modifies ++ added ∧ t'.write_size = t.write_size + (added.map Modify.size).sum

theorem MvccTxn.extends_nil (t : MvccTxn) : t.Extends t [] := by
  simp [MvccTxn.Extends]

theorem MvccTxn.Extends.trans {t t' t'' : MvccTxn} {a b : List Modify} (h : t.Extends t' a)
    (h' : t'.Extends t'' b) : t.Extends t'' (a ++ b) := by
  obtain ⟨hm, hs⟩ := h
  obtain ⟨hm', hs'⟩ := h'
  refine ⟨by rw [hm', hm, List.append_assoc], ?_⟩
  rw [hs', hs, List.map_append, List.sum_append, Nat.add_assoc]

theorem delete_write_extends (gc : Gc) (write : Write) (ts : Nat) :
    gc.txn.Extends (gc.delete_write write ts).txn (deletes gc.key (ts, write)) := by
  unfold Gc.delete_write deletes
  split <;> simp [MvccTxn.Extends, MvccTxn.delete_write, MvccTxn.delete_value, MvccTxn.delete, *]
  omega

theorem delete_write_modifies (gc : Gc) (write : Write) (ts : Nat) :
    (gc.delete_write write ts).txn.modifies = gc.txn.modifies ++ deletes gc.key (ts, write) :=
  (delete_write_extends gc write ts).1

theorem mem_deletes_write {key : List UInt8} {D : List (Nat × Write)} {k : List UInt8}
    {ts : Nat} : Modify.Delete .CF_WRITE k ts ∈ D.flatMap (deletes key) ↔
      k = key ∧ ∃ d ∈ D, d.1 = ts := by
  simp only [List.mem_flatMap, deletes, List.mem_cons]
  constructor
  · rintro ⟨d, hd, hm | hm⟩
    · cases hm
      exact ⟨rfl, d, hd, rfl⟩
    · split at hm <;> simp at hm
  · rintro ⟨rfl, d, hd, rfl⟩
    exact ⟨d, hd, Or.inl rfl⟩

theorem mem_deletes_default {key : List UInt8} {D : List (Nat × Write)} {k : List UInt8}
    {ts : Nat} (h : Modify.Delete .CF_DEFAULT k ts ∈ D.flatMap (deletes key)) :
    k = key ∧ ∃ d ∈ D, d.2.write_type = .Put ∧ d.2.short_value = none ∧ d.2.start_ts = ts := by
  simp only [List.mem_flatMap, deletes, List.mem_cons] at h
  obtain ⟨d, hd, hm | hm⟩ := h
  · cases hm
  · split at hm
    · rename_i hput
      simp only [List.mem_singleton, Modify.Delete.injEq] at hm
      obtain ⟨-, rfl, rfl⟩ := hm
      exact ⟨rfl, d, hd, hput.1, hput.2, rfl⟩
    · cases hm

theorem not_mem_deletes_lock {key : List UInt8} {D : List (Nat × Write)} {k : List UInt8}
    {ts : Nat} : Modify.Delete .CF_LOCK k ts ∉ D.flatMap (deletes key) := by
  simp only [List.mem_flatMap, deletes, List.mem_cons, not_exists, not_and]
  intro d _ hm
  rcases hm with hm | hm
  · cases hm
  · split at hm <;> simp at hm

end Deletes

section Size

/-! What a run adds to the transaction, and why it stops early. -/

theorem turn_inl {state : State} {gc g : Gc} {commit : Nat} {write : Write}
    (h : Gc.turn state gc commit write = .inl g) :
    MAX_TXN_WRITE_SIZE ≤ g.txn.write_size ∧ g.txn = gc.txn := by
  unfold Gc.turn at h
  dsimp only at h
  split at h
  · cases h
    exact ⟨‹_›, rfl⟩
  · cases h

theorem turn_inr {state : State} {gc : Gc} {commit : Nat} {write : Write} {r : State × Gc}
    (h : Gc.turn state gc commit write = .inr r) :
    r = state.step { gc with info := { gc.info with found_versions := gc.info.found_versions + 1 } }
      write commit := by
  unfold Gc.turn at h
  dsimp only at h
  split at h
  · cases h
  · cases h
    rfl

theorem step_extends (state : State) (gc : Gc) (write : Write) (commit : Nat) :
    ∃ added, gc.txn.Extends (state.step gc write commit).2.txn added := by
  have hrem : ∃ added, gc.txn.Extends (State.remove_idempotent gc write commit).2.txn added := by
    unfold State.remove_idempotent
    split
    · exact ⟨[], gc.txn.extends_nil⟩
    · exact ⟨[], gc.txn.extends_nil⟩
    all_goals exact ⟨_, delete_write_extends gc write commit⟩
  cases state with
  | Rewind safe_point =>
    dsimp only [State.step]
    split
    · exact hrem
    · exact ⟨[], gc.txn.extends_nil⟩
  | RemoveIdempotent => exact hrem
  | RemoveAll pending => exact ⟨_, delete_write_extends gc write commit⟩

@[simp]
theorem finish_is_completed (state : State) (gc : Gc) : (Gc.finish state gc).info.is_completed :=
  rfl

theorem finish_extends (state : State) (gc : Gc) :
    ∃ added, gc.txn.Extends (Gc.finish state gc).txn added := by
  rcases state with _ | _ | _ | ⟨commit, write⟩
  · exact ⟨[], gc.txn.extends_nil⟩
  · exact ⟨[], gc.txn.extends_nil⟩
  · exact ⟨[], gc.txn.extends_nil⟩
  · exact ⟨_, delete_write_extends gc write commit⟩

theorem walk_extends : ∀ (l : List (Nat × Write)) (state : State) (gc : Gc),
    ∃ added, gc.txn.Extends (Gc.walk state gc l).txn added
  | [], state, gc => finish_extends state gc
  | (commit, write) :: rest, state, gc => by
    rw [Gc.walk]
    cases hturn : Gc.turn state gc commit write with
    | inl g => exact ⟨[], (turn_inl hturn).2 ▸ gc.txn.extends_nil⟩
    | inr r =>
      obtain rfl := turn_inr hturn
      obtain ⟨a, ha⟩ := step_extends state
        { gc with info := { gc.info with found_versions := gc.info.found_versions + 1 } } write commit
      obtain ⟨b, hb⟩ := walk_extends rest _ _
      exact ⟨a ++ b, ha.trans hb⟩

theorem walk_stopped : ∀ (l : List (Nat × Write)) (state : State) (gc : Gc),
    (Gc.walk state gc l).info.is_completed = false →
      MAX_TXN_WRITE_SIZE ≤ (Gc.walk state gc l).txn.write_size
  | [], state, gc, h => by
    rw [Gc.walk, finish_is_completed] at h
    cases h
  | (commit, write) :: rest, state, gc, h => by
    rw [Gc.walk] at h ⊢
    cases hturn : Gc.turn state gc commit write with
    | inl g => exact (turn_inl hturn).1
    | inr r =>
      rw [hturn] at h
      exact walk_stopped rest r.1 r.2 h

end Size

section Invariant

variable (key : List UInt8) (sp : Nat) (ws : List (Nat × Write)) (base : List Modify)

def StateOk (P : List (Nat × Write)) : State → Prop
  | .Rewind safe_point => safe_point = sp ∧ ∀ q ∈ P, sp < q.1
  | .RemoveIdempotent =>
    (∃ q ∈ P, q.1 ≤ sp) ∧ ∀ q ∈ P, q.1 ≤ sp → q.2.write_type.changes_value = false
  | .RemoveAll pending => ∃ d ∈ P, d.1 ≤ sp ∧ d.2.write_type.changes_value = true ∧
      ¬Shadowed sp ws d ∧ pending = if d.2.write_type = .Delete then some d else none

structure GcInv (P : List (Nat × Write)) (state : State) (gc : Gc) : Prop where
  state : StateOk sp ws P state
  key_eq : gc.key = key
  incomplete : gc.info.is_completed = false
  modifies : gc.txn.modifies = base ++ (P.filter fun q => decide (Shadowed sp ws q)).flatMap
    (deletes key)

variable {key sp ws base}

theorem GcInv.found_versions {P : List (Nat × Write)} {state : State} {gc : Gc}
    (h : GcInv key sp ws base P state gc) (n : Nat) :
    GcInv key sp ws base P state { gc with info := { gc.info with found_versions := n } } :=
  ⟨h.state, h.key_eq, h.incomplete, h.modifies⟩

theorem flatMap_shadowed_snoc (P : List (Nat × Write)) (p : Nat × Write) :
    ((P ++ [p]).filter fun q => decide (Shadowed sp ws q)).flatMap (deletes key) =
      (P.filter fun q => decide (Shadowed sp ws q)).flatMap (deletes key) ++
        if Shadowed sp ws p then deletes key p else [] := by
  by_cases h : Shadowed sp ws p <;> simp [List.filter_append, h]

section Step

variable (hdesc : ws.Pairwise fun a b => b.1 < a.1)
variable {P l : List (Nat × Write)} {commit : Nat} {write : Write}
variable (hws : ws = P ++ (commit, write) :: l)
include hdesc hws

theorem lt_of_mem_before {q : Nat × Write} (hq : q ∈ P) : commit < q.1 := by
  subst hws
  exact (List.pairwise_append.mp hdesc).2.2 q hq _ List.mem_cons_self

theorem lt_of_mem_after {q : Nat × Write} (hq : q ∈ l) : q.1 < commit := by
  subst hws
  exact (List.pairwise_cons.mp (List.pairwise_append.mp hdesc).2.1).1 q hq

theorem not_shadowed_first (hfree : ∀ q ∈ P, q.1 ≤ sp → q.2.write_type.changes_value = false)
    (hc : write.write_type.changes_value = true) : ¬Shadowed sp ws (commit, write) := by
  rintro ⟨-, hnc | ⟨q, hq, hqsp, hqc, hlt⟩⟩
  · simp [hc] at hnc
  · rw [hws, List.mem_append, List.mem_cons] at hq
    rcases hq with hq | rfl | hq
    · simp [hfree q hq hqsp] at hqc
    · exact lt_irrefl _ hlt
    · exact absurd (lt_of_mem_after hdesc hws hq) (not_lt.mpr (le_of_lt hlt))

theorem GcInv.remove_idempotent {state : State} {gc : Gc}
    (h : GcInv key sp ws base P state gc)
    (hfree : ∀ q ∈ P, q.1 ≤ sp → q.2.write_type.changes_value = false) (hc : commit ≤ sp) :
    GcInv key sp ws base (P ++ [(commit, write)]) (State.remove_idempotent gc write commit).1
      (State.remove_idempotent gc write commit).2 := by
  have hmem : (commit, write) ∈ P ++ [(commit, write)] := by simp
  -- a Put or a Delete is kept and becomes the record `RemoveAll` remembers
  have hkept (hch : write.write_type.changes_value = true) :
      gc.txn.modifies = base ++ ((P ++ [(commit, write)]).filter
        fun q => decide (Shadowed sp ws q)).flatMap (deletes key) := by
    rw [flatMap_shadowed_snoc, if_neg (not_shadowed_first hdesc hws hfree hch), List.append_nil]
    exact h.modifies
  unfold State.remove_idempotent
  split
  · rename_i hput
    have hch : write.write_type.changes_value = true := by simp [hput, WriteType.changes_value]
    exact ⟨⟨_, hmem, hc, hch, not_shadowed_first hdesc hws hfree hch, by simp [hput]⟩,
      h.key_eq, h.incomplete, hkept hch⟩
  · rename_i hdel
    have hch : write.write_type.changes_value = true := by simp [hdel, WriteType.changes_value]
    exact ⟨⟨_, hmem, hc, hch, not_shadowed_first hdesc hws hfree hch, by simp [hdel]⟩,
      h.key_eq, h.incomplete, hkept hch⟩
  all_goals
    rename_i hnd
    have hch : write.write_type.changes_value = false := by simp [hnd, WriteType.changes_value]
    refine ⟨⟨⟨_, hmem, hc⟩, fun q hq hqsp => ?_⟩, h.key_eq, h.incomplete, ?_⟩
    · rcases List.mem_append.mp hq with hq | hq
      · exact hfree q hq hqsp
      · rw [List.mem_singleton.mp hq]
        exact hch
    · rw [delete_write_modifies, flatMap_shadowed_snoc, if_pos ⟨hc, Or.inl hch⟩, h.modifies,
        h.key_eq, List.append_assoc]

theorem GcInv.step {state : State} {gc : Gc} (h : GcInv key sp ws base P state gc) :
    GcInv key sp ws base (P ++ [(commit, write)]) (state.step gc write commit).1
      (state.step gc write commit).2 := by
  cases state with
  | Rewind safe_point =>
    obtain ⟨rfl, habove⟩ := h.state
    dsimp only [State.step]
    by_cases hc : commit ≤ safe_point
    · rw [if_pos hc]
      exact h.remove_idempotent hdesc hws
        (fun q hq hqsp => absurd hqsp (not_le.mpr (habove q hq))) hc
    · rw [if_neg hc]
      refine ⟨⟨rfl, fun q hq => ?_⟩, h.key_eq, h.incomplete, ?_⟩
      · rcases List.mem_append.mp hq with hq | hq
        · exact habove q hq
        · rw [List.mem_singleton.mp hq]
          exact not_le.mp hc
      · rw [flatMap_shadowed_snoc, if_neg fun hs => hc hs.1, List.append_nil]
        exact h.modifies
  | RemoveIdempotent =>
    obtain ⟨⟨q, hq, hqsp⟩, hfree⟩ := h.state
    exact h.remove_idempotent hdesc hws hfree
      (le_of_lt (lt_of_lt_of_le (lt_of_mem_before hdesc hws hq) hqsp))
  | RemoveAll pending =>
    obtain ⟨d, hd, hdsp, hdc, hdn, hpend⟩ := h.state
    -- everything after the remembered change is older than it, hence shadowed by it
    have hlt : commit < d.1 := lt_of_mem_before hdesc hws hd
    have hshadow : Shadowed sp ws (commit, write) :=
      ⟨by dsimp only; omega, Or.inr ⟨d, by rw [hws]; exact List.mem_append_left _ hd, hdsp, hdc, hlt⟩⟩
    refine ⟨⟨d, List.mem_append_left _ hd, hdsp, hdc, hdn, hpend⟩, h.key_eq, h.incomplete, ?_⟩
    rw [State.step, delete_write_modifies, flatMap_shadowed_snoc, if_pos hshadow, h.modifies,
      h.key_eq, List.append_assoc]

end Step

theorem walk_spec (hdesc : ws.Pairwise fun a b => b.1 < a.1) :
    ∀ (l P : List (Nat × Write)) (state : State) (gc : Gc), ws = P ++ l →
      GcInv key sp ws base P state gc →
        (∃ P' l' state', ws = P' ++ l' ∧ GcInv key sp ws base P' state' (Gc.walk state gc l)) ∨
          ∃ state' gc', GcInv key sp ws base ws state' gc' ∧
            Gc.walk state gc l = Gc.finish state' gc'
  | [], P, state, gc, hws, h => by
    rw [List.append_nil] at hws
    subst hws
    exact Or.inr ⟨state, gc, h, rfl⟩
  | (commit, write) :: l, P, state, gc, hws, h => by
    rw [Gc.walk, Gc.turn]
    split
    · rename_i g hg
      split at hg
      · cases hg
        exact Or.inl ⟨P, _, state, hws, h.found_versions _⟩
      · cases hg
    · rename_i r hr
      split at hr
      · cases hr
      · cases hr
        exact walk_spec hdesc l _ _ _ (by simp [hws]) ((h.found_versions _).step hdesc hws)

end Invariant

section Outcome

variable {key : List UInt8} {sp : Nat} {ws : List (Nat × Write)} {base : List Modify}

def State.pending_delete : State → List (Nat × Write)
  | .RemoveAll (some p) => [p]
  | _ => []

theorem finish_modifies (state : State) (gc : Gc) :
    (Gc.finish state gc).txn.modifies =
      gc.txn.modifies ++ state.pending_delete.flatMap (deletes gc.key) := by
  rcases state with _ | _ | _ | ⟨commit, write⟩ <;>
    simp [Gc.finish, State.pending_delete, delete_write_modifies]

/-- The records a run deleted: records of the key, each shadowed at the safe point or a Delete
deleted with every change below it; the run deletes from the newest down, so every shadowed
record above a deleted one is deleted too; and once the run completed, every record at or below
the safe point it left is a Put that nothing shadows. -/
structure Deleted (sp : Nat) (ws : List (Nat × Write)) (completed : Bool)
    (D : List (Nat × Write)) : Prop where
  sub : ∀ p ∈ D, p ∈ ws
  shadowed_or_last : ∀ p ∈ D, Shadowed sp ws p ∨ (p.2.write_type = .Delete ∧
    ∀ q ∈ ws, q.1 ≤ p.1 → q.2.write_type.changes_value = true → q ∈ D)
  upward : ∀ p ∈ D, ∀ q ∈ ws, Shadowed sp ws q → p.1 < q.1 → q ∈ D
  complete : completed = true → ∀ p ∈ ws, p.1 ≤ sp → p ∉ D →
    p.2.write_type = .Put ∧ ¬Shadowed sp ws p

theorem GcInv.deleted_of_stopped (hdesc : ws.Pairwise fun a b => b.1 < a.1)
    {P l : List (Nat × Write)} {state : State} {gc : Gc}
    (hws : ws = P ++ l) (h : GcInv key sp ws base P state gc) :
    Deleted sp ws gc.info.is_completed (P.filter fun q => decide (Shadowed sp ws q)) where
  sub p hp := by
    rw [hws]
    exact List.mem_append_left _ (List.mem_filter.mp hp).1
  shadowed_or_last p hp := Or.inl (by simpa using (List.mem_filter.mp hp).2)
  upward p hp q hq hs hlt := by
    -- the records the walk has not reached are older than every record it has
    have hpP := (List.mem_filter.mp hp).1
    rw [hws, List.mem_append] at hq
    rcases hq with hq | hq
    · exact List.mem_filter.mpr ⟨hq, by simpa using hs⟩
    · subst hws
      exact absurd hlt (not_lt.mpr (le_of_lt ((List.pairwise_append.mp hdesc).2.2 p hpP q hq)))
  complete hc := by simp [h.incomplete] at hc

theorem GcInv.deleted_of_finish (hdesc : ws.Pairwise fun a b => b.1 < a.1) {state : State}
    {gc : Gc} (h : GcInv key sp ws base ws state gc) :
    Deleted sp ws (Gc.finish state gc).info.is_completed
      ((ws.filter fun q => decide (Shadowed sp ws q)) ++ state.pending_delete) := by
  have hsh {p : Nat × Write} (hp : p ∈ ws) (hs : Shadowed sp ws p) :
      p ∈ (ws.filter fun q => decide (Shadowed sp ws q)) ++ state.pending_delete :=
    List.mem_append_left _ (List.mem_filter.mpr ⟨hp, by simpa using hs⟩)
  rcases state with safe_point | _ | pending
  · -- Rewind: every record is above the safe point and nothing is held back
    obtain ⟨rfl, habove⟩ := h.state
    refine ⟨fun p hp => ?_, fun p hp => ?_, fun _ _ q hq hs _ => hsh hq hs,
      fun _ p hp hsp _ => ?_⟩
    · exact (by simpa [State.pending_delete] using hp : p ∈ ws ∧ _).1
    · exact Or.inl (by simpa [State.pending_delete] using hp : p ∈ ws ∧ _).2
    · exact absurd hsp (not_le.mpr (habove p hp))
  · -- RemoveIdempotent: no record at or below the safe point changes the value
    obtain ⟨-, hfree⟩ := h.state
    refine ⟨fun p hp => ?_, fun p hp => ?_, fun _ _ q hq hs _ => hsh hq hs,
      fun _ p hp hsp hnd => ?_⟩
    · exact (by simpa [State.pending_delete] using hp : p ∈ ws ∧ _).1
    · exact Or.inl (by simpa [State.pending_delete] using hp : p ∈ ws ∧ _).2
    · exact absurd (hsh hp ⟨hsp, Or.inl (hfree p hp hsp)⟩) hnd
  · obtain ⟨d, hd, hdsp, hdc, hdn, hpend⟩ := h.state
    -- the record held back is `d`, and only when `d` is a Delete
    have hpd : ∀ p ∈ (State.RemoveAll pending).pending_delete, p = d ∧ p.2.write_type = .Delete := by
      intro p hp
      subst hpend
      split at hp
      · rename_i hdel
        have hpeq : p = d := by simpa [State.pending_delete] using hp
        exact ⟨hpeq, hpeq ▸ hdel⟩
      · simp [State.pending_delete] at hp
    refine ⟨fun p hp => ?_, fun p hp => ?_, fun _ _ q hq hs _ => hsh hq hs,
      fun _ p hp hsp hnd => ?_⟩
    · rcases List.mem_append.mp hp with hp | hp
      · exact (List.mem_filter.mp hp).1
      · rw [(hpd p hp).1]
        exact hd
    · rcases List.mem_append.mp hp with hp' | hp'
      · exact Or.inl (by simpa using (List.mem_filter.mp hp').2)
      · obtain ⟨rfl, hdel⟩ := hpd p hp'
        refine Or.inr ⟨hdel, fun q hq hle hqc => ?_⟩
        rcases lt_or_eq_of_le hle with hlt | heq
        · exact hsh hq ⟨by omega, Or.inr ⟨p, hd, hdsp, hdc, hlt⟩⟩
        · rw [key_inj hdesc hq hd heq]
          exact hp
    · have hns : ¬Shadowed sp ws p := fun hs => hnd (hsh hp hs)
      obtain ⟨hpc, hpnew⟩ := changes_of_not_shadowed hsp hns
      obtain ⟨-, hdnew⟩ := changes_of_not_shadowed hdsp hdn
      have hpd_eq : p = d :=
        key_inj hdesc hp hd (le_antisymm (hdnew p hp hsp hpc) (hpnew d hd hdsp hdc))
      subst hpd_eq
      refine ⟨?_, hns⟩
      rcases WriteType.eq_of_changes_value hpc with hput | hdel
      · exact hput
      · refine absurd (List.mem_append_right _ ?_) hnd
        simp [hpend, hdel, State.pending_delete]

theorem run_loop_initial (txn : MvccTxn) (v : Versions)
    (hts : ∀ p ∈ v.writes, 0 < p.1 ∧ p.1 ≤ TimeStamp.max) :
    Gc.run_loop v.writes (.Rewind sp) ⟨key, ⟨0, 0, false⟩, txn⟩ TimeStamp.max =
      some (Gc.walk (.Rewind sp) ⟨key, ⟨0, 0, false⟩, txn⟩ v.writes) :=
  run_loop_eq_walk v.desc (fun p hp => (hts p hp).1) v.writes _ _ _
    (dropWhile_of_le fun p hp => (hts p hp).2)

theorem run_deleted (txn : MvccTxn) (v : Versions)
    (hts : ∀ p ∈ v.writes, 0 < p.1 ∧ p.1 ≤ TimeStamp.max) :
    ∃ g D, Gc.run_loop v.writes (.Rewind sp) ⟨key, ⟨0, 0, false⟩, txn⟩ TimeStamp.max = some g ∧
      g.txn.modifies = txn.modifies ++ D.flatMap (deletes key) ∧
      Deleted sp v.writes g.info.is_completed D := by
  rw [run_loop_initial txn v hts]
  have h0 : GcInv key sp v.writes txn.modifies [] (.Rewind sp) ⟨key, ⟨0, 0, false⟩, txn⟩ :=
    ⟨⟨rfl, by simp⟩, rfl, rfl, by simp⟩
  rcases walk_spec v.desc v.writes [] _ _ rfl h0 with ⟨P, l, state, hws, h⟩ | ⟨state, g, h, heq⟩
  · exact ⟨_, _, rfl, h.modifies, h.deleted_of_stopped v.desc hws⟩
  · refine ⟨_, _, rfl, ?_, heq ▸ h.deleted_of_finish v.desc⟩
    rw [heq, finish_modifies, h.modifies, h.key_eq, List.append_assoc, List.flatMap_append]

theorem mem_deleted_iff {D : List (Nat × Write)} (v : Versions) (hD : ∀ p ∈ D, p ∈ v.writes)
    {p : Nat × Write} (hp : p ∈ v.writes) :
    Modify.Delete .CF_WRITE key p.1 ∈ D.flatMap (deletes key) ↔ p ∈ D := by
  rw [mem_deletes_write]
  constructor
  · rintro ⟨-, d, hd, heq⟩
    rw [← key_inj v.desc (hD d hd) hp heq]
    exact hd
  · exact fun hpD => ⟨rfl, p, hpD, rfl⟩

/-- What GC guarantees for the deletions `added` of one run over the records of `key`, which
leaves the transaction at `write_size`: the reads at or above the safe point do not change; it
deletes records of `key` only, and a default value only with the Put record whose value it is;
it deletes from the newest record down; it stops before the end only once the transaction is
full; and when it completed, the only record it leaves at or below the safe point is the newest
change there, when that is a Put. -/
structure GcSafe (key : List UInt8) (v : Versions) (safe_point : Nat) (added : List Modify)
    (info : GcInfo) (write_size : Nat) : Prop where
  reads : ∀ ts, safe_point ≤ ts →
    reference_read (apply_writes key added v.writes) ts = reference_read v.writes ts
  paired : ∀ cf k ts, Modify.Delete cf k ts ∈ added → k = key ∧
    ((cf = .CF_WRITE ∧ ∃ p ∈ v.writes, p.1 = ts) ∨
      (cf = .CF_DEFAULT ∧ ∃ p ∈ v.writes, Modify.Delete .CF_WRITE key p.1 ∈ added ∧
        p.2.write_type = .Put ∧ p.2.short_value = none ∧ p.2.start_ts = ts))
  newest_first : ∀ p ∈ v.writes, Modify.Delete .CF_WRITE key p.1 ∈ added → ∀ q ∈ v.writes,
    Shadowed safe_point v.writes q → p.1 < q.1 → Modify.Delete .CF_WRITE key q.1 ∈ added
  stopped : info.is_completed = false → MAX_TXN_WRITE_SIZE ≤ write_size
  completed : info.is_completed = true → ∀ p ∈ apply_writes key added v.writes,
    p.1 ≤ safe_point → p.2.write_type = .Put ∧
      v.writes.find? (fun q => decide (q.1 ≤ safe_point) && q.2.write_type.changes_value) = some p

theorem reads_of_deleted {v : Versions} {completed : Bool} {D : List (Nat × Write)}
    (h : Deleted sp v.writes completed D) {ts : Nat} (hts : sp ≤ ts) :
    reference_read (apply_writes key (D.flatMap (deletes key)) v.writes) ts =
      reference_read v.writes ts := by
  apply reference_read_filter v _ hts
  intro p hp hk
  have hpD : p ∈ D := (mem_deleted_iff v h.sub hp).mp (by simpa using hk)
  rcases h.shadowed_or_last p hpD with hs | ⟨hdel, hbelow⟩
  · exact Or.inl hs
  · refine Or.inr ⟨hdel, fun q hq hle hqc => ?_⟩
    simpa using (mem_deleted_iff v h.sub hq).mpr (hbelow q hq hle hqc)

theorem gcSafe_of_deleted {v : Versions} {completed : Bool} {D : List (Nat × Write)}
    (h : Deleted sp v.writes completed D) (info : GcInfo) (hinfo : info.is_completed = completed)
    {write_size : Nat} (hstop : info.is_completed = false → MAX_TXN_WRITE_SIZE ≤ write_size) :
    GcSafe key v sp (D.flatMap (deletes key)) info write_size where
  reads _ hts := reads_of_deleted h hts
  paired cf k ts hm := by
    cases cf with
    | CF_DEFAULT =>
      obtain ⟨rfl, d, hd, hput, hshort, hstart⟩ := mem_deletes_default hm
      exact ⟨rfl, Or.inr ⟨rfl, d, h.sub d hd, (mem_deleted_iff v h.sub (h.sub d hd)).mpr hd,
        hput, hshort, hstart⟩⟩
    | CF_LOCK => exact absurd hm not_mem_deletes_lock
    | CF_WRITE =>
      obtain ⟨rfl, d, hd, rfl⟩ := mem_deletes_write.mp hm
      exact ⟨rfl, Or.inl ⟨rfl, d, h.sub d hd, rfl⟩⟩
  newest_first p hp hpd q hq hs hlt := by
    have hpD := (mem_deleted_iff v h.sub hp).mp hpd
    exact (mem_deleted_iff v h.sub hq).mpr (h.upward p hpD q hq hs hlt)
  stopped := hstop
  completed hc p hp hsp := by
    obtain ⟨hpw, hk⟩ := List.mem_filter.mp hp
    have hpD : p ∉ D := fun hpD => by simp [(mem_deleted_iff v h.sub hpw).mpr hpD] at hk
    obtain ⟨hput, hns⟩ := h.complete (hinfo ▸ hc) p hpw hsp hpD
    exact ⟨hput, find?_of_not_shadowed v hpw hsp hns⟩

end Outcome

/-- The versions of test_gc_imp in gc.rs: a rolled back Put at 55, a Lock committed at 50, Puts
committed at 40, 20 and 10 and a Delete committed at 30. -/
def test_gc_layout : Versions where
  writes := [(55, ⟨.Rollback, 55, none, false, none, .Unknown⟩),
    (50, ⟨.Lock, 45, none, false, none, .Exist 40 1⟩),
    (40, ⟨.Put, 35, none, false, none, .Unknown⟩),
    (30, ⟨.Delete, 25, none, false, none, .Unknown⟩),
    (20, ⟨.Put, 15, some [120, 49, 53], false, none, .Unknown⟩),
    (10, ⟨.Put, 5, none, false, none, .Unknown⟩)]
  desc := by decide

/-- At safe point 32 GC deletes the records at 20 and 10 with the value of the Put at 10, and the
Delete at 30 last; the reads at 40 and above are untouched (test_gc_imp). -/
example : (Gc.walk (.Rewind 32) ⟨[107], ⟨0, 0, false⟩, ⟨[], 0⟩⟩ test_gc_layout.writes).txn.modifies =
    [.Delete .CF_WRITE [107] 20, .Delete .CF_WRITE [107] 10, .Delete .CF_DEFAULT [107] 5,
      .Delete .CF_WRITE [107] 30] := by
  decide

/-- GC of a key whose commit timestamps are valid returns, whether it completes or stops early,
and the deletions it adds to the transaction, each counted in its write size, keep what `GcSafe`
states. -/
theorem gc_keeps_reads (txn : MvccTxn) (key : List UInt8) (v : Versions) (safe_point : Nat)
    (hts : ∀ p ∈ v.writes, 0 < p.1 ∧ p.1 ≤ TimeStamp.max) :
    ∃ txn' info added, gc txn key v.writes safe_point = some (txn', info) ∧
      txn'.modifies = txn.modifies ++ added ∧
      txn'.write_size = txn.write_size + (added.map Modify.size).sum ∧
      GcSafe key v safe_point added info txn'.write_size := by
  obtain ⟨g, D, hrun, hmod, hdel⟩ := @run_deleted key safe_point txn v hts
  have hg : g = Gc.walk (.Rewind safe_point) ⟨key, ⟨0, 0, false⟩, txn⟩ v.writes :=
    Option.some.inj (hrun.symm.trans (run_loop_initial txn v hts))
  obtain ⟨added, hadd, hsize⟩ := walk_extends v.writes (.Rewind safe_point) ⟨key, ⟨0, 0, false⟩, txn⟩
  rw [← hg] at hadd hsize
  -- the walk's own record of what it added is the list of deletions of the records it deleted
  obtain rfl : added = D.flatMap (deletes key) := List.append_cancel_left (hadd.symm.trans hmod)
  have hstop : g.info.is_completed = false → MAX_TXN_WRITE_SIZE ≤ g.txn.write_size := by
    rw [hg]
    exact walk_stopped _ _ _
  exact ⟨g.txn, g.info, _, by simp [gc, hrun], hmod, hsize,
    gcSafe_of_deleted hdel g.info rfl hstop⟩

theorem gc_keeps_reads_layout :
    (∀ p ∈ test_gc_layout.writes, 0 < p.1 ∧ p.1 ≤ TimeStamp.max) ∧
      ∃ txn' info added, gc ⟨[], 0⟩ [107] test_gc_layout.writes 32 = some (txn', info) ∧
        txn'.modifies = [] ++ added ∧ txn'.write_size = 0 + (added.map Modify.size).sum ∧
        GcSafe [107] test_gc_layout 32 added info txn'.write_size :=
  have hts : ∀ p ∈ test_gc_layout.writes, 0 < p.1 ∧ p.1 ≤ TimeStamp.max := by decide
  ⟨hts, gc_keeps_reads ⟨[], 0⟩ [107] test_gc_layout 32 hts⟩

end Tikv.Mvcc
