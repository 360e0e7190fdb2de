import Tikv.Concurrency.MaxTs
import Mathlib

/-!
Async commit against readers of one key. A reader (`prepare_snap_ctx` in
src/src/storage/mod.rs) first raises `max_ts` to its start timestamp and then reads the key's
in-memory lock (`read_key_check`, under the key handle's mutex); the prewriter
(`async_commit_timestamps` in src/src/storage/txn/actions/prewrite.rs) reads `max_ts` and
stores its lock in one section under the same mutex. Each of these is an atomic step, and
the steps of any number of readers, the prewriter, other updates of `max_ts` and refreshes of
its limit interleave in any order.
-/

namespace Tikv.Concurrency

open Relation

structure Lock where
  min_commit_ts : Nat
  deriving DecidableEq, Repr

structure CommitTsTooLarge where
  start_ts : Nat
  min_commit_ts : Nat
  max_commit_ts : Nat
  deriving DecidableEq, Repr

/-- The section under the key guard: the commit timestamp and the lock to store, an error for a
fallback to two-phase commit, or `none` where `TimeStamp::next` panics. -/
def async_commit_timestamps (cm : ConcurrencyManager) (lock : Lock)
    (start_ts for_update_ts max_commit_ts : Nat) :
    Option (Except CommitTsTooLarge (Nat × Lock)) :=
  let max_ts := cm.max_ts
  let ts := max (max max_ts start_ts) for_update_ts
  if ts = TimeStamp.max then none
  else
    let min_commit_ts := max lock.min_commit_ts (ts + 1)
    if max_commit_ts ≠ 0 ∧ max_commit_ts < min_commit_ts then
      some (.error ⟨start_ts, min_commit_ts, max_commit_ts⟩)
    else some (.ok (min_commit_ts, { lock with min_commit_ts }))

theorem async_commit_timestamps_gt {cm : ConcurrencyManager} {lock lock' : Lock}
    {start_ts for_update_ts max_commit_ts c : Nat}
    (h : async_commit_timestamps cm lock start_ts for_update_ts max_commit_ts =
      some (.ok (c, lock'))) : cm.max_ts < lock'.min_commit_ts ∧ c = lock'.min_commit_ts := by
  dsimp only [async_commit_timestamps] at h
  split at h
  · cases h
  · split at h
    · cases h
    · cases h
      refine ⟨?_, rfl⟩
      dsimp only
      omega

theorem async_commit_timestamps_cases (cm : ConcurrencyManager) (lock : Lock)
    (start_ts for_update_ts max_commit_ts : Nat)
    (hts : max (max cm.max_ts start_ts) for_update_ts < TimeStamp.max) :
    let min_commit_ts := max lock.min_commit_ts (max (max cm.max_ts start_ts) for_update_ts + 1)
    ((max_commit_ts = 0 ∨ min_commit_ts ≤ max_commit_ts) ∧
      async_commit_timestamps cm lock start_ts for_update_ts max_commit_ts =
        some (.ok (min_commit_ts, ⟨min_commit_ts⟩))) ∨
    ((max_commit_ts ≠ 0 ∧ max_commit_ts < min_commit_ts) ∧
      async_commit_timestamps cm lock start_ts for_update_ts max_commit_ts =
        some (.error ⟨start_ts, min_commit_ts, max_commit_ts⟩)) := by
  intro min_commit_ts
  simp only [async_commit_timestamps, if_neg (Nat.ne_of_lt hts)]
  by_cases hfall : max_commit_ts ≠ 0 ∧ max_commit_ts < min_commit_ts
  · right
    exact ⟨hfall, by rw [if_pos hfall]⟩
  · left
    refine ⟨by omega, ?_⟩
    rw [if_neg hfall]

inductive ReaderPhase
  | start
  | max_ts_updated
  | checked (observed : Option Lock)
  | failed
  deriving DecidableEq, Repr

structure Reader where
  start_ts : Nat
  phase : ReaderPhase
  deriving DecidableEq, Repr

def ReaderPhase.after_update : Except InvalidMaxTsUpdate Unit → ReaderPhase
  | .ok () => .max_ts_updated
  | .error _ => .failed

def ReaderPhase.updated : ReaderPhase → Prop
  | .max_ts_updated => True
  | .checked _ => True
  | _ => False

inductive PrewritePhase
  | pending
  | stored (min_commit_ts : Nat)
  | fallback
  deriving DecidableEq, Repr

structure Prewrite where
  lock : Lock
  start_ts : Nat
  for_update_ts : Nat
  max_commit_ts : Nat

structure Sys where
  cm : ConcurrencyManager
  lock_store : Option Lock
  readers : List Reader
  prewrite : PrewritePhase
  deriving DecidableEq, Repr

def Sys.init (cm : ConcurrencyManager) (start_ts : List Nat) : Sys :=
  ⟨cm, none, start_ts.map fun r => ⟨r, .start⟩, .pending⟩

inductive Step (pw : Prewrite) : Sys → Sys → Prop
  | update_max_ts {s : Sys} {i r : Nat} {res : Except InvalidMaxTsUpdate Unit}
      {cm' : ConcurrencyManager} (tso : Option Nat) (now : Nat) :
      s.readers[i]? = some ⟨r, .start⟩ → s.cm.update_max_ts r none tso now = some (res, cm') →
      Step pw s { s with cm := cm', readers := s.readers.set i ⟨r, ReaderPhase.after_update res⟩ }
  | read_key_check {s : Sys} {i r : Nat} :
      s.readers[i]? = some ⟨r, .max_ts_updated⟩ →
      Step pw s { s with readers := s.readers.set i ⟨r, .checked s.lock_store⟩ }
  | prewrite_stored {s : Sys} {c : Nat} {lock : Lock} : s.prewrite = .pending →
      async_commit_timestamps s.cm pw.lock pw.start_ts pw.for_update_ts pw.max_commit_ts =
        some (.ok (c, lock)) →
      Step pw s { s with lock_store := some lock, prewrite := .stored c }
  | prewrite_fallback {s : Sys} {e : CommitTsTooLarge} : s.prewrite = .pending →
      async_commit_timestamps s.cm pw.lock pw.start_ts pw.for_update_ts pw.max_commit_ts =
        some (.error e) →
      Step pw s { s with prewrite := .fallback }
  | other_update_max_ts {s : Sys} {new_ts : Nat} {request_origin_for_check : Option RequestOrigin}
      {res : Except InvalidMaxTsUpdate Unit} {cm' : ConcurrencyManager} (tso : Option Nat)
      (now : Nat) : s.cm.update_max_ts new_ts request_origin_for_check tso now = some (res, cm') →
      Step pw s { s with cm := cm' }
  | set_max_ts_limit {s : Sys} (ts_from_tso now : Nat) :
      Step pw s { s with cm := s.cm.set_max_ts_limit ts_from_tso now }

def Reachable (pw : Prewrite) (s : Sys) : Prop :=
  ∃ cm start_ts, ReflTransGen (Step pw) (Sys.init cm start_ts) s

theorem step_max_ts_le {pw : Prewrite} {s s' : Sys} (h : Step pw s s') : s.cm.max_ts ≤ s'.cm.max_ts := by
  cases h with
  | update_max_ts _ _ _ hu => exact ConcurrencyManager.update_max_ts_mono hu
  | other_update_max_ts _ _ hu => exact ConcurrencyManager.update_max_ts_mono hu
  | set_max_ts_limit => exact Nat.le_of_eq (ConcurrencyManager.set_max_ts_limit_max_ts _ _ _).symm
  | _ => exact Nat.le_refl _

/-- Every reader past `update_max_ts` has its start timestamp at most `max_ts` (the maximal
timestamp apart), and a reader that found no lock has a start timestamp below the stored
lock's commit timestamp. -/
structure VisInv (s : Sys) : Prop where
  updated_le : ∀ rd ∈ s.readers, rd.start_ts ≠ TimeStamp.max → rd.phase.updated →
    rd.start_ts ≤ s.cm.max_ts
  unobserved_lt : ∀ rd ∈ s.readers, rd.start_ts ≠ TimeStamp.max → rd.phase = .checked none →
    ∀ lock, s.lock_store = some lock → rd.start_ts < lock.min_commit_ts

theorem visInv_init (cm : ConcurrencyManager) (start_ts : List Nat) :
    VisInv (Sys.init cm start_ts) where
  updated_le rd hrd := by
    obtain ⟨r, -, rfl⟩ := List.mem_map.mp hrd
    intro _ hu
    cases hu
  unobserved_lt _ _ _ _ lock hl := by cases hl

theorem mem_set_reader {l : List Reader} {i : Nat} {x rd : Reader} (h : rd ∈ l.set i x) :
    rd ∈ l ∨ rd = x :=
  List.mem_or_eq_of_mem_set h

theorem VisInv.step {pw : Prewrite} {s s' : Sys} (hi : VisInv s) (h : Step pw s s') : VisInv s' := by
  have hmax := step_max_ts_le h
  cases h with
  | update_max_ts tso now hr hu =>
    rename_i i r res cm'
    refine ⟨fun rd hrd hne hupd => ?_, fun rd hrd hne hph lock hl => ?_⟩
    · rcases mem_set_reader hrd with hrd | rfl
      · exact Nat.le_trans (hi.updated_le rd hrd hne hupd) hmax
      · -- the reader itself: past the update only when it returned `Ok`
        cases res with
        | ok u => exact ConcurrencyManager.update_max_ts_ok hu hne
        | error e => cases hupd
    · rcases mem_set_reader hrd with hrd | rfl
      · exact hi.unobserved_lt rd hrd hne hph lock hl
      · cases res <;> cases hph
  | read_key_check hr =>
    rename_i i r
    have hmem : (⟨r, .max_ts_updated⟩ : Reader) ∈ s.readers := List.mem_of_getElem? hr
    refine ⟨fun rd hrd hne hupd => ?_, fun rd hrd hne hph lock hl => ?_⟩
    · rcases mem_set_reader hrd with hrd | rfl
      · exact hi.updated_le rd hrd hne hupd
      · exact hi.updated_le ⟨r, .max_ts_updated⟩ hmem hne trivial
    · rcases mem_set_reader hrd with hrd | rfl
      · exact hi.unobserved_lt rd hrd hne hph lock hl
      · -- it found no lock, and the lock store has not changed since
        have hn : s.lock_store = none := ReaderPhase.checked.inj hph
        rw [hn] at hl
        cases hl
  | prewrite_stored hp hc =>
    obtain ⟨hlt, -⟩ := async_commit_timestamps_gt hc
    refine ⟨fun rd hrd hne hupd => hi.updated_le rd hrd hne hupd, fun rd hrd hne hph lock hl => ?_⟩
    cases hl
    have hupd : rd.phase.updated := by rw [hph]; trivial
    exact Nat.lt_of_le_of_lt (hi.updated_le rd hrd hne hupd) hlt
  | prewrite_fallback => exact ⟨hi.updated_le, hi.unobserved_lt⟩
  | other_update_max_ts tso now hu =>
    exact ⟨fun rd hrd hne hupd => Nat.le_trans (hi.updated_le rd hrd hne hupd) hmax,
      hi.unobserved_lt⟩
  | set_max_ts_limit ts_from_tso now =>
    exact ⟨fun rd hrd hne hupd => Nat.le_trans (hi.updated_le rd hrd hne hupd) hmax,
      hi.unobserved_lt⟩

theorem visInv_reachable {pw : Prewrite} {s : Sys} (hr : Reachable pw s) : VisInv s := by
  obtain ⟨cm, start_ts, hrun⟩ := hr
  induction hrun with
  | refl => exact visInv_init cm start_ts
  | tail _ hstep ih => exact ih.step hstep

/-- Lock visibility for async commit, at a reachable state: a reader that found no lock has a
start timestamp below the commit timestamp of any lock stored, no step lowers `max_ts`, and an
update that returns `Ok` leaves `max_ts` at least the timestamp it was given. -/
structure AsyncCommitSafe (pw : Prewrite) (s : Sys) : Prop where
  visible : ∀ rd ∈ s.readers, rd.start_ts ≠ TimeStamp.max → rd.phase = .checked none →
    ∀ lock, s.lock_store = some lock → rd.start_ts < lock.min_commit_ts
  max_ts_mono : ∀ s', Step pw s s' → s.cm.max_ts ≤ s'.cm.max_ts
  update_ok : ∀ new_ts request_origin_for_check tso now cm',
    s.cm.update_max_ts new_ts request_origin_for_check tso now = some (.ok (), cm') →
    new_ts ≠ TimeStamp.max → new_ts ≤ cm'.max_ts

theorem async_commit_lock_visible {pw : Prewrite} {s : Sys} (hr : Reachable pw s) :
    AsyncCommitSafe pw s where
  visible := (visInv_reachable hr).unobserved_lt
  max_ts_mono _ h := step_max_ts_le h
  update_ok _ _ _ _ _ hu hmax := ConcurrencyManager.update_max_ts_ok hu hmax

theorem async_commit_lock_visible_run :
    let pw : Prewrite := ⟨⟨0⟩, 1, 0, 0⟩
    let cm : ConcurrencyManager := ConcurrencyManager.new_with_config 0 0 .Panic 0 0
    let s : Sys := ⟨{ cm with max_ts := 5 }, some ⟨6⟩, [⟨5, .checked none⟩], .stored 6⟩
    Reachable pw s ∧ AsyncCommitSafe pw s := by
  intro pw cm s
  have h1 : Step pw (Sys.init cm [5]) ⟨{ cm with max_ts := 5 }, none, [⟨5, .max_ts_updated⟩], .pending⟩ :=
    @Step.update_max_ts pw (Sys.init cm [5]) 0 5 (.ok ()) { cm with max_ts := 5 } none 0 rfl rfl
  have h2 : Step pw ⟨{ cm with max_ts := 5 }, none, [⟨5, .max_ts_updated⟩], .pending⟩
      ⟨{ cm with max_ts := 5 }, none, [⟨5, .checked none⟩], .pending⟩ :=
    @Step.read_key_check pw _ 0 5 rfl
  have h3 : Step pw ⟨{ cm with max_ts := 5 }, none, [⟨5, .checked none⟩], .pending⟩ s :=
    @Step.prewrite_stored pw _ 6 ⟨6⟩ rfl rfl
  have hr : Reachable pw s := ⟨cm, [5], ((ReflTransGen.single h1).tail h2).tail h3⟩
  exact ⟨hr, async_commit_lock_visible hr⟩

/-- A reader at `TimeStamp.max` raises nothing, since `update_max_ts` ignores that timestamp:
it finds no lock, and the prewrite that follows stores a lock with commit timestamp 2. -/
theorem max_ts_reader_misses_lock :
    let pw : Prewrite := ⟨⟨0⟩, 1, 0, 0⟩
    let cm : ConcurrencyManager := ConcurrencyManager.new_with_config 0 0 .Panic 0 0
    let s : Sys := ⟨cm, some ⟨2⟩, [⟨TimeStamp.max, .checked none⟩], .stored 2⟩
    Reachable pw s ∧ (⟨TimeStamp.max, .checked none⟩ : Reader) ∈ s.readers ∧
      s.lock_store = some ⟨2⟩ ∧ ¬ TimeStamp.max < 2 := by
  intro pw cm s
  have h1 : Step pw (Sys.init cm [TimeStamp.max])
      ⟨cm, none, [⟨TimeStamp.max, .max_ts_updated⟩], .pending⟩ :=
    @Step.update_max_ts pw _ 0 TimeStamp.max (.ok ()) cm none 0 rfl rfl
  have h2 : Step pw ⟨cm, none, [⟨TimeStamp.max, .max_ts_updated⟩], .pending⟩
      ⟨cm, none, [⟨TimeStamp.max, .checked none⟩], .pending⟩ :=
    @Step.read_key_check pw _ 0 TimeStamp.max rfl
  have h3 : Step pw ⟨cm, none, [⟨TimeStamp.max, .checked none⟩], .pending⟩ s :=
    @Step.prewrite_stored pw _ 2 ⟨2⟩ rfl rfl
  exact ⟨⟨cm, [TimeStamp.max], ((ReflTransGen.single h1).tail h2).tail h3⟩, List.mem_singleton_self _,
    rfl, by decide⟩

end Tikv.Concurrency
