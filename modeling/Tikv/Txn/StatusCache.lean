import Tikv.Lib.AssocList
import Mathlib

/-!
The cache of transaction states of the scheduler (src/src/storage/txn/txn_status_cache.rs).
A transaction's state is in the normal cache, in the cache of large transactions, or in both;
`get` asks the large one first. An ongoing state whose `min_commit_ts` is above the start_ts
goes to the large cache only, and is taken there only above the one it holds; every other
state goes to the normal cache and also overwrites an ongoing state of the large cache.

The model is of an enabled cache without eviction: each cache is a map by
start_ts, its slots and the entries' update times left out.
-/

namespace Tikv.Txn

open Tikv.Lib.AssocList (insert erase lookup_insert lookup_erase)

inductive TxnState
  | Ongoing (min_commit_ts : Nat)
  | Committed (commit_ts : Nat)
  | RolledBack
  deriving DecidableEq, Repr

structure TxnStatusCache where
  normal_cache : List (Nat × TxnState)
  large_txn_cache : List (Nat × TxnState)
  deriving DecidableEq, Repr

def TxnState.commit_ts : TxnState → Option Nat
  | .Committed commit_ts => some commit_ts
  | _ => none

/-- A state that the cache never replaces: the transaction has committed or rolled back. -/
def TxnState.IsFinal : TxnState → Prop
  | .Ongoing _ => False
  | _ => True

theorem TxnState.ongoing_or_final (state : TxnState) :
    (∃ min_commit_ts, state = .Ongoing min_commit_ts) ∨ state.IsFinal := by
  cases state with
  | Ongoing min_commit_ts => exact .inl ⟨min_commit_ts, rfl⟩
  | Committed _ | RolledBack => exact .inr trivial

namespace TxnStatusCache

def new : TxnStatusCache := ⟨[], []⟩

/-- The entry of `start_ts` in one cache after a state that replaces only an ongoing one;
`none` where the source asserts that a commit is not below the ongoing `min_commit_ts`. -/
def update_ongoing (cache : List (Nat × TxnState)) (start_ts : Nat) (state : TxnState)
    (insert_if_absent : Bool) : Option (List (Nat × TxnState)) :=
  match cache.lookup start_ts with
  | some (.Ongoing min_commit_ts) =>
    match state with
    | .Committed commit_ts =>
      if min_commit_ts ≤ commit_ts then some (insert start_ts state cache) else none
    | _ => some (insert start_ts state cache)
  | some _ => some cache
  | none => some (if insert_if_absent then insert start_ts state cache else cache)

/-- `upsert`; `none` where it panics. -/
def upsert (c : TxnStatusCache) (start_ts : Nat) (state : TxnState) :
    Option TxnStatusCache :=
  match state with
  | .Ongoing min_commit_ts =>
    if start_ts < min_commit_ts then
      -- the large cache's path: an ongoing state is taken only above the one there
      match c.large_txn_cache.lookup start_ts with
      | some (.Ongoing existing_min_commit_ts) =>
        if existing_min_commit_ts < min_commit_ts then
          some { c with large_txn_cache := insert start_ts state c.large_txn_cache }
        else some c
      | some _ => some c
      | none => some { c with large_txn_cache := insert start_ts state c.large_txn_cache }
    else upsert_normal c start_ts state
  | _ => upsert_normal c start_ts state
where
  /-- The normal cache's path, which also updates an ongoing entry of the large cache. -/
  upsert_normal (c : TxnStatusCache) (start_ts : Nat) (state : TxnState) :
      Option TxnStatusCache := do
    let normal_cache ← update_ongoing c.normal_cache start_ts state true
    let large_txn_cache ← update_ongoing c.large_txn_cache start_ts state false
    pure ⟨normal_cache, large_txn_cache⟩

def get (c : TxnStatusCache) (start_ts : Nat) : Option TxnState :=
  match c.large_txn_cache.lookup start_ts with
  | some state => some state
  | none => c.normal_cache.lookup start_ts

def get_committed (c : TxnStatusCache) (start_ts : Nat) : Option Nat :=
  (c.normal_cache.lookup start_ts).bind TxnState.commit_ts

def remove_large_txn (c : TxnStatusCache) (start_ts : Nat) : TxnStatusCache :=
  { c with large_txn_cache := erase start_ts c.large_txn_cache }

/-! ### What one call does to the entries -/

section UpdateOngoing

variable {cache cache' : List (Nat × TxnState)} {start_ts : Nat} {state : TxnState}
  {insert_if_absent : Bool}

theorem update_ongoing_of_ongoing {min_commit_ts : Nat}
    (h : cache.lookup start_ts = some (.Ongoing min_commit_ts))
    (hle : ∀ commit_ts, state = .Committed commit_ts → min_commit_ts ≤ commit_ts) :
    update_ongoing cache start_ts state insert_if_absent = some (insert start_ts state cache) := by
  unfold update_ongoing
  rw [h]
  cases state with
  | Committed commit_ts => simp [hle commit_ts rfl]
  | Ongoing _ | RolledBack => rfl

theorem update_ongoing_of_final {final : TxnState} (h : cache.lookup start_ts = some final)
    (hf : final.IsFinal) : update_ongoing cache start_ts state insert_if_absent = some cache := by
  unfold update_ongoing
  rw [h]
  cases final with
  | Ongoing _ => exact hf.elim
  | Committed _ | RolledBack => rfl

theorem update_ongoing_of_none (h : cache.lookup start_ts = none) :
    update_ongoing cache start_ts state insert_if_absent =
      some (if insert_if_absent then insert start_ts state cache else cache) := by
  unfold update_ongoing
  rw [h]

theorem update_ongoing_isSome
    (hle : ∀ min_commit_ts commit_ts, cache.lookup start_ts = some (.Ongoing min_commit_ts) →
      state = .Committed commit_ts → min_commit_ts ≤ commit_ts) :
    (update_ongoing cache start_ts state insert_if_absent).isSome := by
  rcases hc : cache.lookup start_ts with _ | entry
  · rw [update_ongoing_of_none hc]; rfl
  · obtain ⟨min_commit_ts, rfl⟩ | hf := entry.ongoing_or_final
    · rw [update_ongoing_of_ongoing hc (hle min_commit_ts · hc)]; rfl
    · rw [update_ongoing_of_final hc hf]; rfl

theorem update_ongoing_eq_of_ongoing {min_commit_ts : Nat}
    (hc : cache.lookup start_ts = some (.Ongoing min_commit_ts))
    (h : update_ongoing cache start_ts state insert_if_absent = some cache') :
    cache' = insert start_ts state cache := by
  cases state with
  | Committed commit_ts =>
    simp only [update_ongoing, hc] at h
    split at h
    · exact (Option.some.inj h).symm
    · cases h
  | Ongoing _ | RolledBack =>
    simp only [update_ongoing, hc, Option.some.injEq] at h
    exact h.symm

theorem update_ongoing_eq (h : update_ongoing cache start_ts state insert_if_absent = some cache') :
    cache' = cache ∨ cache' = insert start_ts state cache := by
  rcases hc : cache.lookup start_ts with _ | entry
  · rw [update_ongoing_of_none hc, Option.some.injEq] at h
    cases insert_if_absent
    · exact .inl h.symm
    · exact .inr h.symm
  · obtain ⟨min_commit_ts, rfl⟩ | hf := entry.ongoing_or_final
    · exact .inr (update_ongoing_eq_of_ongoing hc h)
    · rw [update_ongoing_of_final hc hf] at h
      exact .inl (Option.some.inj h).symm

theorem lookup_update_ongoing (h : update_ongoing cache start_ts state insert_if_absent = some cache') :
    (∀ final, cache.lookup start_ts = some final → final.IsFinal →
      cache'.lookup start_ts = some final) ∧
    (∀ min_commit_ts, cache.lookup start_ts = some (.Ongoing min_commit_ts) →
      cache'.lookup start_ts = some state) ∧
    (cache.lookup start_ts = none →
      cache'.lookup start_ts = if insert_if_absent then some state else none) := by
  refine ⟨fun final hc hf => ?_, fun min_commit_ts hc => ?_, fun hc => ?_⟩
  · rw [update_ongoing_of_final hc hf, Option.some.injEq] at h
    rw [← h, hc]
  · rw [update_ongoing_eq_of_ongoing hc h, lookup_insert, if_pos rfl]
  · rw [update_ongoing_of_none hc, Option.some.injEq] at h
    cases insert_if_absent <;> simp [← h, lookup_insert, hc]

end UpdateOngoing

section Upsert

variable {c c' : TxnStatusCache} {start_ts : Nat} {state : TxnState}

theorem upsert_normal_eq_some (h : upsert.upsert_normal c start_ts state = some c') :
    update_ongoing c.normal_cache start_ts state true = some c'.normal_cache ∧
      update_ongoing c.large_txn_cache start_ts state false = some c'.large_txn_cache := by
  simp only [upsert.upsert_normal, Option.bind_eq_bind, Option.bind_eq_some_iff, Option.pure_def,
    Option.some.injEq] at h
  obtain ⟨normal_cache, hn, large_txn_cache, hl, rfl⟩ := h
  exact ⟨hn, hl⟩

theorem upsert_cases (h : c.upsert start_ts state = some c') :
    (∃ min_commit_ts, state = .Ongoing min_commit_ts ∧ start_ts < min_commit_ts ∧
      c'.normal_cache = c.normal_cache ∧
      (c'.large_txn_cache = c.large_txn_cache ∨
        c'.large_txn_cache = insert start_ts state c.large_txn_cache)) ∨
    (update_ongoing c.normal_cache start_ts state true = some c'.normal_cache ∧
      update_ongoing c.large_txn_cache start_ts state false = some c'.large_txn_cache) := by
  cases state with
  | Ongoing min_commit_ts =>
    simp only [upsert] at h
    split at h
    case isFalse => exact .inr (upsert_normal_eq_some h)
    case isTrue hlt =>
    refine .inl ⟨min_commit_ts, rfl, hlt, ?_⟩
    -- each branch of the large cache's path keeps `c` or sets the entry
    split at h
    · split at h <;> cases h
      · exact ⟨rfl, .inr rfl⟩
      · exact ⟨rfl, .inl rfl⟩
    · cases h; exact ⟨rfl, .inl rfl⟩
    · cases h; exact ⟨rfl, .inr rfl⟩
  | Committed _ | RolledBack => exact .inr (upsert_normal_eq_some h)

theorem upsert_isSome
    (hn : ∀ min_commit_ts commit_ts,
      c.normal_cache.lookup start_ts = some (.Ongoing min_commit_ts) →
      state = .Committed commit_ts → min_commit_ts ≤ commit_ts)
    (hl : ∀ min_commit_ts commit_ts,
      c.large_txn_cache.lookup start_ts = some (.Ongoing min_commit_ts) →
      state = .Committed commit_ts → min_commit_ts ≤ commit_ts) :
    (c.upsert start_ts state).isSome := by
  have hnormal : (upsert.upsert_normal c start_ts state).isSome := by
    obtain ⟨normal_cache, hn'⟩ := Option.isSome_iff_exists.mp
      (@update_ongoing_isSome _ _ _ true hn)
    obtain ⟨large_txn_cache, hl'⟩ := Option.isSome_iff_exists.mp
      (@update_ongoing_isSome _ _ _ false hl)
    simp [upsert.upsert_normal, hn', hl']
  cases state with
  | Ongoing min_commit_ts =>
    simp only [upsert]
    split
    · split
      · split <;> rfl
      · rfl
      · rfl
    · exact hnormal
  | Committed _ | RolledBack => exact hnormal

theorem lookup_eq_of_eq_or_insert {cache cache' : List (Nat × TxnState)} {other_ts : Nat}
    (h : cache' = cache ∨ cache' = insert other_ts state cache) (hne : other_ts ≠ start_ts) :
    cache'.lookup start_ts = cache.lookup start_ts := by
  rcases h with rfl | rfl
  · rfl
  · rw [lookup_insert, if_neg (Ne.symm hne)]

theorem lookup_upsert_ne {other_ts : Nat} (h : c.upsert other_ts state = some c')
    (hne : other_ts ≠ start_ts) :
    c'.normal_cache.lookup start_ts = c.normal_cache.lookup start_ts ∧
      c'.large_txn_cache.lookup start_ts = c.large_txn_cache.lookup start_ts := by
  rcases upsert_cases h with ⟨_, _, _, hn, hl⟩ | ⟨hn, hl⟩
  · exact ⟨by rw [hn], lookup_eq_of_eq_or_insert hl hne⟩
  · exact ⟨lookup_eq_of_eq_or_insert (update_ongoing_eq hn) hne,
      lookup_eq_of_eq_or_insert (update_ongoing_eq hl) hne⟩

theorem lookup_remove_large_txn (c : TxnStatusCache) (start_ts other_ts : Nat) :
    (c.remove_large_txn other_ts).large_txn_cache.lookup start_ts =
      if start_ts = other_ts then none else c.large_txn_cache.lookup start_ts :=
  lookup_erase other_ts start_ts c.large_txn_cache

theorem get_eq_none_iff {c : TxnStatusCache} {start_ts : Nat} :
    c.get start_ts = none ↔
      c.large_txn_cache.lookup start_ts = none ∧ c.normal_cache.lookup start_ts = none := by
  unfold get
  split
  case h_1 state hl => simp [hl]
  case h_2 hl => simp [hl]

end Upsert

end TxnStatusCache

open TxnStatusCache

/-! ### The calls of one transaction, among those of others -/

/-- The states a client may report for a transaction: its commits all at `commit_ts` and
above every ongoing `min_commit_ts`, unless it is rolled back, and never both. -/
def Allowed (commit_ts : Nat) (rolled_back : Bool) : TxnState → Prop
  | .Ongoing min_commit_ts => rolled_back = true ∨ min_commit_ts ≤ commit_ts
  | .Committed commit_ts' => rolled_back = false ∧ commit_ts' = commit_ts
  | .RolledBack => rolled_back = true

instance (commit_ts : Nat) (rolled_back : Bool) :
    (state : TxnState) → Decidable (Allowed commit_ts rolled_back state)
  | .Ongoing _ => inferInstanceAs (Decidable (_ ∨ _))
  | .Committed _ => inferInstanceAs (Decidable (_ ∧ _))
  | .RolledBack => inferInstanceAs (Decidable (_ = _))

section Runs

variable (start_ts commit_ts : Nat) (rolled_back : Bool)

/-- A call on the cache: an `upsert` of the transaction's allowed states that does not panic, its
`remove_large_txn`, and the same calls of other transactions. -/
inductive Step : TxnStatusCache → TxnStatusCache → Prop
  | upsert {c c' : TxnStatusCache} (state : TxnState)
      (hstate : Allowed commit_ts rolled_back state) (h : c.upsert start_ts state = some c') :
      Step c c'
  | remove_large_txn (c : TxnStatusCache) : Step c (c.remove_large_txn start_ts)
  | upsert_other {c c' : TxnStatusCache} (other_ts : Nat) (state : TxnState)
      (hne : other_ts ≠ start_ts) (h : c.upsert other_ts state = some c') : Step c c'
  | remove_large_txn_other (c : TxnStatusCache) (other_ts : Nat) (hne : other_ts ≠ start_ts) :
      Step c (c.remove_large_txn other_ts)

def Reachable (c : TxnStatusCache) : Prop :=
  ∃ init : TxnStatusCache, init.get start_ts = none ∧
    Relation.ReflTransGen (Step start_ts commit_ts rolled_back) init c

/-- What the cache holds of the transaction: allowed states only, and a final state of the large
cache is in the normal cache too. -/
structure CacheInv (c : TxnStatusCache) : Prop where
  normal_allowed : ∀ state, c.normal_cache.lookup start_ts = some state →
    Allowed commit_ts rolled_back state
  large_allowed : ∀ state, c.large_txn_cache.lookup start_ts = some state →
    Allowed commit_ts rolled_back state
  large_final : ∀ state, c.large_txn_cache.lookup start_ts = some state → state.IsFinal →
    c.normal_cache.lookup start_ts = some state

variable {start_ts commit_ts rolled_back}

theorem Allowed.final_eq {a b : TxnState} (ha : Allowed commit_ts rolled_back a)
    (hb : Allowed commit_ts rolled_back b) (hfa : a.IsFinal) (hfb : b.IsFinal) : a = b := by
  cases a <;> cases b <;> simp_all [Allowed, TxnState.IsFinal]

theorem Allowed.le_of_committed {min_commit_ts commit_ts' : Nat}
    (hm : Allowed commit_ts rolled_back (.Ongoing min_commit_ts))
    (hc : Allowed commit_ts rolled_back (.Committed commit_ts')) : min_commit_ts ≤ commit_ts' := by
  obtain ⟨hrb, rfl⟩ := hc
  rcases hm with hrb' | hle
  · rw [hrb] at hrb'
    cases hrb'
  · exact hle

theorem cacheInv_of_get_eq_none {c : TxnStatusCache} (h : c.get start_ts = none) :
    CacheInv start_ts commit_ts rolled_back c := by
  obtain ⟨hl, hn⟩ := get_eq_none_iff.mp h
  refine ⟨fun _ h' => ?_, fun _ h' => ?_, fun _ h' _ => ?_⟩ <;> simp_all

theorem CacheInv.congr {c c' : TxnStatusCache} (hi : CacheInv start_ts commit_ts rolled_back c)
    (hn : c'.normal_cache.lookup start_ts = c.normal_cache.lookup start_ts)
    (hl : c'.large_txn_cache.lookup start_ts = c.large_txn_cache.lookup start_ts) :
    CacheInv start_ts commit_ts rolled_back c' := by
  refine ⟨?_, ?_, ?_⟩
  · rw [hn]; exact hi.normal_allowed
  · rw [hl]; exact hi.large_allowed
  · rw [hl, hn]; exact hi.large_final

theorem CacheInv.upsert_isSome {c : TxnStatusCache} (hi : CacheInv start_ts commit_ts rolled_back c)
    {state : TxnState} (hstate : Allowed commit_ts rolled_back state) :
    (c.upsert start_ts state).isSome := by
  apply TxnStatusCache.upsert_isSome
  · rintro min_commit_ts commit_ts' hn rfl
    exact (hi.normal_allowed _ hn).le_of_committed hstate
  · rintro min_commit_ts commit_ts' hl rfl
    exact (hi.large_allowed _ hl).le_of_committed hstate

theorem CacheInv.of_large_none {c c' : TxnStatusCache}
    (hi : CacheInv start_ts commit_ts rolled_back c)
    (hn : c'.normal_cache.lookup start_ts = c.normal_cache.lookup start_ts)
    (hl : c'.large_txn_cache.lookup start_ts = none) :
    CacheInv start_ts commit_ts rolled_back c' := by
  refine ⟨by rw [hn]; exact hi.normal_allowed, fun _ h => ?_, fun _ h _ => ?_⟩
  · rw [hl] at h
    cases h
  · rw [hl] at h
    cases h

theorem CacheInv.upsert_large {c c' : TxnStatusCache}
    (hi : CacheInv start_ts commit_ts rolled_back c) {min_commit_ts : Nat}
    (hstate : Allowed commit_ts rolled_back (.Ongoing min_commit_ts))
    (hn : c'.normal_cache = c.normal_cache)
    (hl : c'.large_txn_cache = c.large_txn_cache ∨
      c'.large_txn_cache = insert start_ts (.Ongoing min_commit_ts) c.large_txn_cache) :
    CacheInv start_ts commit_ts rolled_back c' := by
  rcases hl with hl | hl
  · exact hi.congr (by rw [hn]) (by rw [hl])
  · have hlook : c'.large_txn_cache.lookup start_ts = some (.Ongoing min_commit_ts) := by
      rw [hl, lookup_insert, if_pos rfl]
    refine ⟨?_, fun state h => ?_, fun state h hf => ?_⟩
    · rw [hn]; exact hi.normal_allowed
    · rw [hlook, Option.some.injEq] at h
      exact h ▸ hstate
    · rw [hlook, Option.some.injEq] at h
      exact (h ▸ hf).elim

theorem CacheInv.upsert_normal {c c' : TxnStatusCache}
    (hi : CacheInv start_ts commit_ts rolled_back c) {state : TxnState}
    (hstate : Allowed commit_ts rolled_back state)
    (hn : update_ongoing c.normal_cache start_ts state true = some c'.normal_cache)
    (hl : update_ongoing c.large_txn_cache start_ts state false = some c'.large_txn_cache) :
    CacheInv start_ts commit_ts rolled_back c' := by
  have allowed : ∀ {cache cache' : List (Nat × TxnState)} {insert_if_absent},
      (∀ st, cache.lookup start_ts = some st → Allowed commit_ts rolled_back st) →
      update_ongoing cache start_ts state insert_if_absent = some cache' →
      ∀ st, cache'.lookup start_ts = some st → Allowed commit_ts rolled_back st := by
    intro cache cache' insert_if_absent hall h st hst
    rcases update_ongoing_eq h with rfl | rfl
    · exact hall st hst
    · rw [lookup_insert, if_pos rfl, Option.some.injEq] at hst
      exact hst ▸ hstate
  obtain ⟨hn_final, hn_ongoing, hn_none⟩ := lookup_update_ongoing hn
  obtain ⟨hl_final, hl_ongoing, hl_none⟩ := lookup_update_ongoing hl
  refine ⟨allowed hi.normal_allowed hn, allowed hi.large_allowed hl, fun st hst hf => ?_⟩
  rcases hlarge : c.large_txn_cache.lookup start_ts with _ | entry
  · rw [hl_none hlarge] at hst
    cases hst
  obtain ⟨min_commit_ts, rfl⟩ | hfe := entry.ongoing_or_final
  · -- the ongoing entry of the large cache became `state`
    rw [hl_ongoing min_commit_ts hlarge, Option.some.injEq] at hst
    subst hst
    rcases hnormal : c.normal_cache.lookup start_ts with _ | entry'
    · simpa using hn_none hnormal
    obtain ⟨min_commit_ts', rfl⟩ | hfe' := entry'.ongoing_or_final
    · exact hn_ongoing min_commit_ts' hnormal
    · rw [hn_final entry' hnormal hfe']
      rw [(hi.normal_allowed entry' hnormal).final_eq hstate hfe' hf]
  · -- a final entry of the large cache stays, and so does the normal cache's copy
    rw [hl_final entry hlarge hfe, Option.some.injEq] at hst
    subst hst
    exact hn_final _ (hi.large_final _ hlarge hfe) hfe

theorem CacheInv.step {c c' : TxnStatusCache} (hi : CacheInv start_ts commit_ts rolled_back c)
    (h : Step start_ts commit_ts rolled_back c c') : CacheInv start_ts commit_ts rolled_back c' := by
  cases h with
  | upsert state hstate h =>
    rcases upsert_cases h with ⟨min_commit_ts, rfl, _, hn, hl⟩ | ⟨hn, hl⟩
    · exact hi.upsert_large hstate hn hl
    · exact hi.upsert_normal hstate hn hl
  | remove_large_txn =>
    exact hi.of_large_none rfl (by rw [lookup_remove_large_txn, if_pos rfl])
  | upsert_other other_ts state hne h =>
    obtain ⟨hn, hl⟩ := lookup_upsert_ne h hne
    exact hi.congr hn hl
  | remove_large_txn_other other_ts hne =>
    exact hi.congr rfl (by rw [lookup_remove_large_txn, if_neg (Ne.symm hne)])

theorem cacheInv_reachable {c : TxnStatusCache} (h : Reachable start_ts commit_ts rolled_back c) :
    CacheInv start_ts commit_ts rolled_back c := by
  obtain ⟨init, hinit, hrun⟩ := h
  induction hrun with
  | refl => exact cacheInv_of_get_eq_none hinit
  | tail _ hstep ih => exact ih.step hstep

theorem Reachable.trans {c c' : TxnStatusCache} (h : Reachable start_ts commit_ts rolled_back c)
    (hrun : Relation.ReflTransGen (Step start_ts commit_ts rolled_back) c c') :
    Reachable start_ts commit_ts rolled_back c' := by
  obtain ⟨init, hinit, hrun'⟩ := h
  exact ⟨init, hinit, hrun'.trans hrun⟩

theorem Step.normal_final {c c' : TxnStatusCache} (h : Step start_ts commit_ts rolled_back c c')
    {final : TxnState} (hn : c.normal_cache.lookup start_ts = some final) (hf : final.IsFinal) :
    c'.normal_cache.lookup start_ts = some final := by
  cases h with
  | upsert state hstate h =>
    rcases upsert_cases h with ⟨_, _, _, hn', _⟩ | ⟨hn', _⟩
    · rw [hn', hn]
    · exact (lookup_update_ongoing hn').1 final hn hf
  | remove_large_txn => exact hn
  | upsert_other other_ts state hne h => rw [(lookup_upsert_ne h hne).1, hn]
  | remove_large_txn_other => exact hn

theorem normal_final_of_run {c c' : TxnStatusCache}
    (hrun : Relation.ReflTransGen (Step start_ts commit_ts rolled_back) c c') {final : TxnState}
    (hn : c.normal_cache.lookup start_ts = some final) (hf : final.IsFinal) :
    c'.normal_cache.lookup start_ts = some final := by
  induction hrun with
  | refl => exact hn
  | tail _ hstep ih => exact hstep.normal_final ih hf

theorem CacheInv.normal_of_get {c : TxnStatusCache} (hi : CacheInv start_ts commit_ts rolled_back c)
    {final : TxnState} (h : c.get start_ts = some final) (hf : final.IsFinal) :
    c.normal_cache.lookup start_ts = some final := by
  unfold TxnStatusCache.get at h
  split at h
  case h_1 state hl =>
    rw [Option.some.injEq] at h
    subst h
    exact hi.large_final _ hl hf
  case h_2 => exact h

theorem CacheInv.get_of_normal {c : TxnStatusCache} (hi : CacheInv start_ts commit_ts rolled_back c)
    {final : TxnState} (hn : c.normal_cache.lookup start_ts = some final) :
    c.get start_ts = some final ∨ ∃ min_commit_ts, c.get start_ts = some (.Ongoing min_commit_ts) := by
  unfold TxnStatusCache.get
  split
  case h_1 state hl =>
    obtain ⟨min_commit_ts, rfl⟩ | hfs := state.ongoing_or_final
    · exact .inr ⟨min_commit_ts, rfl⟩
    · left
      rw [hi.large_final _ hl hfs, Option.some.injEq] at hn
      rw [hn]
  case h_2 => exact .inl hn

end Runs

/-- For a transaction whose allowed states arrive in any order: no `upsert` of
an allowed state panics; a `Committed` answer of `get` is at the commit_ts, and `get_committed`
gives it; and after a final answer every later `get` answers the same or an ongoing state. -/
theorem txn_status_cache_answers_consistent {start_ts commit_ts : Nat} {rolled_back : Bool}
    {c : TxnStatusCache} (h : Reachable start_ts commit_ts rolled_back c) :
    (∀ state, Allowed commit_ts rolled_back state → (c.upsert start_ts state).isSome) ∧
    (∀ commit_ts', c.get start_ts = some (.Committed commit_ts') →
      commit_ts' = commit_ts ∧ c.get_committed start_ts = some commit_ts) ∧
    (∀ final, c.get start_ts = some final → final.IsFinal →
      ∀ c', Relation.ReflTransGen (Step start_ts commit_ts rolled_back) c c' →
        c'.get start_ts = some final ∨
          ∃ min_commit_ts, c'.get start_ts = some (.Ongoing min_commit_ts)) := by
  have hi := cacheInv_reachable h
  refine ⟨fun state hstate => hi.upsert_isSome hstate, fun commit_ts' hget => ?_,
    fun final hget hf c' hrun => ?_⟩
  · have hn := hi.normal_of_get hget trivial
    obtain ⟨-, rfl⟩ := hi.normal_allowed _ hn
    exact ⟨rfl, by simp [get_committed, hn, TxnState.commit_ts]⟩
  · have hn := normal_final_of_run hrun (hi.normal_of_get hget hf) hf
    exact (cacheInv_reachable (h.trans hrun)).get_of_normal hn

theorem txn_status_cache_answers_consistent_committed :
    Reachable 10 20 false ⟨[(10, .Committed 20)], []⟩ ∧
    ((∀ state, Allowed 20 false state →
        (TxnStatusCache.upsert ⟨[(10, .Committed 20)], []⟩ 10 state).isSome) ∧
      (∀ commit_ts', TxnStatusCache.get ⟨[(10, .Committed 20)], []⟩ 10 =
          some (.Committed commit_ts') →
        commit_ts' = 20 ∧ TxnStatusCache.get_committed ⟨[(10, .Committed 20)], []⟩ 10 = some 20) ∧
      (∀ final, TxnStatusCache.get ⟨[(10, .Committed 20)], []⟩ 10 = some final → final.IsFinal →
        ∀ c', Relation.ReflTransGen (Step 10 20 false) ⟨[(10, .Committed 20)], []⟩ c' →
          c'.get 10 = some final ∨ ∃ min_commit_ts, c'.get 10 = some (.Ongoing min_commit_ts))) := by
  have h : Reachable 10 20 false ⟨[(10, .Committed 20)], []⟩ :=
    ⟨TxnStatusCache.new, rfl, .single (Step.upsert (.Committed 20) (by decide) (by decide))⟩
  exact ⟨h, txn_status_cache_answers_consistent h⟩

/-- Two runs of allowed calls: a late ongoing state with `min_commit_ts` above the start_ts goes to
the large cache, which has no entry after a commit, so `get` answers `Ongoing` after
`Committed`; and an ongoing state of the normal cache's path overwrites a larger one of the large
cache, so the answers' `min_commit_ts` goes down. -/
theorem txn_status_cache_answers_change :
    (Reachable 10 20 false ⟨[(10, .Committed 20)], []⟩ ∧
      TxnStatusCache.get ⟨[(10, .Committed 20)], []⟩ 10 = some (.Committed 20) ∧
      Step 10 20 false ⟨[(10, .Committed 20)], []⟩ ⟨[(10, .Committed 20)], [(10, .Ongoing 15)]⟩ ∧
      TxnStatusCache.get ⟨[(10, .Committed 20)], [(10, .Ongoing 15)]⟩ 10 = some (.Ongoing 15)) ∧
    (Reachable 10 20 false ⟨[], [(10, .Ongoing 15)]⟩ ∧
      TxnStatusCache.get ⟨[], [(10, .Ongoing 15)]⟩ 10 = some (.Ongoing 15) ∧
      Step 10 20 false ⟨[], [(10, .Ongoing 15)]⟩ ⟨[(10, .Ongoing 5)], [(10, .Ongoing 5)]⟩ ∧
      TxnStatusCache.get ⟨[(10, .Ongoing 5)], [(10, .Ongoing 5)]⟩ 10 = some (.Ongoing 5)) := by
  refine ⟨⟨⟨TxnStatusCache.new, rfl, .single (Step.upsert (.Committed 20) (by decide) (by decide))⟩,
      rfl, Step.upsert (.Ongoing 15) (by decide) (by decide), rfl⟩,
    ⟨⟨TxnStatusCache.new, rfl, .single (Step.upsert (.Ongoing 15) (by decide) (by decide))⟩,
      rfl, Step.upsert (.Ongoing 5) (by decide) (by decide), rfl⟩⟩

end Tikv.Txn
