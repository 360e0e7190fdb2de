import Mathlib

/-!
The max timestamp of the concurrency manager (src/components/concurrency_manager/src/lib.rs).
`update_max_ts` raises `max_ts` unless the new value is above the limit kept from the TSO; then
it asks the TSO again, and only a limit the TSO confirms makes it fail.

The TSO's answer and the clock are arguments: `none` for a TSO that is absent, errs or times
out; the clock reads milliseconds. Timestamps are natural numbers and `TimeStamp.max` is
`u64::MAX`; the timestamps the TSO hands out are far from overflowing the arithmetic of the
limit. The warnings and gauges are left out.
-/

namespace Tikv.Concurrency

def TimeStamp.max : Nat := 2 ^ 64 - 1

def TSO_PHYSICAL_SHIFT_BITS : Nat := 18

def TimeStamp.compose (physical logical : Nat) : Nat :=
  physical * 2 ^ TSO_PHYSICAL_SHIFT_BITS + logical

def TimeStamp.physical (ts : Nat) : Nat := ts / 2 ^ TSO_PHYSICAL_SHIFT_BITS

def TimeStamp.logical (ts : Nat) : Nat := ts % 2 ^ TSO_PHYSICAL_SHIFT_BITS

structure MaxTsLimit where
  exact : Nat
  drifted : Nat
  update_time : Nat
  deriving DecidableEq, Repr

def MaxTsLimit.max_ts_update_limit (l : MaxTsLimit) (exact_limit_required : Bool) : Nat :=
  if exact_limit_required then l.exact else l.drifted

inductive RequestOrigin
  | RequestOriginTiDb
  | RequestOriginOther
  deriving DecidableEq, Repr

def exact_limit_required_for_request_origin_check : Option RequestOrigin → Bool
  | some .RequestOriginOther => true
  | _ => false

inductive ActionOnInvalidMaxTs
  | Panic
  | Error
  | Log
  deriving DecidableEq, Repr

structure InvalidMaxTsUpdate where
  attempted_ts : Nat
  limit : Nat
  deriving DecidableEq, Repr

structure ConcurrencyManager where
  max_ts : Nat
  max_ts_limit : MaxTsLimit
  action_on_invalid_max_ts_update : ActionOnInvalidMaxTs
  limit_valid_duration : Nat
  max_ts_drift_allowance_ms : Nat
  deriving DecidableEq, Repr

def ConcurrencyManager.new_with_config (latest_ts limit_valid_duration : Nat)
    (action_on_invalid_max_ts_update : ActionOnInvalidMaxTs) (max_ts_drift_allowance now : Nat) :
    ConcurrencyManager :=
  ⟨latest_ts, ⟨0, 0, now⟩, action_on_invalid_max_ts_update, limit_valid_duration,
    max_ts_drift_allowance⟩

namespace ConcurrencyManager

/-- One round of the compare-and-swap loop: it raises the limits, never lowers them. -/
def set_max_ts_limit (cm : ConcurrencyManager) (ts_from_tso now : Nat) : ConcurrencyManager :=
  if ts_from_tso = TimeStamp.max then cm
  else
    let drifted_limit := TimeStamp.compose
      (TimeStamp.physical ts_from_tso + cm.max_ts_drift_allowance_ms) (TimeStamp.logical ts_from_tso)
    let current := cm.max_ts_limit
    if ts_from_tso ≤ current.exact ∧ drifted_limit ≤ current.drifted then cm
    else { cm with max_ts_limit :=
      ⟨max ts_from_tso current.exact, max drifted_limit current.drifted, now⟩ }

/-- `none` where the source panics. -/
def report_error (cm : ConcurrencyManager) (new_ts : Nat) (limits : MaxTsLimit)
    (tso_confirmed : Bool) (request_origin_for_check : Option RequestOrigin) :
    Option (Except InvalidMaxTsUpdate Unit) :=
  let update_limit := limits.max_ts_update_limit
    (exact_limit_required_for_request_origin_check request_origin_for_check)
  match cm.action_on_invalid_max_ts_update, tso_confirmed with
  | .Panic, true => none
  | .Error, true => some (.error ⟨new_ts, update_limit⟩)
  | _, _ => some (.ok ())

def double_check (cm : ConcurrencyManager) (new_ts : Nat)
    (request_origin_for_check : Option RequestOrigin) (tso : Option Nat) (now : Nat) :
    Option (Except InvalidMaxTsUpdate Unit × ConcurrencyManager) :=
  match tso with
  | some ts => recheck (cm.set_max_ts_limit ts now) true
  | none => recheck cm false
where
  recheck (cm : ConcurrencyManager) (tso_confirmed : Bool) :
      Option (Except InvalidMaxTsUpdate Unit × ConcurrencyManager) :=
    let new_limits := cm.max_ts_limit
    let update_limit := new_limits.max_ts_update_limit
      (exact_limit_required_for_request_origin_check request_origin_for_check)
    if update_limit < new_ts then
      (cm.report_error new_ts new_limits tso_confirmed request_origin_for_check).map (·, cm)
    else some (.ok (), cm)

def check_exact_max_ts_update_limit (cm : ConcurrencyManager) (new_ts update_limit : Nat)
    (request_origin_for_check : Option RequestOrigin) (tso : Option Nat) (now : Nat) :
    Option (Except InvalidMaxTsUpdate Unit × ConcurrencyManager) :=
  if update_limit = 0 ∨ update_limit < new_ts then
    cm.double_check new_ts request_origin_for_check tso now
  else some (.ok (), cm)

def check_drifted_max_ts_update_limit (cm : ConcurrencyManager) (new_ts : Nat) (limits : MaxTsLimit)
    (update_limit : Nat) (request_origin_for_check : Option RequestOrigin) (tso : Option Nat)
    (now : Nat) : Option (Except InvalidMaxTsUpdate Unit × ConcurrencyManager) :=
  if update_limit = 0 ∨ new_ts ≤ update_limit then some (.ok (), cm)
  else
    let duration_to_last_limit_update := now - limits.update_time
    if duration_to_last_limit_update < cm.limit_valid_duration then
      cm.double_check new_ts request_origin_for_check tso now
    else
      -- an approximate limit, for a limit the TSO has not refreshed lately
      let approximate_limit := TimeStamp.compose
        (TimeStamp.physical limits.drifted + duration_to_last_limit_update)
        (TimeStamp.logical limits.drifted)
      if approximate_limit < new_ts then cm.double_check new_ts request_origin_for_check tso now
      else some (.ok (), cm)

/-- `none` where the source panics. -/
def update_max_ts (cm : ConcurrencyManager) (new_ts : Nat)
    (request_origin_for_check : Option RequestOrigin) (tso : Option Nat) (now : Nat) :
    Option (Except InvalidMaxTsUpdate Unit × ConcurrencyManager) :=
  if new_ts = TimeStamp.max then some (.ok (), cm)
  else
    let exact_limit_required := exact_limit_required_for_request_origin_check request_origin_for_check
    let limits := cm.max_ts_limit
    let update_limit := limits.max_ts_update_limit exact_limit_required
    let checked :=
      if exact_limit_required then
        cm.check_exact_max_ts_update_limit new_ts update_limit request_origin_for_check tso now
      else
        cm.check_drifted_max_ts_update_limit new_ts limits update_limit request_origin_for_check tso now
    checked.map fun r => match r.1 with
      | .error e => (.error e, r.2)
      | .ok () => (.ok (), { r.2 with max_ts := max r.2.max_ts new_ts })

section Spec

variable {cm cm' : ConcurrencyManager} {new_ts now : Nat} {request_origin_for_check : Option RequestOrigin}
  {tso : Option Nat} {r : Except InvalidMaxTsUpdate Unit}

@[simp] theorem set_max_ts_limit_max_ts (cm : ConcurrencyManager) (ts now : Nat) :
    (cm.set_max_ts_limit ts now).max_ts = cm.max_ts := by
  dsimp only [set_max_ts_limit]
  split
  · rfl
  · split <;> rfl

theorem double_check_max_ts (h : cm.double_check new_ts request_origin_for_check tso now = some (r, cm')) :
    cm'.max_ts = cm.max_ts := by
  have hre : ∀ c b, double_check.recheck new_ts request_origin_for_check c b = some (r, cm') →
      cm'.max_ts = c.max_ts := by
    intro c b hc
    dsimp only [double_check.recheck] at hc
    split at hc
    · obtain ⟨_, -, he⟩ := Option.map_eq_some_iff.mp hc
      cases he
      rfl
    · cases hc
      rfl
  unfold double_check at h
  cases tso with
  | none => exact hre cm false h
  | some ts => exact (hre _ true h).trans (set_max_ts_limit_max_ts cm ts now)

theorem check_exact_max_ts {update_limit : Nat}
    (h : cm.check_exact_max_ts_update_limit new_ts update_limit request_origin_for_check tso now =
      some (r, cm')) : cm'.max_ts = cm.max_ts := by
  unfold check_exact_max_ts_update_limit at h
  split at h
  · exact double_check_max_ts h
  · cases h
    rfl

theorem check_drifted_max_ts {limits : MaxTsLimit} {update_limit : Nat}
    (h : cm.check_drifted_max_ts_update_limit new_ts limits update_limit request_origin_for_check
      tso now = some (r, cm')) : cm'.max_ts = cm.max_ts := by
  dsimp only [check_drifted_max_ts_update_limit] at h
  split at h
  · cases h
    rfl
  · split at h
    · exact double_check_max_ts h
    · split at h
      · exact double_check_max_ts h
      · cases h
        rfl

theorem update_max_ts_max_ts
    (h : cm.update_max_ts new_ts request_origin_for_check tso now = some (r, cm')) :
    cm'.max_ts = if r = .ok () ∧ new_ts ≠ TimeStamp.max then max cm.max_ts new_ts
      else cm.max_ts := by
  dsimp only [update_max_ts] at h
  split at h
  · rename_i hmax
    cases h
    simp [hmax]
  · rename_i hmax
    obtain ⟨⟨r1, cm1⟩, hc, he⟩ := Option.map_eq_some_iff.mp h
    have h1 : cm1.max_ts = cm.max_ts := by
      split at hc
      · exact check_exact_max_ts hc
      · exact check_drifted_max_ts hc
    cases r1 with
    | error e =>
      cases he
      simp [h1]
    | ok u =>
      cases he
      simp [hmax, h1]

theorem update_max_ts_mono
    (h : cm.update_max_ts new_ts request_origin_for_check tso now = some (r, cm')) :
    cm.max_ts ≤ cm'.max_ts := by
  rw [update_max_ts_max_ts h]
  split
  · exact Nat.le_max_left _ _
  · exact Nat.le_refl _

theorem update_max_ts_ok
    (h : cm.update_max_ts new_ts request_origin_for_check tso now = some (.ok (), cm'))
    (hmax : new_ts ≠ TimeStamp.max) : new_ts ≤ cm'.max_ts := by
  rw [update_max_ts_max_ts h, if_pos ⟨rfl, hmax⟩]
  exact Nat.le_max_right _ _

end Spec

end ConcurrencyManager

end Tikv.Concurrency
