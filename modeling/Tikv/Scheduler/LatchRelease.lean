import Tikv.Scheduler.LatchProtocol

/-!
A release pops the command from every queue it heads. Kept hashes go to the next command;
for the others, the new head is reported in the wakeup list, and it is a command that was
waiting on that very hash.
-/

namespace Tikv.Scheduler

open Tikv.Lib.SortedList

def keepHashes (keep : Option (Nat × Lock)) : List Nat := (keep.map (·.2.required_hashes)).getD []

def keepCid (keep : Option (Nat × Lock)) : Nat := (keep.map Prod.fst).getD 0

theorem release_latches_spec {ls : Latches} {lock : Lock} {who : Nat} {keep : Option (Nat × Lock)}
    (hall : lock.owned_count = lock.required_hashes.length)
    (hsub : ∀ h ∈ keepHashes keep, h ∈ lock.required_hashes)
    (hwho : ∀ h ∈ lock.required_hashes, (ls.queue h).head? = some who) :
    ∃ wakeup ls', ls.release lock who keep = some (wakeup, ls') ∧
      ReleaseSpec ls lock.required_hashes (keepHashes keep) (keepCid keep) wakeup ls' := by
  have hsorted : (keepHashes keep).Pairwise (· < ·) := by
    cases keep with
    | none => simp [keepHashes]
    | some k => exact k.2.sorted
  obtain ⟨wakeup, ls', hrel, hspec⟩ :=
    @release_from_spec who (keepCid keep) lock.required_hashes (keepHashes keep) ls lock.sorted
      hsorted hsub hwho
  refine ⟨wakeup, ls', ?_, hspec⟩
  have htake : lock.required_hashes.take lock.owned_count = lock.required_hashes := by
    rw [hall, List.take_length]
  simp only [Latches.release]
  rw [htake]
  simp only [keepCid, keepHashes] at hrel
  rw [hrel]

theorem entries_woken {y : Command} (hy : y.phase = .waiting) :
    ({ y with phase := .woken } : Command).entries = y.entries := by
  simp [Command.entries, hy]

theorem waiting_of_not_head {s : Sys} (hs : Inv s) {h c : Nat} (hm : c ∈ s.latches.queue h)
    (hq : (s.latches.queue h).head? ≠ some c) :
    ∃ y, s.cmds c = some y ∧ y.phase = .waiting ∧ y.waitHash = some h := by
  obtain ⟨y, hy, hhy⟩ := (hs.mem_queue h c).mp hm
  have hnot_owned : h ∉ y.owned := fun ho => by
    have hact : y.Active := by
      constructor <;> intro hp <;> simp [Command.entries, hp] at hhy
    exact hq (hs.owned_head c y hy hact h ho)
  have hph : y.phase = .waiting ∨ y.phase = .woken := by
    cases hp : y.phase with
    | fresh => simp [Command.entries, hp] at hhy
    | released => simp [Command.entries, hp] at hhy
    | acquired => simp [Command.entries, hp] at hhy; exact absurd hhy hnot_owned
    | waiting => exact Or.inl rfl
    | woken => exact Or.inr rfl
  have hwait : y.waitHash = some h := by
    have hm : h ∈ y.lock.required_hashes.take (y.lock.owned_count + 1) := by
      rcases hph with hp | hp <;> simpa [Command.entries, hp] using hhy
    exact (mem_take_succ.mp hm).resolve_left hnot_owned
  exact ⟨y, hy, hph.resolve_right (fun hp => hq (hs.woken_head c y h hy hp hwait)), hwait⟩

theorem wakeup_waiting {s : Sys} {cid : Nat} {x : Command} {keep : Option (Nat × Lock)}
    {wakeup : List Nat} {ls' : Latches} (hs : Inv s)
    (hspec : ReleaseSpec s.latches x.lock.required_hashes (keepHashes keep) (keepCid keep) wakeup ls')
    (hhead : ∀ h ∈ x.lock.required_hashes, (s.latches.queue h).head? = some cid)
    {w : Nat} (hw : w ∈ wakeup) :
    ∃ y h, s.cmds w = some y ∧ y.phase = .waiting ∧ y.waitHash = some h ∧
      h ∈ x.lock.required_hashes ∧ h ∉ keepHashes keep ∧ (s.latches.queue h).tail.head? = some w := by
  rw [hspec.wakeup_eq, List.mem_filterMap] at hw
  obtain ⟨h, hR, hh⟩ := hw
  by_cases hK : h ∈ keepHashes keep
  · simp [hK] at hh
  · simp only [hK, if_false] at hh
    obtain ⟨t, ht⟩ := List.head?_eq_some_iff.mp (hhead h hR)
    rw [ht] at hh
    have hwt : w ∈ t := List.mem_of_mem_head? hh
    have hwc : w ≠ cid := by
      have := hs.nodup h
      rw [ht] at this
      exact fun he => (List.nodup_cons.mp this).1 (he ▸ hwt)
    obtain ⟨y, hy, hph, hwait⟩ := waiting_of_not_head hs (h := h) (c := w)
      (by rw [ht]; exact List.mem_cons_of_mem _ hwt) (by rw [ht]; simpa using hwc.symm)
    exact ⟨y, h, hy, hph, hwait, hR, hK, by rw [ht]; exact hh⟩

theorem keep_of_nextCmd {keep : Option (Nat × Lock)} {c : Nat} {y : Command}
    (h : nextCmd keep c = some y) :
    ∃ l, keep = some (c, l) ∧ y = ⟨l.force_assume_acquired, .acquired⟩ := by
  cases keep with
  | none => simp [nextCmd] at h
  | some k =>
    obtain ⟨n, l⟩ := k
    by_cases hc : c = n
    · subst hc
      simp only [nextCmd, if_true, Option.some.injEq] at h
      exact ⟨l, rfl, h.symm⟩
    · simp [nextCmd, hc] at h

theorem not_kept_of_nextCmd_none {keep : Option (Nat × Lock)} {c h : Nat}
    (hn : nextCmd keep c = none) : ¬ (h ∈ keepHashes keep ∧ c = keepCid keep) := by
  rintro ⟨hh, rfl⟩
  cases keep with
  | none => simp [keepHashes] at hh
  | some k => simp [nextCmd, keepCid] at hn

structure ReleaseCtx (s s' : Sys) (cid : Nat) (x : Command) (keep : Option (Nat × Lock))
    (wakeup : List Nat) : Prop where
  hx : s.cmds cid = some x
  all : x.lock.owned_count = x.lock.required_hashes.length
  head : ∀ h ∈ x.lock.required_hashes, (s.latches.queue h).head? = some cid
  sub : ∀ h ∈ keepHashes keep, h ∈ x.lock.required_hashes
  next_fresh : ∀ c y, nextCmd keep c = some y → s.cmds c = none
  spec : ReleaseSpec s.latches x.lock.required_hashes (keepHashes keep) (keepCid keep) wakeup
    s'.latches
  cmds : s'.cmds = wake (fun c => (nextCmd keep c).or
    (if c = cid then some { x with phase := .released } else s.cmds c)) wakeup

theorem release_pre {s : Sys} {cid : Nat} {x : Command} {keep : Option (Nat × Lock)} (hs : Inv s)
    (hx : s.cmds cid = some x) (hp : x.phase = .acquired) (hkeep : KeepValid s x keep) :
    x.lock.owned_count = x.lock.required_hashes.length ∧
      (∀ h ∈ keepHashes keep, h ∈ x.lock.required_hashes) ∧
      ∀ h ∈ x.lock.required_hashes, (s.latches.queue h).head? = some cid := by
  have hall : x.lock.owned_count = x.lock.required_hashes.length := by
    simpa [Command.CountOk, hp] using hs.count_ok cid x hx
  refine ⟨hall, ?_, fun h hh => ?_⟩
  · cases keep with
    | none => simp [keepHashes]
    | some k => exact hkeep.2
  · apply hs.owned_head cid x hx ⟨by simp [hp], by simp [hp]⟩
    simpa [Command.owned, hall] using hh

theorem releaseCtx_of {s s' : Sys} {cid : Nat} {x : Command} {keep : Option (Nat × Lock)}
    {wakeup : List Nat} (hs : Inv s) (hx : s.cmds cid = some x) (hp : x.phase = .acquired)
    (hkeep : KeepValid s x keep) (hrel : s.release cid x keep = some (wakeup, s')) :
    ReleaseCtx s s' cid x keep wakeup := by
  obtain ⟨hall, hsub, hhead⟩ := release_pre hs hx hp hkeep
  have hfresh : ∀ c y, nextCmd keep c = some y → s.cmds c = none := by
    intro c y hc
    obtain ⟨l, rfl, -⟩ := keep_of_nextCmd hc
    exact hkeep.1
  obtain ⟨w, ls', hl, hspec⟩ := release_latches_spec hall hsub hhead
  simp only [Sys.release, hl, Option.some.injEq, Prod.mk.injEq] at hrel
  obtain ⟨rfl, rfl⟩ := hrel
  exact ⟨hx, hall, hhead, hsub, hfresh, hspec, rfl⟩

theorem ReleaseCtx.mem_queue {s s' : Sys} {cid : Nat} {x : Command} {keep : Option (Nat × Lock)}
    {wakeup : List Nat} (hs : Inv s) (hp : x.phase = .acquired)
    (hc : ReleaseCtx s s' cid x keep wakeup) (h c : Nat) :
    c ∈ s'.latches.queue h ↔
      (c ∈ s.latches.queue h ∧ c ≠ cid) ∨ (h ∈ keepHashes keep ∧ c = keepCid keep) := by
  rw [hc.spec.queue_eq h]
  by_cases hR : h ∈ x.lock.required_hashes
  · obtain ⟨t, ht⟩ := List.head?_eq_some_iff.mp (hc.head h hR)
    have hcid : cid ∉ t := by
      have := hs.nodup h
      rw [ht] at this
      exact (List.nodup_cons.mp this).1
    have hmem : c ∈ t ↔ c ∈ cid :: t ∧ c ≠ cid := by
      constructor
      · intro hm; exact ⟨List.mem_cons_of_mem _ hm, fun he => hcid (he ▸ hm)⟩
      · rintro ⟨hm, hne⟩; exact (List.mem_cons.mp hm).resolve_left hne
    rw [if_pos hR, ht]
    by_cases hK : h ∈ keepHashes keep
    · simp only [hK, if_true, List.mem_cons, true_and]
      rw [hmem]
      simp only [List.mem_cons]
      tauto
    · simp only [hK, if_false, false_and, or_false]
      exact hmem
  · have hK : h ∉ keepHashes keep := fun hk => hR (hc.sub h hk)
    rw [if_neg hR]
    simp only [hK, false_and, or_false]
    constructor
    · intro hm
      refine ⟨hm, fun he => hR ?_⟩
      subst he
      obtain ⟨y, hy, hhy⟩ := (hs.mem_queue h c).mp hm
      rw [hc.hx, Option.some.injEq] at hy
      subst hy
      simpa [Command.entries, hp, Command.owned, hc.all] using hhy
    · exact And.left

theorem ReleaseCtx.cmds_cases {s s' : Sys} {cid : Nat} {x : Command} {keep : Option (Nat × Lock)}
    {wakeup : List Nat} (hs : Inv s) (hp : x.phase = .acquired)
    (hc : ReleaseCtx s s' cid x keep wakeup) (c : Nat) :
    (c ∈ wakeup ∧ ∃ y h, s.cmds c = some y ∧ y.phase = .waiting ∧
      s'.cmds c = some { y with phase := .woken } ∧ y.waitHash = some h ∧
      h ∈ x.lock.required_hashes ∧ h ∉ keepHashes keep ∧
      (s.latches.queue h).tail.head? = some c) ∨
    (∃ l, keep = some (c, l) ∧ s.cmds c = none ∧
      s'.cmds c = some ⟨l.force_assume_acquired, .acquired⟩) ∨
    (c = cid ∧ s'.cmds c = some { x with phase := .released }) ∨
    (c ∉ wakeup ∧ nextCmd keep c = none ∧ c ≠ cid ∧ s'.cmds c = s.cmds c) := by
  rw [hc.cmds]
  by_cases hw : c ∈ wakeup
  · obtain ⟨y, h, hy, hph, hwh, hR, hK, hq⟩ := wakeup_waiting hs hc.spec hc.head hw
    have hcid : c ≠ cid := fun he => by rw [he, hc.hx] at hy; simp at hy; simp [← hy, hp] at hph
    have hn : nextCmd keep c = none := by
      cases hn : nextCmd keep c with
      | none => rfl
      | some z => simp [hc.next_fresh c z hn] at hy
    left
    exact ⟨hw, y, h, hy, hph, by simp [wake, hw, hn, hcid, hy], hwh, hR, hK, hq⟩
  · cases hn : nextCmd keep c with
    | some z =>
      obtain ⟨l, hk, rfl⟩ := keep_of_nextCmd hn
      right; left
      exact ⟨l, hk, hc.next_fresh c _ hn, by simp [wake, hw, hn]⟩
    | none =>
      by_cases hcid : c = cid
      · subst hcid
        right; right; left
        exact ⟨rfl, by simp [wake, hw, hn]⟩
      · right; right; right
        exact ⟨hw, rfl, hcid, by simp [wake, hw, hn, hcid]⟩

theorem inv_release {s s' : Sys} {cid : Nat} {x : Command} {keep : Option (Nat × Lock)}
    {wakeup : List Nat} (hs : Inv s) (hx : s.cmds cid = some x) (hp : x.phase = .acquired)
    (hkeep : KeepValid s x keep) (hrel : s.release cid x keep = some (wakeup, s')) : Inv s' := by
  have hc := releaseCtx_of hs hx hp hkeep hrel
  have hfar : ∀ h, h ∉ x.lock.required_hashes → s'.latches.queue h = s.latches.queue h := by
    intro h hR
    rw [hc.spec.queue_eq h, if_neg hR]
  have hfree : ∀ h ∈ x.lock.required_hashes, h ∉ keepHashes keep →
      s'.latches.queue h = (s.latches.queue h).tail := by
    intro h hR hK
    rw [hc.spec.queue_eq h, if_pos hR, if_neg hK]
  have hkept : ∀ h ∈ keepHashes keep, s'.latches.queue h = keepCid keep :: (s.latches.queue h).tail := by
    intro h hK
    rw [hc.spec.queue_eq h, if_pos (hc.sub h hK), if_pos hK]
  -- a command heading a queue other than `cid` heads a queue the release leaves alone
  have hhead_far : ∀ h c, c ≠ cid → (s.latches.queue h).head? = some c →
      h ∉ x.lock.required_hashes := by
    intro h c hne hq hR
    rw [hc.head h hR] at hq
    exact hne (Option.some.inj hq).symm
  have hnot_kept : ∀ h c y, s.cmds c = some y → ¬ (h ∈ keepHashes keep ∧ c = keepCid keep) := by
    intro h c y hy
    apply not_kept_of_nextCmd_none
    cases hn : nextCmd keep c with
    | none => rfl
    | some z => simp [hc.next_fresh c z hn] at hy
  refine ⟨fun h c => ?_, fun c y hy hact h hh => ?_, fun c y h hy hph hw => ?_,
    fun c y h hy hph hw => ?_, fun h => ?_, fun c y hy => ?_⟩
  · rw [hc.mem_queue hs hp h c]
    rcases hc.cmds_cases hs hp c with ⟨-, y, -, hy, hph, hy', -⟩ | ⟨l, hk, hnone, hy'⟩ |
      ⟨rfl, hy'⟩ | ⟨-, hn, hcid, hy'⟩
    · have hcid : c ≠ cid := fun he => by rw [he, hx] at hy; simp at hy; simp [← hy, hp] at hph
      simp only [hy', Option.some.injEq, exists_eq_left', entries_woken hph, hnot_kept h c y hy,
        or_false, ne_eq, hcid, not_false_eq_true, and_true]
      exact (hs.mem_queue h c).trans (by simp [hy])
    · have hout : c ∉ s.latches.queue h := fun hm => by
        obtain ⟨z, hz, -⟩ := (hs.mem_queue h c).mp hm
        simp [hnone] at hz
      simp [hy', hout, hk, keepHashes, keepCid, Command.entries, Command.owned,
        Lock.force_assume_acquired]
    · simp only [hy', Option.some.injEq, exists_eq_left', ne_eq, not_true_eq_false, and_false,
        false_or, hnot_kept h c x hx, false_iff]
      simp [Command.entries]
    · rw [hy']
      cases hcy : s.cmds c with
      | none =>
        have hout : c ∉ s.latches.queue h := fun hm => by
          obtain ⟨z, hz, -⟩ := (hs.mem_queue h c).mp hm
          simp [hcy] at hz
        simp only [hout, false_and, false_or, reduceCtorEq, false_and, exists_false, iff_false]
        rintro ⟨hK, he⟩
        cases keep with
        | none => simp [keepHashes] at hK
        | some k =>
          obtain ⟨n, l⟩ := k
          simp only [keepCid, Option.map_some, Option.getD_some] at he
          subst he
          simp [nextCmd] at hn
      | some y =>
        simp only [hnot_kept h c y hcy, or_false, ne_eq, hcid, not_false_eq_true, and_true]
        rw [hs.mem_queue, hcy]
  · rcases hc.cmds_cases hs hp c with ⟨-, y0, -, hy0, hph, hy', -⟩ | ⟨l, hk, -, hy'⟩ |
      ⟨rfl, hy'⟩ | ⟨-, -, hcid, hy'⟩
    · rw [hy', Option.some.injEq] at hy
      subst hy
      have hq := hs.owned_head c y0 hy0 ⟨by simp [hph], by simp [hph]⟩ h hh
      have hcid : c ≠ cid := fun he => by rw [he, hx] at hy0; simp at hy0; simp [← hy0, hp] at hph
      rw [hfar h (hhead_far h c hcid hq), hq]
    · rw [hy', Option.some.injEq] at hy
      subst hy
      have hK : h ∈ keepHashes keep := by
        simpa [hk, keepHashes, Command.owned, Lock.force_assume_acquired] using hh
      rw [hkept h hK]
      simp [hk, keepCid]
    · rw [hy', Option.some.injEq] at hy
      subst hy
      simp [Command.Active] at hact
    · rw [hy'] at hy
      have hq := hs.owned_head c y hy hact h hh
      rw [hfar h (hhead_far h c hcid hq), hq]
  · rcases hc.cmds_cases hs hp c with ⟨-, y0, h0, hy0, hph0, hy', hw0, hR, hK, hq⟩ |
      ⟨l, hk, -, hy'⟩ | ⟨rfl, hy'⟩ | ⟨-, -, hcid, hy'⟩
    · rw [hy', Option.some.injEq] at hy
      subst hy
      have he : h = h0 := by simp [Command.waitHash] at hw hw0; rw [hw] at hw0; exact Option.some.inj hw0
      subst he
      rw [hfree h hR hK, hq]
    · rw [hy', Option.some.injEq] at hy
      subst hy
      simp at hph
    · rw [hy', Option.some.injEq] at hy
      subst hy
      simp at hph
    · rw [hy'] at hy
      have hq := hs.woken_head c y h hy hph hw
      rw [hfar h (hhead_far h c hcid hq), hq]
  · rcases hc.cmds_cases hs hp c with ⟨-, y0, -, -, -, hy', -⟩ | ⟨l, hk, -, hy'⟩ |
      ⟨rfl, hy'⟩ | ⟨hnw, hn, hcid, hy'⟩
    · rw [hy', Option.some.injEq] at hy
      subst hy
      simp at hph
    · rw [hy', Option.some.injEq] at hy
      subst hy
      simp at hph
    · rw [hy', Option.some.injEq] at hy
      subst hy
      simp at hph
    · rw [hy'] at hy
      have hb := hs.waiting_blocked c y h hy hph hw
      by_cases hR : h ∈ x.lock.required_hashes
      · by_cases hK : h ∈ keepHashes keep
        · rw [hkept h hK]
          intro he
          simp only [List.head?_cons, Option.some.injEq] at he
          exact hnot_kept h c y hy ⟨hK, he.symm⟩
        · rw [hfree h hR hK]
          intro he
          apply hnw
          rw [hc.spec.wakeup_eq, List.mem_filterMap]
          exact ⟨h, hR, by simp [hK, he]⟩
      · rw [hfar h hR]
        exact hb
  · by_cases hR : h ∈ x.lock.required_hashes
    · by_cases hK : h ∈ keepHashes keep
      · rw [hkept h hK]
        have hout : keepCid keep ∉ s.latches.queue h := fun hm => by
          obtain ⟨z, hz, -⟩ := (hs.mem_queue h _).mp hm
          cases keep with
          | none => simp [keepHashes] at hK
          | some k =>
            obtain ⟨n, l⟩ := k
            have hn : nextCmd (some (n, l)) n = some ⟨l.force_assume_acquired, .acquired⟩ := by
              simp [nextCmd]
            simp [keepCid, hc.next_fresh n _ hn] at hz
        exact List.nodup_cons.mpr ⟨fun hm => hout (List.mem_of_mem_tail hm),
          (hs.nodup h).sublist (List.tail_sublist _)⟩
      · rw [hfree h hR hK]
        exact (hs.nodup h).sublist (List.tail_sublist _)
    · rw [hfar h hR]
      exact hs.nodup h
  · rcases hc.cmds_cases hs hp c with ⟨-, y0, -, hy0, hph, hy', -⟩ | ⟨l, hk, -, hy'⟩ |
      ⟨rfl, hy'⟩ | ⟨-, -, hcid, hy'⟩
    · rw [hy', Option.some.injEq] at hy
      subst hy
      simpa [Command.CountOk, hph] using hs.count_ok c y0 hy0
    · rw [hy', Option.some.injEq] at hy
      subst hy
      simp [Command.CountOk, Lock.force_assume_acquired]
    · rw [hy', Option.some.injEq] at hy
      subst hy
      simp [Command.CountOk]
    · rw [hy'] at hy
      exact hs.count_ok c y hy

end Tikv.Scheduler
