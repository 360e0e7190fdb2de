import Tikv.Lib.Rank
import Tikv.Scheduler.LatchRelease

/-!
The latch invariant along every run of the protocol, and what it gives: the command that
counts a hash as acquired is the first entry for it, a command has one entry per hash, the
waits-for relation has no cycle (its rank is the hash a command waits on, which grows along
the relation since hashes are acquired in sorted order), and a release never fails its
assertions and wakes up only commands now first for the hash they wait on.
-/

namespace Tikv.Scheduler

open Tikv.Lib.SortedList Tikv.Lib.Rank

theorem inv_step {s s' : Sys} (hs : Inv s) (h : Step s s') : Inv s' := by
  cases h with
  | spawn hfresh h0 => exact inv_spawn hs hfresh h0
  | acquire hx hp => exact inv_acquire hs hx hp
  | release hx hp hkeep hrel => exact inv_release hs hx hp hkeep hrel

theorem inv_reachable {size : Nat} {s : Sys} (h : Reachable size s) : Inv s := by
  induction h with
  | refl => exact inv_init size
  | tail _ hstep ih => exact inv_step ih hstep

theorem wakeup_head {s s' : Sys} {cid : Nat} {x : Command} {keep : Option (Nat × Lock)}
    {wakeup : List Nat} (hs : Inv s) (hx : s.cmds cid = some x) (hp : x.phase = .acquired)
    (hkeep : KeepValid s x keep) (hrel : s.release cid x keep = some (wakeup, s'))
    {w : Nat} (hw : w ∈ wakeup) :
    ∃ y h, s'.cmds w = some y ∧ y.phase = .woken ∧ y.waitHash = some h ∧
      (s'.latches.queue h).head? = some w := by
  have hc := releaseCtx_of hs hx hp hkeep hrel
  have hs' := inv_release hs hx hp hkeep hrel
  obtain ⟨y, -, hy, hph, -⟩ := wakeup_waiting hs hc.spec hc.head hw
  -- of the four things a release does to a command, only waking applies to a waiting one
  rcases hc.cmds_cases hs hp w with ⟨-, z, h, -, -, hz', hzw, -⟩ | ⟨l, -, hnone, -⟩ |
    ⟨rfl, -⟩ | ⟨hnw, -⟩
  · exact ⟨_, h, hz', rfl, hzw, hs'.woken_head w _ h hz' rfl hzw⟩
  · simp [hnone] at hy
  · rw [hx, Option.some.injEq] at hy
    subst hy
    simp [hp] at hph
  · exact absurd hw hnw

def Owns (s : Sys) (c h : Nat) : Prop := ∃ x, s.cmds c = some x ∧ x.Active ∧ h ∈ x.owned

def WaitsFor (s : Sys) (b a : Nat) : Prop :=
  b ≠ a ∧ ∃ h, b ∈ s.latches.queue h ∧ (s.latches.queue h).head? = some a

def Waiting (s : Sys) (c : Nat) : Prop := ∃ y, s.cmds c = some y ∧ y.phase = .waiting

def waitRank (s : Sys) (c : Nat) : Nat := ((s.cmds c).bind Command.waitHash).getD 0

theorem waitsFor_rank {s : Sys} (hs : Inv s) {b a : Nat} (hw : WaitsFor s b a) :
    Waiting s b ∧ (Waiting s a → waitRank s b < waitRank s a) := by
  obtain ⟨hne, h, hb, ha⟩ := hw
  obtain ⟨y, hy, hyp, hyw⟩ := waiting_of_not_head hs hb (by rw [ha]; simpa using Ne.symm hne)
  refine ⟨⟨y, hy, hyp⟩, ?_⟩
  rintro ⟨z, hz, hzp⟩
  obtain ⟨z', hz', hzh⟩ := (hs.mem_queue h a).mp (List.mem_of_mem_head? ha)
  rw [hz, Option.some.injEq] at hz'
  subst hz'
  have hcnt : z.lock.owned_count < z.lock.required_hashes.length := by
    simpa [Command.CountOk, hzp] using hs.count_ok a z hz
  obtain ⟨w, hw⟩ : ∃ w, z.waitHash = some w := ⟨_, List.getElem?_eq_getElem hcnt⟩
  have hm : h ∈ z.lock.required_hashes.take (z.lock.owned_count + 1) := by
    simpa [Command.entries, hzp] using hzh
  rcases mem_take_succ.mp hm with hh | hh
  · have hlt := lt_of_mem_take_of_getElem? z.lock.sorted hh hw
    simp [waitRank, hy, hz, hyw, hw, hlt]
  · exact absurd ha (hs.waiting_blocked a z h hz hzp hh)

theorem waitsFor_acyclic {s : Sys} (hs : Inv s) (a : Nat) : ¬ Relation.TransGen (WaitsFor s) a a :=
  not_transGen_self (fun _ _ hw => waitsFor_rank hs hw) a

theorem acquired_heads {s : Sys} (hs : Inv s) {c : Nat} {x : Command} (hx : s.cmds c = some x)
    (hp : x.phase = .acquired) {h : Nat} (hh : h ∈ x.lock.required_hashes) :
    (s.latches.queue h).head? = some c :=
  (@release_pre s c x none hs hx hp trivial).2.2 h hh

theorem acquire_true_heads {s : Sys} (hs : Inv s) {c : Nat} {x : Command} (hx : s.cmds c = some x)
    (hp : x.phase = .fresh ∨ x.phase = .woken) (hacq : (s.latches.acquire x.lock c).1 = true)
    {h : Nat} (hh : h ∈ x.lock.required_hashes) :
    ((s.latches.acquire x.lock c).2.2.queue h).head? = some c := by
  have hc : (s.acquire c x).cmds c = some ⟨(s.latches.acquire x.lock c).2.1, .acquired⟩ := by
    rw [Sys.acquire]
    dsimp only
    rw [Function.update_self, hacq]
    rfl
  exact acquired_heads (inv_acquire hs hx hp) hc rfl (by rwa [acquire_required])

structure LatchesSafe (s : Sys) : Prop where
  acquired_owns : ∀ c x, s.cmds c = some x → x.phase = .acquired →
    ∀ h ∈ x.lock.required_hashes, (s.latches.queue h).head? = some c
  acquire_owns : ∀ c x, s.cmds c = some x → (x.phase = .fresh ∨ x.phase = .woken) →
    (s.latches.acquire x.lock c).1 = true →
      ∀ h ∈ x.lock.required_hashes, ((s.latches.acquire x.lock c).2.2.queue h).head? = some c
  owner_head : ∀ c h, Owns s c h → (s.latches.queue h).head? = some c
  owner_unique : ∀ c d h, Owns s c h → Owns s d h → c = d
  entry_unique : ∀ c h, (s.latches.queue h).count c ≤ 1
  waitsFor_acyclic : ∀ a, ¬ Relation.TransGen (WaitsFor s) a a
  wakeup_head : ∀ cid x keep wakeup s', s.cmds cid = some x → x.phase = .acquired →
    KeepValid s x keep → s.release cid x keep = some (wakeup, s') →
    ∀ w ∈ wakeup, ∃ y h, s'.cmds w = some y ∧ y.phase = .woken ∧ y.waitHash = some h ∧
      (s'.latches.queue h).head? = some w

theorem owns_head {s : Sys} (hs : Inv s) {c h : Nat} : Owns s c h →
    (s.latches.queue h).head? = some c
  | ⟨x, hx, hact, hh⟩ => hs.owned_head c x hx hact h hh

theorem latchesSafe_of_inv {s : Sys} (hs : Inv s) : LatchesSafe s where
  acquired_owns _ _ hx hp _ hh := acquired_heads hs hx hp hh
  acquire_owns _ _ hx hp hacq _ hh := acquire_true_heads hs hx hp hacq hh
  owner_head _ _ := owns_head hs
  owner_unique _ _ _ hc hd := Option.some.inj ((owns_head hs hc).symm.trans (owns_head hs hd))
  entry_unique c h := List.nodup_iff_count_le_one.mp (hs.nodup h) c
  waitsFor_acyclic := waitsFor_acyclic hs
  wakeup_head _ _ _ _ _ hx hp hkeep hrel _ hw := wakeup_head hs hx hp hkeep hrel hw

theorem latches_serialize {size : Nat} {s : Sys} (hr : Reachable size s) : LatchesSafe s :=
  latchesSafe_of_inv (inv_reachable hr)

/-- Two commands on key 3: the first gets the latch, the second waits behind it. -/
theorem latches_serialize_contended :
    let s0 := ((Sys.init 4).spawn 1 (Lock.new id [3])).spawn 2 (Lock.new id [3, 5])
    let s1 := s0.acquire 1 ⟨Lock.new id [3], .fresh⟩
    let s2 := s1.acquire 2 ⟨Lock.new id [3, 5], .fresh⟩
    Reachable 4 s2 ∧ (s2.cmds 1).map Command.phase = some .acquired ∧
      (s2.cmds 2).map Command.phase = some .waiting ∧ LatchesSafe s2 := by
  intro s0 s1 s2
  have hr : Reachable 4 s2 :=
    ((((Relation.ReflTransGen.refl.tail (Step.spawn rfl rfl)).tail (Step.spawn rfl rfl)).tail
      (Step.acquire (by simp [Sys.spawn]) (Or.inl rfl))).tail
      (Step.acquire (by simp [Sys.acquire, Sys.spawn]) (Or.inl rfl)))
  have h35 : Lock.new id [3, 5] = ⟨[3, 5], 0, by decide⟩ := by
    simp [Lock.new, List.mergeSort_eq_self]
  have h3 : Lock.new id [3] = ⟨[3], 0, by decide⟩ := by simp [Lock.new]
  have hphase : (s2.cmds 1).map Command.phase = some .acquired ∧
      (s2.cmds 2).map Command.phase = some .waiting := by
    simp only [s2, s1, s0, h35, h3]
    decide +kernel
  exact ⟨hr, hphase.1, hphase.2, latches_serialize hr⟩

end Tikv.Scheduler
