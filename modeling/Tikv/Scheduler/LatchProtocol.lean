import Tikv.Lib.SortedList
import Tikv.Scheduler.LatchLoops

/-!
Commands driving the latches as the scheduler does: a command calls `acquire` once, and again
only after it appeared in a wakeup list; it calls `release` once after `acquire` returned true,
possibly handing a sorted subset of its hashes to a new command, which then owns them
(`force_assume_acquired`).
-/

namespace Tikv.Scheduler

open Tikv.Lib.SortedList

inductive Phase
  | fresh
  | waiting
  | woken
  | acquired
  | released
  deriving DecidableEq, Repr

structure Command where
  lock : Lock
  phase : Phase

def Command.owned (x : Command) : List Nat := x.lock.required_hashes.take x.lock.owned_count

def Command.waitHash (x : Command) : Option Nat := x.lock.required_hashes[x.lock.owned_count]?

def Command.entries (x : Command) : List Nat :=
  match x.phase with
  | .fresh | .released => []
  | .acquired => x.owned
  | .waiting | .woken => x.lock.required_hashes.take (x.lock.owned_count + 1)

def Command.Active (x : Command) : Prop := x.phase ≠ .fresh ∧ x.phase ≠ .released

def Command.CountOk (x : Command) : Prop :=
  match x.phase with
  | .fresh => x.lock.owned_count = 0
  | .waiting | .woken => x.lock.owned_count < x.lock.required_hashes.length
  | .acquired => x.lock.owned_count = x.lock.required_hashes.length
  | .released => True

structure Sys where
  latches : Latches
  cmds : Nat → Option Command

def Sys.init (size : Nat) : Sys := ⟨Latches.new size, fun _ => none⟩

def Sys.spawn (s : Sys) (cid : Nat) (lock : Lock) : Sys :=
  { s with cmds := Function.update s.cmds cid (some ⟨lock, .fresh⟩) }

def Sys.acquire (s : Sys) (cid : Nat) (x : Command) : Sys :=
  let r := s.latches.acquire x.lock cid
  ⟨r.2.2, Function.update s.cmds cid (some ⟨r.2.1, if r.1 then .acquired else .waiting⟩)⟩

def wake (cmds : Nat → Option Command) (wakeup : List Nat) : Nat → Option Command :=
  fun c => if c ∈ wakeup then (cmds c).map (fun x => { x with phase := .woken }) else cmds c

def nextCmd (keep : Option (Nat × Lock)) (c : Nat) : Option Command :=
  match keep with
  | some (next, l) => if c = next then some ⟨l.force_assume_acquired, .acquired⟩ else none
  | none => none

def Sys.release (s : Sys) (cid : Nat) (x : Command) (keep : Option (Nat × Lock)) :
    Option (List Nat × Sys) :=
  match s.latches.release x.lock cid keep with
  | none => none
  | some (wakeup, ls') => some (wakeup, ⟨ls', wake (fun c => (nextCmd keep c).or
      (if c = cid then some { x with phase := .released } else s.cmds c)) wakeup⟩)

def KeepValid (s : Sys) (x : Command) : Option (Nat × Lock) → Prop
  | none => True
  | some (next, l) => s.cmds next = none ∧ ∀ h ∈ l.required_hashes, h ∈ x.lock.required_hashes

inductive Step : Sys → Sys → Prop
  | spawn {s : Sys} {cid : Nat} {lock : Lock} :
      s.cmds cid = none → lock.owned_count = 0 → Step s (s.spawn cid lock)
  | acquire {s : Sys} {cid : Nat} {x : Command} :
      s.cmds cid = some x → x.phase = .fresh ∨ x.phase = .woken → Step s (s.acquire cid x)
  | release {s s' : Sys} {cid : Nat} {x : Command} {keep : Option (Nat × Lock)}
      {wakeup : List Nat} :
      s.cmds cid = some x → x.phase = .acquired → KeepValid s x keep →
      s.release cid x keep = some (wakeup, s') → Step s s'

def Reachable (size : Nat) (s : Sys) : Prop := Relation.ReflTransGen Step (Sys.init size) s

structure Inv (s : Sys) : Prop where
  mem_queue : ∀ h c, c ∈ s.latches.queue h ↔ ∃ x, s.cmds c = some x ∧ h ∈ x.entries
  owned_head : ∀ c x, s.cmds c = some x → x.Active → ∀ h ∈ x.owned,
    (s.latches.queue h).head? = some c
  woken_head : ∀ c x h, s.cmds c = some x → x.phase = .woken → x.waitHash = some h →
    (s.latches.queue h).head? = some c
  waiting_blocked : ∀ c x h, s.cmds c = some x → x.phase = .waiting → x.waitHash = some h →
    (s.latches.queue h).head? ≠ some c
  nodup : ∀ h, (s.latches.queue h).Nodup
  count_ok : ∀ c x, s.cmds c = some x → x.CountOk

theorem queue_new (size h : Nat) : (Latches.new size).queue h = [] := rfl

theorem inv_init (size : Nat) : Inv (Sys.init size) where
  mem_queue h c := by simp [Sys.init, queue_new]
  owned_head c x hx := by simp [Sys.init] at hx
  woken_head c x h hx := by simp [Sys.init] at hx
  waiting_blocked c x h hx := by simp [Sys.init] at hx
  nodup h := by simp [Sys.init, queue_new]
  count_ok c x hx := by simp [Sys.init] at hx

theorem inv_spawn {s : Sys} {cid : Nat} {lock : Lock} (hs : Inv s) (hfresh : s.cmds cid = none)
    (h0 : lock.owned_count = 0) : Inv (s.spawn cid lock) := by
  have hnot : ∀ h, cid ∉ s.latches.queue h := fun h hm => by
    obtain ⟨x, hx, -⟩ := (hs.mem_queue h cid).mp hm
    simp [hfresh] at hx
  refine ⟨fun h c => ?_, fun c x hx hact => ?_, fun c x h hx hp => ?_, fun c x h hx hp => ?_,
    hs.nodup, fun c x hx => ?_⟩
  · by_cases hc : c = cid
    · subst hc; simp [Sys.spawn, Command.entries, hnot]
    · simpa [Sys.spawn, hc] using hs.mem_queue h c
  all_goals by_cases hc : c = cid
  all_goals simp only [Sys.spawn, hc, Function.update_self, Function.update_of_ne,
    Option.some.injEq, ne_eq, not_false_eq_true] at hx
  · subst hx; simp [Command.Active] at hact
  · exact hs.owned_head c x hx hact
  · subst hx; simp at hp
  · exact hs.woken_head c x h hx hp
  · subst hx; simp at hp
  · exact hs.waiting_blocked c x h hx hp
  · subst hx; simpa [Command.CountOk] using h0
  · exact hs.count_ok c x hx

@[simp] theorem acquire_latches (ls : Latches) (lock : Lock) (who : Nat) :
    (ls.acquire lock who).2.2 =
      (ls.acquire_from who (lock.required_hashes.drop lock.owned_count)).2 := rfl

@[simp] theorem acquire_required (ls : Latches) (lock : Lock) (who : Nat) :
    (ls.acquire lock who).2.1.required_hashes = lock.required_hashes := rfl

@[simp] theorem acquire_owned_count (ls : Latches) (lock : Lock) (who : Nat) :
    (ls.acquire lock who).2.1.owned_count =
      lock.owned_count + (ls.acquire_from who (lock.required_hashes.drop lock.owned_count)).1 := rfl

@[simp] theorem acquire_result (ls : Latches) (lock : Lock) (who : Nat) :
    (ls.acquire lock who).1 = (lock.required_hashes.length ==
      lock.owned_count + (ls.acquire_from who (lock.required_hashes.drop lock.owned_count)).1) :=
  rfl

theorem mem_entries_of_waitHash {x : Command} {h : Nat} (hp : x.phase = .waiting ∨ x.phase = .woken)
    (hw : x.waitHash = some h) : h ∈ x.entries := by
  have hm : h ∈ x.lock.required_hashes.take (x.lock.owned_count + 1) :=
    mem_take_succ.mpr (Or.inr hw)
  rcases hp with hp | hp <;> simpa [Command.entries, hp] using hm

theorem head?_append_of_head? {l : List Nat} {c : Nat} (hl : l.head? = some c) (e : List Nat) :
    (l ++ e).head? = some c := by
  simp [List.head?_append, hl]

theorem acquire_entries {s : Sys} {cid : Nat} {x : Command} (hs : Inv s) (hx : s.cmds cid = some x)
    (hp : x.phase = .fresh ∨ x.phase = .woken) (n h : Nat) :
    h ∈ x.entries ∨ h ∈ (x.lock.required_hashes.drop x.lock.owned_count).take (n + 1) ↔
      h ∈ x.lock.required_hashes.take (x.lock.owned_count + n + 1) := by
  have hc := hs.count_ok cid x hx
  rw [Nat.add_assoc, @List.take_add _ x.lock.required_hashes x.lock.owned_count (n + 1),
    List.mem_append]
  rcases hp with hp | hp
  · have ho : x.lock.owned_count = 0 := by simpa [Command.CountOk, hp] using hc
    simp [Command.entries, hp, ho]
  · have he : x.entries = x.lock.required_hashes.take (x.lock.owned_count + 1) := by
      simp [Command.entries, hp]
    rw [he, @mem_take_succ _ x.lock.required_hashes x.lock.owned_count h]
    constructor
    · rintro ((h1 | h1) | h1)
      · exact Or.inl h1
      · exact Or.inr (mem_take_drop_of_getElem? h1)
      · exact Or.inr h1
    · rintro (h1 | h1)
      · exact Or.inl (Or.inl h1)
      · exact Or.inr h1

def acquiredCmd (x : Command) (n : Nat) : Command :=
  ⟨{ x.lock with owned_count := x.lock.owned_count + n },
    if x.lock.required_hashes.length == x.lock.owned_count + n then .acquired else .waiting⟩

@[simp] theorem acquiredCmd_required (x : Command) (n : Nat) :
    (acquiredCmd x n).lock.required_hashes = x.lock.required_hashes := rfl

@[simp] theorem acquiredCmd_owned_count (x : Command) (n : Nat) :
    (acquiredCmd x n).lock.owned_count = x.lock.owned_count + n := rfl

theorem acquire_cmds (s : Sys) (cid : Nat) (x : Command) :
    (s.acquire cid x).cmds = Function.update s.cmds cid (some (acquiredCmd x
      (s.latches.acquire_from cid (x.lock.required_hashes.drop x.lock.owned_count)).1)) := rfl

theorem acquiredCmd_phase (x : Command) (n : Nat) :
    (acquiredCmd x n).phase = .acquired ∧ x.lock.required_hashes.length = x.lock.owned_count + n ∨
      (acquiredCmd x n).phase = .waiting ∧ x.lock.required_hashes.length ≠ x.lock.owned_count + n := by
  by_cases he : x.lock.required_hashes.length = x.lock.owned_count + n
  · left; simp [acquiredCmd, he]
  · right; simp [acquiredCmd, he]

theorem acquiredCmd_entries (x : Command) (n : Nat) :
    (acquiredCmd x n).entries = x.lock.required_hashes.take (x.lock.owned_count + n + 1) := by
  rcases acquiredCmd_phase x n with ⟨hph, he⟩ | ⟨hph, -⟩
  · simp only [Command.entries, hph, Command.owned, acquiredCmd_required, acquiredCmd_owned_count]
    rw [List.take_of_length_le (by omega), List.take_of_length_le (by omega)]
  · simp only [Command.entries, hph, acquiredCmd_required, acquiredCmd_owned_count]

theorem acquiredCmd_countOk {x : Command} {n : Nat}
    (hle : x.lock.owned_count + n ≤ x.lock.required_hashes.length) : (acquiredCmd x n).CountOk := by
  rcases acquiredCmd_phase x n with ⟨hph, he⟩ | ⟨hph, he⟩
  · simp only [Command.CountOk, hph, acquiredCmd_required, acquiredCmd_owned_count]; omega
  · simp only [Command.CountOk, hph, acquiredCmd_required, acquiredCmd_owned_count]; omega

theorem mem_queue_append {q : List Nat} {cid c : Nat} (P : Prop) [Decidable P] :
    c ∈ q ++ (if P ∧ cid ∉ q then [cid] else []) ↔ c ∈ q ∨ (c = cid ∧ P) := by
  by_cases hP : P
  · by_cases hq : cid ∈ q
    · simp only [hP, hq, not_true_eq_false, and_false, if_false, List.append_nil, and_true]
      constructor
      · exact Or.inl
      · rintro (h | rfl)
        · exact h
        · exact hq
    · simp [hP, hq]
  · simp [hP]

theorem inv_acquire {s : Sys} {cid : Nat} {x : Command} (hs : Inv s) (hx : s.cmds cid = some x)
    (hp : x.phase = .fresh ∨ x.phase = .woken) : Inv (s.acquire cid x) := by
  have hsort := x.lock.sorted
  have hnd : x.lock.required_hashes.Nodup := hsort.imp (fun h => Nat.ne_of_lt h)
  have hc := hs.count_ok cid x hx
  have hpre : ∀ h ∈ x.lock.required_hashes.drop x.lock.owned_count,
      cid ∈ s.latches.queue h → (s.latches.queue h).head? = some cid := by
    intro h hd hm
    obtain ⟨y, hy, hh⟩ := (hs.mem_queue h cid).mp hm
    rw [hx, Option.some.injEq] at hy
    subst hy
    rcases hp with hp | hp
    · simp [Command.entries, hp] at hh
    · have hh' : h ∈ x.lock.required_hashes.take (x.lock.owned_count + 1) := by
        simpa [Command.entries, hp] using hh
      rcases mem_take_succ.mp hh' with ht | hw
      · exact absurd hd (not_mem_drop_of_mem_take hsort ht)
      · exact hs.woken_head cid x h hx hp hw
  have spec := acquire_from_spec (hnd.sublist (List.drop_sublist _ _)) hpre
  generalize hr : s.latches.acquire_from cid (x.lock.required_hashes.drop x.lock.owned_count) = r
    at spec
  obtain ⟨n, ls'⟩ := r
  have hcmds : (s.acquire cid x).cmds = Function.update s.cmds cid (some (acquiredCmd x n)) := by
    rw [acquire_cmds, hr]
  have hls : (s.acquire cid x).latches = ls' := by simp [Sys.acquire, hr]
  have hle : x.lock.owned_count + n ≤ x.lock.required_hashes.length := by
    have h1 := spec.count_le
    have hol : x.lock.owned_count ≤ x.lock.required_hashes.length := by
      rcases hp with hp | hp <;> simp [Command.CountOk, hp] at hc <;> omega
    simp only [List.length_drop] at h1
    omega
  have hhead : ∀ h c, (s.latches.queue h).head? = some c → (ls'.queue h).head? = some c := by
    intro h c hq
    rw [spec.queue_eq h]
    exact head?_append_of_head? hq _
  refine ⟨fun h c => ?_, fun c y hy hact h hh => ?_, fun c y h hy hph hw => ?_,
    fun c y h hy hph hw => ?_, fun h => ?_, fun c y hy => ?_⟩
  · rw [hls, hcmds, spec.queue_eq h, mem_queue_append]
    by_cases hcc : c = cid
    · subst hcc
      simp only [Function.update_self, Option.some.injEq, exists_eq_left', true_and,
        acquiredCmd_entries, hs.mem_queue, hx]
      simpa using acquire_entries hs hx hp n h
    · simp [hcc, hs.mem_queue]
  · rw [hls]
    rw [hcmds] at hy
    by_cases hcc : c = cid
    · subst hcc
      simp only [Function.update_self, Option.some.injEq] at hy
      subst hy
      have hh' : h ∈ x.lock.required_hashes.take (x.lock.owned_count + n) := by
        simpa [Command.owned, acquiredCmd] using hh
      rw [List.take_add, List.mem_append] at hh'
      rcases hh' with hh' | hh'
      · rcases hp with hp | hp
        · simp [Command.CountOk, hp] at hc; simp [hc] at hh'
        · exact hhead h c (hs.owned_head c x hx ⟨by simp [hp], by simp [hp]⟩ h hh')
      · exact spec.head_acquired h hh'
    · simp only [Function.update_of_ne hcc] at hy
      exact hhead h c (hs.owned_head c y hy hact h hh)
  · rw [hls]
    rw [hcmds] at hy
    by_cases hcc : c = cid
    · subst hcc
      simp only [Function.update_self, Option.some.injEq] at hy
      subst hy
      rcases acquiredCmd_phase x n with ⟨h1, -⟩ | ⟨h1, -⟩ <;> simp [h1] at hph
    · simp only [Function.update_of_ne hcc] at hy
      exact hhead h c (hs.woken_head c y h hy hph hw)
  · rw [hls]
    rw [hcmds] at hy
    by_cases hcc : c = cid
    · subst hcc
      simp only [Function.update_self, Option.some.injEq] at hy
      subst hy
      apply spec.head_blocked
      simpa [Command.waitHash, acquiredCmd, List.getElem?_drop] using hw
    · simp only [Function.update_of_ne hcc] at hy
      have hin : c ∈ s.latches.queue h :=
        (hs.mem_queue h c).mpr ⟨y, hy, mem_entries_of_waitHash (Or.inl hph) hw⟩
      obtain ⟨d, hd⟩ : ∃ d, (s.latches.queue h).head? = some d := by
        cases hq : (s.latches.queue h).head? with
        | none => simp [List.head?_eq_none_iff.mp hq] at hin
        | some d => exact ⟨d, rfl⟩
      rw [hhead h d hd, ← hd]
      exact hs.waiting_blocked c y h hy hph hw
  · rw [hls, spec.queue_eq h]
    by_cases hq : h ∈ (x.lock.required_hashes.drop x.lock.owned_count).take (n + 1) ∧
        cid ∉ s.latches.queue h
    · rw [if_pos hq]
      exact (hs.nodup h).append (List.nodup_singleton cid) (by simpa using hq.2)
    · rw [if_neg hq, List.append_nil]
      exact hs.nodup h
  · rw [hcmds] at hy
    by_cases hcc : c = cid
    · subst hcc
      simp only [Function.update_self, Option.some.injEq] at hy
      subst hy
      exact acquiredCmd_countOk hle
    · simp only [Function.update_of_ne hcc] at hy
      exact hs.count_ok c y hy

end Tikv.Scheduler
