import Tikv.Raftstore.BatchSplit
import Mathlib

/-!
Conf changes as raftstore applies them (components/raftstore/src/store/fsm/apply.rs), the
per-change checks the proposer runs first (check_conf_change in store/util.rs), and the Raft
configuration a region's peers stand for (conf_state_from_region). Peers are matched by store
id when a change is applied, and roles change in place; a list of two or more changes enters a
joint configuration, which apply_leave_joint leaves.

The checks of check_conf_change that run Raft's own changer on the group's progress, and those
of availability and commit-index safety after the loop, are left out; the voters of the current
progress are a parameter.
-/

namespace Tikv.Raftstore

inductive ConfChangeType
  | AddNode
  | RemoveNode
  | AddLearnerNode
  deriving Repr, DecidableEq

structure ChangePeerRequest where
  change_type : ConfChangeType
  peer : Peer
  deriving Repr, DecidableEq

inductive ConfChangeKind
  | Simple
  | EnterJoint
  | LeaveJoint
  deriving Repr, DecidableEq

def ConfChangeKind.confchange_kind (change_num : Nat) : ConfChangeKind :=
  match change_num with
  | 0 => .LeaveJoint
  | 1 => .Simple
  | _ => .EnterJoint

structure ConfState where
  voters : List UInt64
  learners : List UInt64
  voters_outgoing : List UInt64
  learners_next : List UInt64
  deriving Repr, DecidableEq

/-- The errors of apply_conf_change and check_conf_change, and a panic of the source. -/
inductive ConfChangeError
  /-- "remove missing peer {:?} from region {:?}" -/
  | RemoveMissingPeer (peer : Peer) (region : Region)
  /-- "can't add duplicated peer {:?} to region {:?}, duplicated with exist peer {:?}" -/
  | DuplicatedPeer (peer : Peer) (region : Region) (exist_peer : Peer)
  /-- "can not remove voter {:?} directly from region {:?}" -/
  | RemoveVoterDirectly (peer : Peer) (region : Region)
  /-- "remove unmatched peer: expect: {:?}, get {:?}, ignore" -/
  | RemoveUnmatchedPeer (expect get : Peer)
  /-- "{:?}: can not remove voter directly" -/
  | CanNotRemoveVoterDirectly (cp : ChangePeerRequest)
  /-- "{:?}: op not match role" -/
  | OpNotMatchRole (cp : ChangePeerRequest)
  /-- "invalid conf change request: {:?}, can not switch witness in conf change" -/
  | CanNotSwitchWitness (cp : ChangePeerRequest)
  /-- "have multiple commands for the same peer {}" -/
  | MultipleCommands (peer_id : UInt64)
  /-- "ignore remove leader or demote leader" -/
  | RemoveOrDemoteLeader
  /-- "multiple changes that only effect learner" -/
  | OnlyLearnerChange
  /-- "ignore leave joint command that demoting leader" -/
  | LeaveJointDemotingLeader
  | Panic
  deriving Repr, DecidableEq

namespace TikvUtil

def set_peer_role (peers : List Peer) (store_id : UInt64) (role : PeerRole) : List Peer :=
  match peers with
  | [] => []
  | p :: ps => if p.store_id = store_id then { p with role } :: ps else p :: set_peer_role ps store_id role

def remove_peer (region : Region) (store_id : UInt64) : Option (Peer × Region) :=
  (region.peers.find? (·.store_id == store_id)).map fun p =>
    (p, { region with peers := region.peers.eraseP (·.store_id == store_id) })

end TikvUtil

structure ApplyDelegate where
  id : UInt64
  region : Region
  stopped : Bool
  pending_remove : Bool
  deriving Repr, DecidableEq

namespace ApplyDelegate

def change_role (region : Region) (store_id : UInt64) (role : PeerRole) (change_type : ConfChangeType)
    (kind : ConfChangeKind) : Except ConfChangeError Region :=
  match role, change_type, kind with
  | .Voter, .AddLearnerNode, .Simple =>
    .ok { region with peers := TikvUtil.set_peer_role region.peers store_id .Learner }
  | .Voter, .AddLearnerNode, .EnterJoint =>
    .ok { region with peers := TikvUtil.set_peer_role region.peers store_id .DemotingVoter }
  | .Learner, .AddNode, .Simple =>
    .ok { region with peers := TikvUtil.set_peer_role region.peers store_id .Voter }
  | .Learner, .AddNode, .EnterJoint =>
    .ok { region with peers := TikvUtil.set_peer_role region.peers store_id .IncomingVoter }
  | _, _, _ => .error .Panic

def apply_change (d : ApplyDelegate) (kind : ConfChangeKind) (region : Region)
    (cp : ChangePeerRequest) : ApplyDelegate × Except ConfChangeError Region :=
  let peer := cp.peer
  let store_id := peer.store_id
  if (TikvUtil.find_peer region store_id).any
      (fun p => p.role = .IncomingVoter || p.role = .DemotingVoter) then
    (d, .error .Panic)
  else
    match TikvUtil.find_peer region store_id, cp.change_type with
    | none, .AddNode =>
      match kind with
      | .Simple => (d, .ok { region with peers := region.peers ++ [{ peer with role := .Voter }] })
      | .EnterJoint =>
        (d, .ok { region with peers := region.peers ++ [{ peer with role := .IncomingVoter }] })
      | .LeaveJoint => (d, .error .Panic)
    | none, .AddLearnerNode =>
      (d, .ok { region with peers := region.peers ++ [{ peer with role := .Learner }] })
    | none, .RemoveNode => (d, .error (.RemoveMissingPeer peer d.region))
    | some exist_peer, .RemoveNode =>
      if kind = .EnterJoint ∧ exist_peer.role = .Voter then
        (d, .error (.RemoveVoterDirectly peer d.region))
      else
        match TikvUtil.remove_peer region store_id with
        | some (p, region) =>
          if p ≠ peer then (d, .error (.RemoveUnmatchedPeer peer p))
          -- removing this peer itself stops the delegate
          else if d.id = peer.id then ({ d with stopped := true, pending_remove := true }, .ok region)
          else (d, .ok region)
        | none => (d, .error .Panic)
    | some exist_peer, change_type =>
      if exist_peer.id ≠ peer.id ∨ (exist_peer.role = .Voter ∧ change_type = .AddNode) ∨
          (exist_peer.role = .Learner ∧ change_type = .AddLearnerNode) ∨
          exist_peer.is_witness ≠ peer.is_witness then
        (d, .error (.DuplicatedPeer peer d.region exist_peer))
      else (d, change_role region store_id exist_peer.role change_type kind)

def apply_conf_change_loop (kind : ConfChangeKind) :
    ApplyDelegate → Region → List ChangePeerRequest → ApplyDelegate × Except ConfChangeError Region
  | d, region, [] => (d, .ok region)
  | d, region, cp :: changes =>
    match d.apply_change kind region cp with
    | (d, .ok region) => apply_conf_change_loop kind d region changes
    | (d, .error e) => (d, .error e)

def with_conf_ver (region : Region) (conf_ver : UInt64) : Region :=
  { region with region_epoch := { region.region_epoch with conf_ver } }

def apply_conf_change (d : ApplyDelegate) (kind : ConfChangeKind) (changes : List ChangePeerRequest) :
    ApplyDelegate × Except ConfChangeError Region :=
  match apply_conf_change_loop kind d d.region changes with
  | (d, .ok region) =>
    (d, .ok (with_conf_ver region (region.region_epoch.conf_ver + changes.length.toUInt64)))
  | (d, .error e) => (d, .error e)

def leave_joint_role (p : Peer) : Peer :=
  match p.role with
  | .IncomingVoter => { p with role := .Voter }
  | .DemotingVoter => { p with role := .Learner }
  | _ => p

def apply_leave_joint (d : ApplyDelegate) : Except ConfChangeError Region :=
  let region := d.region
  let change_num := region.peers.countP fun p =>
    p.role = .IncomingVoter || p.role = .DemotingVoter
  if change_num = 0 then .error .Panic
  else
    let region := { region with peers := region.peers.map leave_joint_role }
    .ok (with_conf_ver region (region.region_epoch.conf_ver + change_num.toUInt64))

end ApplyDelegate

namespace Util

def conf_state_push (acc : ConfState × Bool) (p : Peer) : ConfState × Bool :=
  let (conf_state, in_joint) := acc
  match p.role with
  | .Voter =>
    ({ conf_state with
      voters := conf_state.voters ++ [p.id]
      voters_outgoing := conf_state.voters_outgoing ++ [p.id] }, in_joint)
  | .Learner => ({ conf_state with learners := conf_state.learners ++ [p.id] }, in_joint)
  | .IncomingVoter => ({ conf_state with voters := conf_state.voters ++ [p.id] }, true)
  | .DemotingVoter =>
    ({ conf_state with
      voters_outgoing := conf_state.voters_outgoing ++ [p.id]
      learners_next := conf_state.learners_next ++ [p.id] }, true)

def conf_state_from_region (region : Region) : ConfState :=
  let (conf_state, in_joint) := region.peers.foldl conf_state_push (⟨[], [], [], []⟩, false)
  if !in_joint then { conf_state with voters_outgoing := [] } else conf_state

def check_op_match_role (kind : ConfChangeKind) (cp : ChangePeerRequest) :
    Except ConfChangeError Unit :=
  match cp.change_type, cp.peer.role with
  | .RemoveNode, .Voter =>
    if kind ≠ .Simple then .error (.CanNotRemoveVoterDirectly cp) else .ok ()
  | .RemoveNode, _ | .AddNode, .Voter | .AddLearnerNode, .Learner => .ok ()
  | _, _ => .error (.OpNotMatchRole cp)

def check_change_peer (allow_remove_leader : Bool) (region : Region) (leader : Peer)
    (kind : ConfChangeKind) (check_dup : List UInt64) (cp : ChangePeerRequest) :
    Except ConfChangeError Unit := do
  let (change_type, peer) := (cp.change_type, cp.peer)
  check_op_match_role kind cp
  if (region.peers.find? (·.id == peer.id)).any (·.is_witness != peer.is_witness) then
    throw (.CanNotSwitchWitness cp)
  if peer.id ∈ check_dup then throw (.MultipleCommands peer.id)
  if peer.id = leader.id ∧
      (change_type = .RemoveNode ∨ (kind = .Simple ∧ change_type = .AddLearnerNode)) ∧
      !allow_remove_leader then
    throw .RemoveOrDemoteLeader

def check_change_peers (allow_remove_leader : Bool) (region : Region) (leader : Peer)
    (kind : ConfChangeKind) (current_voter : List UInt64) :
    List UInt64 → Bool → List ChangePeerRequest → Except ConfChangeError Bool
  | _, only_learner_change, [] => .ok only_learner_change
  | check_dup, only_learner_change, cp :: change_peers =>
    match check_change_peer allow_remove_leader region leader kind check_dup cp with
    | .error e => .error e
    | .ok () =>
      let touches_voter := cp.peer.id ∈ current_voter || cp.change_type = .AddNode
      check_change_peers allow_remove_leader region leader kind current_voter
        (cp.peer.id :: check_dup) (only_learner_change && !touches_voter) change_peers

def check_conf_change (allow_remove_leader ignore_safety : Bool) (region : Region) (leader : Peer)
    (change_peers : List ChangePeerRequest) (current_voter : List UInt64) :
    Except ConfChangeError Unit :=
  let kind := ConfChangeKind.confchange_kind change_peers.length
  if kind = .LeaveJoint then
    if ignore_safety || leader.role != .DemotingVoter then .ok ()
    else .error .LeaveJointDemotingLeader
  else
    match check_change_peers allow_remove_leader region leader kind current_voter [] true
        change_peers with
    | .error e => .error e
    | .ok only_learner_change =>
      if kind ≠ .Simple ∧ only_learner_change then .error .OnlyLearnerChange else .ok ()

end Util

/-! ### Raft's configurations -/

@[ext]
structure RaftConfig where
  voters : Set UInt64
  learners : Set UInt64
  voters_outgoing : Set UInt64
  learners_next : Set UInt64

def ConfState.toConfig (c : ConfState) : RaftConfig :=
  ⟨{x | x ∈ c.voters}, {x | x ∈ c.learners}, {x | x ∈ c.voters_outgoing}, {x | x ∈ c.learners_next}⟩

namespace RaftConfig

def make_voter (c : RaftConfig) (id : UInt64) : RaftConfig where
  voters := insert id c.voters
  learners := c.learners \ {id}
  voters_outgoing := c.voters_outgoing
  learners_next := c.learners_next \ {id}

def make_learner (c : RaftConfig) (id : UInt64) : RaftConfig where
  voters := c.voters \ {id}
  learners := (c.learners \ {id}) ∪ ({id} \ c.voters_outgoing)
  voters_outgoing := c.voters_outgoing
  learners_next := (c.learners_next \ {id}) ∪ ({id} ∩ c.voters_outgoing)

def remove (c : RaftConfig) (id : UInt64) : RaftConfig where
  voters := c.voters \ {id}
  learners := c.learners \ {id}
  voters_outgoing := c.voters_outgoing
  learners_next := c.learners_next \ {id}

def apply_change (c : RaftConfig) (cp : ChangePeerRequest) : RaftConfig :=
  match cp.change_type with
  | .AddNode => c.make_voter cp.peer.id
  | .AddLearnerNode => c.make_learner cp.peer.id
  | .RemoveNode => c.remove cp.peer.id

def enter_joint (c : RaftConfig) (changes : List ChangePeerRequest) : RaftConfig :=
  changes.foldl apply_change { c with voters_outgoing := c.voters }

def plain (c : RaftConfig) : RaftConfig := { c with voters_outgoing := ∅ }

def leave_joint (c : RaftConfig) : RaftConfig where
  voters := c.voters
  learners := c.learners ∪ c.learners_next
  voters_outgoing := ∅
  learners_next := ∅

def prescribed (c : RaftConfig) (changes : List ChangePeerRequest) : RaftConfig :=
  if ConfChangeKind.confchange_kind changes.length = .Simple then changes.foldl apply_change c
  else c.enter_joint changes

end RaftConfig

/-! ### The roles of a region's peers -/

def role_of (peers : List Peer) (id : UInt64) : Option PeerRole :=
  (peers.find? (·.id == id)).map (·.role)

def ids_with (peers : List Peer) (P : PeerRole → Bool) : List UInt64 :=
  (peers.filter (P ·.role)).map (·.id)

def PeerRole.is_joint (r : PeerRole) : Bool := r = .IncomingVoter || r = .DemotingVoter

section Peers

variable {peers : List Peer} {e q : Peer} {store_id : UInt64} {role : PeerRole}

theorem role_of_eq_some_iff (hids : (peers.map (·.id)).Nodup) {x : UInt64} {r : PeerRole} :
    role_of peers x = some r ↔ ∃ p ∈ peers, p.id = x ∧ p.role = r := by
  constructor
  · intro h
    obtain ⟨p, hp, rfl⟩ := Option.map_eq_some_iff.mp h
    exact ⟨p, List.mem_of_find?_eq_some hp, by simpa using List.find?_some hp, rfl⟩
  · rintro ⟨p, hp, rfl, rfl⟩
    obtain ⟨q, hq⟩ : ∃ q, peers.find? (·.id == p.id) = some q :=
      Option.isSome_iff_exists.mp (List.find?_isSome.mpr ⟨p, hp, by simp⟩)
    have hqid : q.id = p.id := by simpa using List.find?_some hq
    have hqp : q = p := List.inj_on_of_nodup_map hids (List.mem_of_find?_eq_some hq) hp hqid
    simp [role_of, hq, hqp]

theorem mem_ids_with (hids : (peers.map (·.id)).Nodup) (P : PeerRole → Bool) (x : UInt64) :
    x ∈ ids_with peers P ↔ ∃ r, role_of peers x = some r ∧ P r = true := by
  simp only [ids_with, List.mem_map, List.mem_filter, role_of_eq_some_iff hids]
  constructor
  · rintro ⟨p, ⟨hp, hP⟩, rfl⟩
    exact ⟨p.role, ⟨p, hp, rfl, rfl⟩, hP⟩
  · rintro ⟨r, ⟨p, hp, rfl, rfl⟩, hP⟩
    exact ⟨p, ⟨hp, hP⟩, rfl⟩

theorem role_of_append_fresh (hq : q.id ∉ peers.map (·.id)) :
    role_of (peers ++ [q]) = Function.update (role_of peers) q.id (some q.role) := by
  funext x
  by_cases hx : x = q.id
  · subst hx
    have hnone : peers.find? (·.id == q.id) = none :=
      List.find?_eq_none.mpr fun p hp h => hq (List.mem_map.mpr ⟨p, hp, by simpa using h⟩)
    simp [role_of, List.find?_append, hnone]
  · have hnone : [q].find? (·.id == x) = none := by simp [Ne.symm hx]
    simp [role_of, List.find?_append, hnone, hx]

theorem role_of_cons_self (p : Peer) (ps : List Peer) : role_of (p :: ps) p.id = some p.role := by
  simp [role_of]

theorem role_of_cons_of_ne {p : Peer} {x : UInt64} (ps : List Peer) (h : p.id ≠ x) :
    role_of (p :: ps) x = role_of ps x := by
  simp [role_of, h]

theorem update_cons_of_ne {p : Peer} {ps : List Peer} {y x : UInt64} {v : Option PeerRole}
    (hx : p.id ≠ x) :
    Function.update (role_of ps) y v x = Function.update (role_of (p :: ps)) y v x := by
  by_cases hxy : x = y
  · subst hxy
    simp
  · rw [Function.update_of_ne hxy, Function.update_of_ne hxy, role_of_cons_of_ne ps hx]

theorem role_of_set_peer_role (hids : (peers.map (·.id)).Nodup)
    (he : peers.find? (·.store_id == store_id) = some e) :
    role_of (TikvUtil.set_peer_role peers store_id role) =
      Function.update (role_of peers) e.id (some role) := by
  induction peers with
  | nil => simp at he
  | cons p ps ih =>
    funext x
    rw [List.map_cons, List.nodup_cons] at hids
    by_cases hp : p.store_id = store_id
    · have hpe : p = e := by simpa [hp] using he
      subst hpe
      rw [TikvUtil.set_peer_role, if_pos hp]
      by_cases hx : p.id = x
      · subst hx
        rw [role_of_cons_self, Function.update_self]
      · rw [@role_of_cons_of_ne { p with role } x ps hx, Function.update_of_ne (Ne.symm hx),
          role_of_cons_of_ne ps hx]
    · have he' : ps.find? (·.store_id == store_id) = some e := by simpa [hp] using he
      have hne : p.id ≠ e.id := fun h =>
        hids.1 (List.mem_map.mpr ⟨e, List.mem_of_find?_eq_some he', h.symm⟩)
      rw [TikvUtil.set_peer_role, if_neg hp]
      by_cases hx : p.id = x
      · subst hx
        rw [role_of_cons_self, Function.update_of_ne hne, role_of_cons_self]
      · rw [role_of_cons_of_ne _ hx, ih hids.2 he', update_cons_of_ne hx]

theorem role_of_eraseP (hids : (peers.map (·.id)).Nodup)
    (he : peers.find? (·.store_id == store_id) = some e) :
    role_of (peers.eraseP (·.store_id == store_id)) = Function.update (role_of peers) e.id none := by
  induction peers with
  | nil => simp at he
  | cons p ps ih =>
    funext x
    rw [List.map_cons, List.nodup_cons] at hids
    by_cases hp : p.store_id = store_id
    · have hpe : p = e := by simpa [hp] using he
      subst hpe
      rw [List.eraseP_cons_of_pos (by simpa using hp)]
      by_cases hx : p.id = x
      · subst hx
        have hnone : ps.find? (·.id == p.id) = none :=
          List.find?_eq_none.mpr fun q hq h => hids.1 (List.mem_map.mpr ⟨q, hq, by simpa using h⟩)
        simp [role_of, hnone]
      · rw [Function.update_of_ne (Ne.symm hx), role_of_cons_of_ne ps hx]
    · have he' : ps.find? (·.store_id == store_id) = some e := by simpa [hp] using he
      have hne : p.id ≠ e.id := fun h =>
        hids.1 (List.mem_map.mpr ⟨e, List.mem_of_find?_eq_some he', h.symm⟩)
      rw [List.eraseP_cons_of_neg (by simpa using hp)]
      by_cases hx : p.id = x
      · subst hx
        rw [role_of_cons_self, Function.update_of_ne hne, role_of_cons_self]
      · rw [role_of_cons_of_ne _ hx, ih hids.2 he', update_cons_of_ne hx]

theorem map_id_set_peer_role (peers : List Peer) (store_id : UInt64) (role : PeerRole) :
    (TikvUtil.set_peer_role peers store_id role).map (·.id) = peers.map (·.id) := by
  induction peers with
  | nil => rfl
  | cons p ps ih =>
    unfold TikvUtil.set_peer_role
    split <;> simp [ih]

theorem map_store_id_set_peer_role (peers : List Peer) (store_id : UInt64) (role : PeerRole) :
    (TikvUtil.set_peer_role peers store_id role).map (·.store_id) = peers.map (·.store_id) := by
  induction peers with
  | nil => rfl
  | cons p ps ih =>
    unfold TikvUtil.set_peer_role
    split <;> simp [ih]

theorem mem_set_peer_role {p : Peer} (hp : p ∈ TikvUtil.set_peer_role peers store_id role) :
    ∃ q ∈ peers, q.id = p.id ∧ q.store_id = p.store_id := by
  induction peers with
  | nil => simp [TikvUtil.set_peer_role] at hp
  | cons r rs ih =>
    unfold TikvUtil.set_peer_role at hp
    split at hp
    · rcases List.mem_cons.mp hp with rfl | hp
      · exact ⟨r, List.mem_cons_self, rfl, rfl⟩
      · exact ⟨p, List.mem_cons_of_mem _ hp, rfl, rfl⟩
    · rcases List.mem_cons.mp hp with rfl | hp
      · exact ⟨p, List.mem_cons_self, rfl, rfl⟩
      · obtain ⟨q, hq, h⟩ := ih hp
        exact ⟨q, List.mem_cons_of_mem _ hq, h⟩

end Peers

/-! ### The configuration of a region -/

/-- The configuration the roles stand for, with the outgoing voters of a joint one. -/
def config_of (f : UInt64 → Option PeerRole) : RaftConfig where
  voters := {x | f x = some .Voter ∨ f x = some .IncomingVoter}
  learners := {x | f x = some .Learner}
  voters_outgoing := {x | f x = some .Voter ∨ f x = some .DemotingVoter}
  learners_next := {x | f x = some .DemotingVoter}

theorem foldl_conf_state_push (peers : List Peer) (acc : ConfState × Bool) :
    peers.foldl Util.conf_state_push acc =
      (⟨acc.1.voters ++ ids_with peers (fun r => r = .Voter || r = .IncomingVoter),
        acc.1.learners ++ ids_with peers (· = .Learner),
        acc.1.voters_outgoing ++ ids_with peers (fun r => r = .Voter || r = .DemotingVoter),
        acc.1.learners_next ++ ids_with peers (· = .DemotingVoter)⟩,
        acc.2 || peers.any (·.role.is_joint)) := by
  induction peers generalizing acc with
  | nil => simp [ids_with]
  | cons p ps ih =>
    rw [List.foldl_cons, ih]
    obtain ⟨⟨v, l, o, n⟩, j⟩ := acc
    cases hr : p.role <;>
      simp [Util.conf_state_push, hr, ids_with, PeerRole.is_joint]

theorem exists_eq_some_and_or {α : Type} (o : Option α) (a b : α) :
    (∃ r, o = some r ∧ (r = a ∨ r = b)) ↔ o = some a ∨ o = some b := by
  constructor
  · rintro ⟨r, rfl, rfl | rfl⟩
    · exact Or.inl rfl
    · exact Or.inr rfl
  · rintro (h | h)
    · exact ⟨a, h, Or.inl rfl⟩
    · exact ⟨b, h, Or.inr rfl⟩

theorem toConfig_conf_state_from_region {region : Region} (hids : (region.peers.map (·.id)).Nodup) :
    (Util.conf_state_from_region region).toConfig =
      if region.peers.any (·.role.is_joint) then config_of (role_of region.peers)
      else { config_of (role_of region.peers) with voters_outgoing := ∅ } := by
  unfold Util.conf_state_from_region
  rw [foldl_conf_state_push]
  cases hj : region.peers.any (·.role.is_joint) <;>
    simp [ConfState.toConfig, config_of, mem_ids_with hids, exists_eq_some_and_or]

/-! ### One change -/

/-- What an accepted change does to the role of its peer's id; `none` where apply_conf_change
rejects it whatever else the request says. -/
def role_after (kind : ConfChangeKind) : ConfChangeType → Option PeerRole → Option (Option PeerRole)
  | .AddNode, none | .AddNode, some .Learner =>
    match kind with
    | .Simple => some (some .Voter)
    | .EnterJoint => some (some .IncomingVoter)
    | .LeaveJoint => none
  | .AddLearnerNode, none => some (some .Learner)
  | .AddLearnerNode, some .Voter =>
    match kind with
    | .Simple => some (some .Learner)
    | .EnterJoint => some (some .DemotingVoter)
    | .LeaveJoint => none
  | .RemoveNode, some .Learner => some none
  | .RemoveNode, some .Voter => if kind = .EnterJoint then none else some none
  | _, _ => none

def StoreMatch (peers : List Peer) (cp : ChangePeerRequest) : Prop :=
  ∀ p ∈ peers, p.id = cp.peer.id → p.store_id = cp.peer.store_id

instance (peers : List Peer) (cp : ChangePeerRequest) : Decidable (StoreMatch peers cp) :=
  inferInstanceAs (Decidable (∀ p ∈ peers, p.id = cp.peer.id → p.store_id = cp.peer.store_id))

/-- What apply_change keeps of the region: distinct ids and stores, and every peer comes from
one of the region or is the change's. -/
structure ChangeShape (region region' : Region) (cp : ChangePeerRequest) : Prop where
  ids_nodup : (region'.peers.map (·.id)).Nodup
  stores_nodup : (region'.peers.map (·.store_id)).Nodup
  origin : ∀ p ∈ region'.peers, (∃ q ∈ region.peers, q.id = p.id ∧ q.store_id = p.store_id) ∨
    (p.id = cp.peer.id ∧ p.store_id = cp.peer.store_id)
  epoch : region'.region_epoch = region.region_epoch

section OneChange

variable {region : Region} {cp : ChangePeerRequest}

theorem change_shape_push (hids : (region.peers.map (·.id)).Nodup)
    (hstores : (region.peers.map (·.store_id)).Nodup) (hmatch : StoreMatch region.peers cp)
    (hnone : region.peers.find? (·.store_id == cp.peer.store_id) = none) (role : PeerRole) :
    role_of region.peers cp.peer.id = none ∧
      role_of (region.peers ++ [{ cp.peer with role }]) =
        Function.update (role_of region.peers) cp.peer.id (some role) ∧
      ChangeShape region { region with peers := region.peers ++ [{ cp.peer with role }] } cp := by
  have hstore : cp.peer.store_id ∉ region.peers.map (·.store_id) := fun hm => by
    obtain ⟨p, hp, hps⟩ := List.mem_map.mp hm
    exact (List.find?_eq_none.mp hnone) p hp (by simpa using hps)
  have hid : cp.peer.id ∉ region.peers.map (·.id) := fun hm => by
    obtain ⟨p, hp, hpid⟩ := List.mem_map.mp hm
    exact hstore (List.mem_map.mpr ⟨p, hp, hmatch p hp hpid⟩)
  refine ⟨?_, role_of_append_fresh hid, ⟨?_, ?_, fun p hp => ?_, rfl⟩⟩
  · cases hr : role_of region.peers cp.peer.id with
    | none => rfl
    | some r =>
      obtain ⟨p, hp, hpid, -⟩ := (role_of_eq_some_iff hids).mp hr
      exact absurd (List.mem_map.mpr ⟨p, hp, hpid⟩) hid
  · simpa [List.nodup_append] using ⟨hids, fun a ha h => hid (h ▸ List.mem_map.mpr ⟨a, ha, rfl⟩)⟩
  · simpa [List.nodup_append] using
      ⟨hstores, fun a ha h => hstore (h ▸ List.mem_map.mpr ⟨a, ha, rfl⟩)⟩
  · rcases List.mem_append.mp hp with hp | hp
    · exact Or.inl ⟨p, hp, rfl, rfl⟩
    · obtain rfl := List.mem_singleton.mp hp
      exact Or.inr ⟨rfl, rfl⟩

theorem change_shape_set (hids : (region.peers.map (·.id)).Nodup)
    (hstores : (region.peers.map (·.store_id)).Nodup) {e : Peer} {store_id : UInt64}
    (he : region.peers.find? (·.store_id == store_id) = some e) (role : PeerRole) :
    role_of (TikvUtil.set_peer_role region.peers store_id role) =
        Function.update (role_of region.peers) e.id (some role) ∧
      ChangeShape region
        { region with peers := TikvUtil.set_peer_role region.peers store_id role } cp := by
  refine ⟨role_of_set_peer_role hids he, ⟨?_, ?_, fun p hp => Or.inl (mem_set_peer_role hp), rfl⟩⟩
  · rw [map_id_set_peer_role]
    exact hids
  · rw [map_store_id_set_peer_role]
    exact hstores

theorem change_shape_erase (hids : (region.peers.map (·.id)).Nodup)
    (hstores : (region.peers.map (·.store_id)).Nodup) {e : Peer} {store_id : UInt64}
    (he : region.peers.find? (·.store_id == store_id) = some e) :
    role_of (region.peers.eraseP (·.store_id == store_id)) =
        Function.update (role_of region.peers) e.id none ∧
      ChangeShape region { region with peers := region.peers.eraseP (·.store_id == store_id) } cp := by
  have hsub : (region.peers.eraseP (·.store_id == store_id)).Sublist region.peers :=
    List.eraseP_sublist
  refine ⟨role_of_eraseP hids he, ⟨(hsub.map _).nodup hids, (hsub.map _).nodup hstores,
    fun p hp => Or.inl ⟨p, hsub.subset hp, rfl, rfl⟩, rfl⟩⟩

theorem change_role_ok {region' : Region} {store_id : UInt64} {role : PeerRole}
    {change_type : ConfChangeType} {kind : ConfChangeKind}
    (h : ApplyDelegate.change_role region store_id role change_type kind = .ok region') :
    ∃ new_role, role_after kind change_type (some role) = some (some new_role) ∧
      region' = { region with peers := TikvUtil.set_peer_role region.peers store_id new_role } := by
  cases role <;> cases change_type <;> cases kind <;>
    simp [ApplyDelegate.change_role, role_after] at h ⊢ <;> exact h.symm

theorem ok_of_pair {α β ε : Type} {a b : α} {x y : β}
    (h : ((a, .ok x) : α × Except ε β) = (b, .ok y)) : x = y := by
  simp only [Prod.mk.injEq, Except.ok.injEq] at h
  exact h.2

theorem apply_change_ok {d d' : ApplyDelegate} {kind : ConfChangeKind} {region' : Region}
    (hids : (region.peers.map (·.id)).Nodup) (hstores : (region.peers.map (·.store_id)).Nodup)
    (hmatch : StoreMatch region.peers cp) (h : d.apply_change kind region cp = (d', .ok region')) :
    (∃ new, role_after kind cp.change_type (role_of region.peers cp.peer.id) = some new ∧
      role_of region'.peers = Function.update (role_of region.peers) cp.peer.id new) ∧
      ChangeShape region region' cp := by
  unfold ApplyDelegate.apply_change at h
  dsimp only at h
  split at h
  · simp at h
  rename_i hjoint
  -- the peer on the change's store, when there is one, is the change's peer and not joint
  have hexist : ∀ e, TikvUtil.find_peer region cp.peer.store_id = some e →
      e ∈ region.peers ∧ (e.id = cp.peer.id → role_of region.peers cp.peer.id = some e.role) ∧
      (e.role = .Voter ∨ e.role = .Learner) := by
    intro e he
    have hmem := List.mem_of_find?_eq_some he
    refine ⟨hmem, fun hid => (role_of_eq_some_iff hids).mpr ⟨e, hmem, hid, rfl⟩, ?_⟩
    rw [he] at hjoint
    cases hr : e.role <;> simp_all
  split at h
  case h_1 hnone hct =>
    have hpush := change_shape_push hids hstores hmatch hnone
    split at h
    · obtain rfl := ok_of_pair h
      obtain ⟨hrole, hr, hshape⟩ := hpush .Voter
      exact ⟨⟨_, by rw [hct, hrole]; rfl, hr⟩, hshape⟩
    · obtain rfl := ok_of_pair h
      obtain ⟨hrole, hr, hshape⟩ := hpush .IncomingVoter
      exact ⟨⟨_, by rw [hct, hrole]; rfl, hr⟩, hshape⟩
    · simp at h
  case h_2 hnone hct =>
    have hpush := change_shape_push hids hstores hmatch hnone
    obtain rfl := ok_of_pair h
    obtain ⟨hrole, hr, hshape⟩ := hpush .Learner
    exact ⟨⟨_, by rw [hct, hrole]; rfl, hr⟩, hshape⟩
  case h_3 => simp at h
  case h_4 e he hct =>
    obtain ⟨-, hrole, hplain⟩ := hexist e he
    split at h
    · simp at h
    rename_i hvoter
    simp only [TikvUtil.remove_peer, show region.peers.find? (·.store_id == cp.peer.store_id) = some e
      from he, Option.map_some] at h
    split at h
    · simp at h
    rename_i hpeer
    have hep : e = cp.peer := not_not.mp hpeer
    have hafter : role_after kind cp.change_type (role_of region.peers cp.peer.id) = some none := by
      rw [hct, hrole (congrArg Peer.id hep)]
      rcases hplain with hv | hl
      · rw [hv]
        have hk : kind ≠ .EnterJoint := fun hk => hvoter ⟨hk, hv⟩
        simp [role_after, hk]
      · rw [hl]
        rfl
    obtain ⟨hr, hshape⟩ := @change_shape_erase region cp hids hstores _ _ he
    rw [← hep]
    split at h <;>
      · obtain rfl := ok_of_pair h
        exact ⟨⟨none, hep ▸ hafter, hr⟩, hshape⟩
  case h_5 ct e he hct =>
    obtain ⟨-, hrole, -⟩ := hexist e he
    split at h
    · simp at h
    rename_i hdup
    have hid : e.id = cp.peer.id := by
      by_contra hne
      exact hdup (Or.inl hne)
    simp only [Prod.mk.injEq] at h
    obtain ⟨new_role, hafter, rfl⟩ := change_role_ok h.2
    obtain ⟨hr, hshape⟩ := @change_shape_set region cp hids hstores _ _ he new_role
    refine ⟨⟨_, ?_, hid ▸ hr⟩, hshape⟩
    rw [hrole hid]
    exact hafter

end OneChange

/-! ### What a change does to the configuration -/

section Correspondence

variable {f : UInt64 → Option PeerRole} {cp : ChangePeerRequest} {new : Option PeerRole}

theorem config_of_update_enter_joint (h : role_after .EnterJoint cp.change_type (f cp.peer.id) = some new) :
    config_of (Function.update f cp.peer.id new) = (config_of f).apply_change cp := by
  rcases hct : cp.change_type with _ | _ | _ <;>
    rcases hf : f cp.peer.id with _ | ⟨_ | _ | _ | _⟩ <;>
    simp only [role_after, hct, hf, reduceCtorEq, Option.some.injEq, if_true] at h <;>
    subst h <;>
    ext x <;> by_cases hx : x = cp.peer.id <;>
    simp [RaftConfig.apply_change, hct, config_of, RaftConfig.make_voter, RaftConfig.make_learner,
      RaftConfig.remove, Function.update, hx, hf, Set.mem_insert_iff, Set.mem_sdiff,
      Set.mem_singleton_iff, Set.mem_union]

theorem config_of_update_simple (hplain : ∀ x r, f x = some r → r = .Voter ∨ r = .Learner)
    (h : role_after .Simple cp.change_type (f cp.peer.id) = some new) :
    (∀ x r, Function.update f cp.peer.id new x = some r → r = .Voter ∨ r = .Learner) ∧
      (config_of (Function.update f cp.peer.id new)).plain = (config_of f).plain.apply_change cp := by
  have hnd : ∀ x, f x ≠ some .DemotingVoter := fun x hx => by simpa using hplain x _ hx
  have hni : ∀ x, f x ≠ some .IncomingVoter := fun x hx => by simpa using hplain x _ hx
  rcases hct : cp.change_type with _ | _ | _ <;>
    rcases hf : f cp.peer.id with _ | ⟨_ | _ | _ | _⟩ <;>
    simp only [role_after, hct, hf, reduceCtorEq, Option.some.injEq, if_false] at h <;>
    subst h <;>
    refine ⟨fun x r hr => ?_, ?_⟩ <;>
    (try by_cases hx : x = cp.peer.id) <;>
    (try simp [Function.update, hx] at hr) <;>
    (try exact hplain x r hr) <;>
    (try (subst hr; simp)) <;>
    (try (ext x <;> by_cases hx : x = cp.peer.id <;>
      simp [RaftConfig.apply_change, hct, config_of, RaftConfig.plain, RaftConfig.make_voter,
        RaftConfig.make_learner, RaftConfig.remove, Function.update, hx, hf, hnd, hni,
        Set.mem_insert_iff, Set.mem_sdiff, Set.mem_singleton_iff]))

end Correspondence

/-! ### The loop of apply_conf_change -/

theorem role_after_joint {kind : ConfChangeKind} {ct : ConfChangeType} {r : PeerRole}
    (hr : r.is_joint = true) : role_after kind ct (some r) = none := by
  cases r <;> simp [PeerRole.is_joint] at hr <;> cases ct <;> rfl

theorem role_after_enter_joint_touch {ct : ConfChangeType} {old new : Option PeerRole}
    (h : role_after .EnterJoint ct old = some new) (htouch : old = some .Voter ∨ ct = .AddNode) :
    ∃ r, new = some r ∧ r.is_joint = true := by
  rcases htouch with rfl | rfl
  · cases ct <;> simp [role_after] at h
    exact ⟨_, h.symm, rfl⟩
  · rcases old with _ | ⟨_ | _ | _ | _⟩ <;> simp [role_after] at h <;> exact ⟨_, h.symm, rfl⟩

def HasJoint (f : UInt64 → Option PeerRole) : Prop := ∃ x r, f x = some r ∧ r.is_joint = true

theorem hasJoint_update {f : UInt64 → Option PeerRole} {id : UInt64} {new : Option PeerRole}
    {kind : ConfChangeKind} {ct : ConfChangeType} (hf : HasJoint f)
    (h : role_after kind ct (f id) = some new) : HasJoint (Function.update f id new) := by
  obtain ⟨x, r, hx, hr⟩ := hf
  have hne : x ≠ id := by
    rintro rfl
    rw [hx, role_after_joint hr] at h
    exact absurd h (by simp)
  exact ⟨x, r, by rw [Function.update_of_ne hne, hx], hr⟩

theorem apply_conf_change_loop_enter_joint :
    ∀ (changes : List ChangePeerRequest) (d : ApplyDelegate) (region : Region) {d' : ApplyDelegate}
      {region' : Region},
      (region.peers.map (·.id)).Nodup → (region.peers.map (·.store_id)).Nodup →
      (∀ cp ∈ changes, StoreMatch region.peers cp) → (changes.map (·.peer.id)).Nodup →
      ApplyDelegate.apply_conf_change_loop .EnterJoint d region changes = (d', .ok region') →
      config_of (role_of region'.peers) =
          changes.foldl RaftConfig.apply_change (config_of (role_of region.peers)) ∧
        (region'.peers.map (·.id)).Nodup ∧ region'.region_epoch = region.region_epoch ∧
        (HasJoint (role_of region.peers) ∨
          (∃ cp ∈ changes, role_of region.peers cp.peer.id = some .Voter ∨ cp.change_type = .AddNode) →
          HasJoint (role_of region'.peers))
  | [], d, region, d', region', hids, _, _, _, h => by
    obtain rfl := ok_of_pair h
    refine ⟨rfl, hids, rfl, ?_⟩
    rintro (hj | ⟨cp, hcp, -⟩)
    · exact hj
    · simp at hcp
  | cp :: changes, d, region, d', region', hids, hstores, hmatch, hnodup, h => by
    rw [ApplyDelegate.apply_conf_change_loop] at h
    split at h
    case h_2 => simp at h
    rename_i d₁ region₁ h₁
    rw [List.map_cons, List.nodup_cons] at hnodup
    obtain ⟨⟨new, hafter, hrole⟩, hshape⟩ :=
      apply_change_ok hids hstores (hmatch cp List.mem_cons_self) h₁
    -- the peers the change adds carry its own id, which no later change names
    have hmatch₁ : ∀ c ∈ changes, StoreMatch region₁.peers c := by
      intro c hc p hp hpid
      rcases hshape.origin p hp with ⟨q, hq, hqid, hqs⟩ | ⟨hpid', -⟩
      · rw [← hqs]
        exact hmatch c (List.mem_cons_of_mem _ hc) q hq (hqid.trans hpid)
      · exact absurd (hpid' ▸ hpid ▸ List.mem_map_of_mem hc) hnodup.1
    obtain ⟨hconf, hids', hepoch, hjoint⟩ := apply_conf_change_loop_enter_joint changes d₁ region₁
      hshape.ids_nodup hshape.stores_nodup hmatch₁ hnodup.2 h
    refine ⟨?_, hids', hepoch.trans hshape.epoch, ?_⟩
    · rw [hconf, hrole, config_of_update_enter_joint hafter, List.foldl_cons]
    · rintro (hj | ⟨c, hc, htouch⟩)
      · exact hjoint (Or.inl (hrole ▸ hasJoint_update hj hafter))
      · rcases List.mem_cons.mp hc with rfl | hc
        · obtain ⟨r, hnew, hr⟩ := role_after_enter_joint_touch hafter htouch
          exact hjoint (Or.inl ⟨c.peer.id, r, by rw [hrole, Function.update_self, hnew], hr⟩)
        · have hne : c.peer.id ≠ cp.peer.id := fun he => hnodup.1 (he ▸ List.mem_map_of_mem hc)
          refine hjoint (Or.inr ⟨c, hc, ?_⟩)
          rwa [hrole, Function.update_of_ne hne]

/-! ### What check_conf_change guarantees -/

section Check

variable {allow_remove_leader : Bool} {region : Region} {leader : Peer} {kind : ConfChangeKind}
  {current_voter : List UInt64}

theorem check_change_peer_not_dup {check_dup : List UInt64} {cp : ChangePeerRequest}
    (h : Util.check_change_peer allow_remove_leader region leader kind check_dup cp = .ok ()) :
    cp.peer.id ∉ check_dup := by
  intro hdup
  unfold Util.check_change_peer at h
  cases hop : Util.check_op_match_role kind cp with
  | error e => simp [hop, bind, Except.bind] at h
  | ok u =>
    simp only [hop, bind, Except.bind] at h
    split at h
    · simp [throw, throwThe, MonadExceptOf.throw] at h
    · simp [throw, throwThe, MonadExceptOf.throw] at h

theorem check_change_peers_ok :
    ∀ (change_peers : List ChangePeerRequest) (check_dup : List UInt64)
      (only_learner_change : Bool) {b : Bool},
      Util.check_change_peers allow_remove_leader region leader kind current_voter check_dup
          only_learner_change change_peers = .ok b →
      (change_peers.map (·.peer.id)).Nodup ∧ (∀ cp ∈ change_peers, cp.peer.id ∉ check_dup) ∧
        (b = false → only_learner_change = false ∨
          ∃ cp ∈ change_peers, cp.peer.id ∈ current_voter ∨ cp.change_type = .AddNode)
  | [], _, _, b, h => by
    simp only [Util.check_change_peers, Except.ok.injEq] at h
    subst h
    exact ⟨List.nodup_nil, by simp, Or.inl⟩
  | cp :: change_peers, check_dup, only_learner_change, b, h => by
    rw [Util.check_change_peers] at h
    split at h
    · simp at h
    rename_i hcp
    obtain ⟨hnodup, hfresh, hflag⟩ := check_change_peers_ok change_peers _ _ h
    refine ⟨?_, ?_, fun hb => ?_⟩
    · exact List.nodup_cons.mpr ⟨fun hm => by
        obtain ⟨c, hc, hcid⟩ := List.mem_map.mp hm
        exact hfresh c hc (List.mem_cons.mpr (Or.inl hcid)), hnodup⟩
    · intro c hc
      rcases List.mem_cons.mp hc with rfl | hc
      · exact check_change_peer_not_dup hcp
      · exact fun hm => hfresh c hc (List.mem_cons_of_mem _ hm)
    · rcases hflag hb with hflag | ⟨c, hc, htouch⟩
      · cases only_learner_change
        · exact Or.inl rfl
        · refine Or.inr ⟨cp, List.mem_cons_self, ?_⟩
          by_cases hv : cp.peer.id ∈ current_voter
          · exact Or.inl hv
          · exact Or.inr (by simpa [hv] using hflag)
      · exact Or.inr ⟨c, List.mem_cons_of_mem _ hc, htouch⟩

theorem check_conf_change_ok {ignore_safety : Bool} {change_peers : List ChangePeerRequest}
    (hne : change_peers ≠ [])
    (h : Util.check_conf_change allow_remove_leader ignore_safety region leader change_peers
      current_voter = .ok ()) :
    (change_peers.map (·.peer.id)).Nodup ∧
      (ConfChangeKind.confchange_kind change_peers.length = .EnterJoint →
        ∃ cp ∈ change_peers, cp.peer.id ∈ current_voter ∨ cp.change_type = .AddNode) := by
  have hkind : ConfChangeKind.confchange_kind change_peers.length ≠ .LeaveJoint := by
    cases change_peers with
    | nil => exact absurd rfl hne
    | cons cp rest => cases rest <;> simp [ConfChangeKind.confchange_kind]
  unfold Util.check_conf_change at h
  dsimp only at h
  rw [if_neg hkind] at h
  split at h
  · simp at h
  rename_i b hloop
  obtain ⟨hnodup, -, hflag⟩ := check_change_peers_ok change_peers [] true hloop
  refine ⟨hnodup, fun hjoint => ?_⟩
  have hb : b = false := by
    cases b
    · rfl
    · simp [hjoint] at h
  simpa using hflag hb

end Check

/-! ### Leaving the joint configuration -/

def PeerRole.after_leave_joint : PeerRole → PeerRole
  | .IncomingVoter => .Voter
  | .DemotingVoter => .Learner
  | r => r

theorem leave_joint_role_eq (p : Peer) :
    ApplyDelegate.leave_joint_role p = { p with role := p.role.after_leave_joint } := by
  obtain ⟨id, store_id, role, is_witness⟩ := p
  cases role <;> rfl

theorem role_of_map_leave_joint_role (peers : List Peer) :
    role_of (peers.map ApplyDelegate.leave_joint_role) =
      fun x => (role_of peers x).map PeerRole.after_leave_joint := by
  funext x
  simp [role_of, List.find?_map, Function.comp_def, leave_joint_role_eq]

theorem config_of_after_leave_joint (f : UInt64 → Option PeerRole) :
    (config_of fun x => (f x).map PeerRole.after_leave_joint).plain = (config_of f).leave_joint := by
  ext x <;> rcases hf : f x with _ | ⟨_ | _ | _ | _⟩ <;>
    simp [config_of, RaftConfig.plain, RaftConfig.leave_joint, PeerRole.after_leave_joint, hf]

theorem apply_leave_joint_ok {d : ApplyDelegate} (hids : (d.region.peers.map (·.id)).Nodup)
    (hj : HasJoint (role_of d.region.peers)) :
    ∃ region'', d.apply_leave_joint = .ok region'' ∧
      (∀ p ∈ region''.peers, p.role = .Voter ∨ p.role = .Learner) ∧
      (Util.conf_state_from_region region'').toConfig = (config_of (role_of d.region.peers)).leave_joint ∧
      region''.region_epoch.conf_ver =
        d.region.region_epoch.conf_ver + (d.region.peers.countP (·.role.is_joint)).toUInt64 := by
  obtain ⟨x, r, hx, hr⟩ := hj
  obtain ⟨p, hp, -, rfl⟩ := (role_of_eq_some_iff hids).mp hx
  have hpos : d.region.peers.countP (·.role.is_joint) ≠ 0 :=
    Nat.pos_iff_ne_zero.mp (List.countP_pos_iff.mpr ⟨p, hp, hr⟩)
  let region'' := { d.region with peers := d.region.peers.map ApplyDelegate.leave_joint_role }
  have hplain : ∀ q ∈ region''.peers, q.role = .Voter ∨ q.role = .Learner := by
    intro q hq
    obtain ⟨q', -, rfl⟩ := List.mem_map.mp hq
    rw [leave_joint_role_eq]
    cases q'.role <;> simp [PeerRole.after_leave_joint]
  have hids'' : (region''.peers.map (·.id)).Nodup := by
    simpa [region'', Function.comp_def, leave_joint_role_eq] using hids
  have hnone : region''.peers.any (·.role.is_joint) = false := by
    rw [List.any_eq_false]
    intro q hq
    rcases hplain q hq with h | h <;> simp [h, PeerRole.is_joint]
  refine ⟨ApplyDelegate.with_conf_ver region''
    (region''.region_epoch.conf_ver + (d.region.peers.countP (·.role.is_joint)).toUInt64),
    ?_, hplain, ?_, rfl⟩
  · unfold ApplyDelegate.apply_leave_joint
    exact if_neg hpos
  · show (Util.conf_state_from_region region'').toConfig = _
    rw [toConfig_conf_state_from_region hids'', if_neg (by simp [hnone])]
    exact config_of_after_leave_joint _ ▸ congrArg RaftConfig.plain
      (congrArg config_of (role_of_map_leave_joint_role d.region.peers))

/-! ### Conf changes follow Raft -/

section Plain

variable {peers : List Peer}

def PlainRoles (f : UInt64 → Option PeerRole) : Prop := ∀ x r, f x = some r → r = .Voter ∨ r = .Learner

theorem plainRoles_role_of (hids : (peers.map (·.id)).Nodup)
    (hplain : ∀ p ∈ peers, p.role = .Voter ∨ p.role = .Learner) : PlainRoles (role_of peers) := by
  intro x r hx
  obtain ⟨p, hp, -, rfl⟩ := (role_of_eq_some_iff hids).mp hx
  exact hplain p hp

theorem plain_of_plainRoles (hids : (peers.map (·.id)).Nodup) (hplain : PlainRoles (role_of peers)) :
    ∀ p ∈ peers, p.role = .Voter ∨ p.role = .Learner :=
  fun p hp => hplain p.id p.role ((role_of_eq_some_iff hids).mpr ⟨p, hp, rfl, rfl⟩)

theorem any_is_joint_eq_false (hplain : ∀ p ∈ peers, p.role = .Voter ∨ p.role = .Learner) :
    peers.any (·.role.is_joint) = false := by
  rw [List.any_eq_false]
  intro p hp
  rcases hplain p hp with h | h <;> simp [h, PeerRole.is_joint]

theorem toConfig_conf_state_plain {region : Region} (hids : (region.peers.map (·.id)).Nodup)
    (hplain : ∀ p ∈ region.peers, p.role = .Voter ∨ p.role = .Learner) :
    (Util.conf_state_from_region region).toConfig = (config_of (role_of region.peers)).plain := by
  rw [toConfig_conf_state_from_region hids, if_neg (by simp [any_is_joint_eq_false hplain])]
  rfl

theorem mem_voters_conf_state_plain {region : Region} (hids : (region.peers.map (·.id)).Nodup)
    (hplain : ∀ p ∈ region.peers, p.role = .Voter ∨ p.role = .Learner) (x : UInt64) :
    x ∈ (Util.conf_state_from_region region).voters ↔ role_of region.peers x = some .Voter := by
  have h := congrArg (x ∈ RaftConfig.voters ·) (toConfig_conf_state_plain hids hplain)
  simp only [ConfState.toConfig, Set.mem_ofPred_eq, RaftConfig.plain, config_of] at h
  rw [h]
  constructor
  · rintro (h | h)
    · exact h
    · simpa using plainRoles_role_of hids hplain x _ h
  · exact Or.inl

theorem enter_joint_plain {f : UInt64 → Option PeerRole} (hplain : PlainRoles f)
    (changes : List ChangePeerRequest) :
    (config_of f).plain.enter_joint changes = changes.foldl RaftConfig.apply_change (config_of f) := by
  unfold RaftConfig.enter_joint
  congr 1
  ext x <;> simp only [RaftConfig.plain, config_of, Set.mem_ofPred_eq]
  constructor
  · rintro (h | h)
    · exact Or.inl h
    · simpa using hplain x _ h
  · rintro (h | h)
    · exact Or.inl h
    · simpa using hplain x _ h

end Plain

theorem conf_state_from_region_with_conf_ver (region : Region) (conf_ver : UInt64) :
    Util.conf_state_from_region (ApplyDelegate.with_conf_ver region conf_ver) =
      Util.conf_state_from_region region := rfl

/-- A region of distinct peers outside a joint configuration, and changes that pass the checks
of check_conf_change, name for each id already in the region the store of its peer and are
accepted by apply_conf_change: the region's configuration is then the one Raft prescribes for the
changes, the conf version grows by their number, and after a joint change apply_leave_joint
leaves a region outside a joint configuration, with the configuration Raft has when it leaves the
joint one. -/
theorem conf_change_follows_raft {d d' : ApplyDelegate} {leader : Peer}
    {allow_remove_leader ignore_safety : Bool} {changes : List ChangePeerRequest} {region' : Region}
    (hids : (d.region.peers.map (·.id)).Nodup) (hstores : (d.region.peers.map (·.store_id)).Nodup)
    (hplain : ∀ p ∈ d.region.peers, p.role = .Voter ∨ p.role = .Learner) (hne : changes ≠ [])
    (hcheck : Util.check_conf_change allow_remove_leader ignore_safety d.region leader changes
      (Util.conf_state_from_region d.region).voters = .ok ())
    (hmatch : ∀ cp ∈ changes, StoreMatch d.region.peers cp)
    (happly : d.apply_conf_change (ConfChangeKind.confchange_kind changes.length) changes =
      (d', .ok region')) :
    (Util.conf_state_from_region region').toConfig =
        (Util.conf_state_from_region d.region).toConfig.prescribed changes ∧
      region'.region_epoch.conf_ver = d.region.region_epoch.conf_ver + changes.length.toUInt64 ∧
      (2 ≤ changes.length → ∃ region'', { d' with region := region' }.apply_leave_joint = .ok region'' ∧
        (∀ p ∈ region''.peers, p.role = .Voter ∨ p.role = .Learner) ∧
        (Util.conf_state_from_region region'').toConfig =
          ((Util.conf_state_from_region d.region).toConfig.prescribed changes).leave_joint ∧
        region''.region_epoch.conf_ver =
          region'.region_epoch.conf_ver + (region'.peers.countP (·.role.is_joint)).toUInt64) := by
  obtain ⟨hnodup, htouch⟩ := check_conf_change_ok hne hcheck
  have hstart := toConfig_conf_state_plain hids hplain
  unfold ApplyDelegate.apply_conf_change at happly
  split at happly
  case h_2 => simp at happly
  rename_i d₁ region₁ hloop
  obtain rfl := ok_of_pair happly
  rw [conf_state_from_region_with_conf_ver]
  obtain ⟨cp, rest, rfl⟩ := List.exists_cons_of_ne_nil hne
  cases rest with
  | nil =>
    -- one change: applied at once, and the region stays outside a joint configuration
    rw [ApplyDelegate.apply_conf_change_loop] at hloop
    split at hloop
    case h_2 => simp at hloop
    rename_i d₂ region₂ hchange
    simp only [ApplyDelegate.apply_conf_change_loop, Prod.mk.injEq, Except.ok.injEq] at hloop
    obtain ⟨-, rfl⟩ := hloop
    obtain ⟨⟨new, hafter, hrole⟩, hshape⟩ :=
      apply_change_ok hids hstores (hmatch cp List.mem_cons_self) hchange
    obtain ⟨hplain', hconf⟩ := config_of_update_simple (plainRoles_role_of hids hplain) hafter
    have hplain₂ := plain_of_plainRoles hshape.ids_nodup (hrole ▸ hplain')
    refine ⟨?_, by rw [hshape.epoch]; rfl, fun h => absurd h (by simp)⟩
    rw [toConfig_conf_state_plain hshape.ids_nodup hplain₂, hstart, hrole, hconf]
    rfl
  | cons cp₂ rest =>
    -- two or more: a joint configuration, which some change that touches a voter enters
    have hkind : ConfChangeKind.confchange_kind (cp :: cp₂ :: rest).length = .EnterJoint := rfl
    rw [hkind] at hloop
    obtain ⟨hconf, hids₁, hepoch, hjoint⟩ := apply_conf_change_loop_enter_joint _ d d.region
      hids hstores hmatch hnodup hloop
    have hj : HasJoint (role_of region₁.peers) := by
      obtain ⟨c, hc, hv⟩ := htouch hkind
      refine hjoint (Or.inr ⟨c, hc, ?_⟩)
      rwa [← mem_voters_conf_state_plain hids hplain]
    have hprescribed : (Util.conf_state_from_region d.region).toConfig.prescribed (cp :: cp₂ :: rest) =
        config_of (role_of region₁.peers) := by
      rw [RaftConfig.prescribed, if_neg (by rw [hkind]; simp), hstart,
        enter_joint_plain (plainRoles_role_of hids hplain), hconf]
    have hjoint₁ : region₁.peers.any (·.role.is_joint) = true := by
      obtain ⟨x, r, hx, hr⟩ := hj
      obtain ⟨p, hp, -, rfl⟩ := (role_of_eq_some_iff hids₁).mp hx
      exact List.any_eq_true.mpr ⟨p, hp, hr⟩
    refine ⟨?_, by rw [hepoch]; rfl, fun _ => ?_⟩
    · rw [toConfig_conf_state_from_region hids₁, if_pos hjoint₁, hprescribed]
    · obtain ⟨region'', hleave, hplain'', hconf'', hver⟩ :=
        @apply_leave_joint_ok (ApplyDelegate.mk d'.id (ApplyDelegate.with_conf_ver region₁
          (region₁.region_epoch.conf_ver + (cp :: cp₂ :: rest).length.toUInt64)) d'.stopped
          d'.pending_remove) hids₁ hj
      exact ⟨region'', hleave, hplain'', hprescribed ▸ hconf'', hver⟩

def voter_and_learner : Region :=
  ⟨1, [], [], ⟨1, 1⟩, [⟨1, 1, .Voter, false⟩, ⟨2, 2, .Learner, false⟩], false, 0⟩

def promote_and_add : List ChangePeerRequest :=
  [⟨.AddNode, ⟨2, 2, .Voter, false⟩⟩, ⟨.AddNode, ⟨3, 3, .Voter, false⟩⟩]

def promoted_joint : Region :=
  ⟨1, [], [], ⟨3, 1⟩, [⟨1, 1, .Voter, false⟩, ⟨2, 2, .IncomingVoter, false⟩,
    ⟨3, 3, .IncomingVoter, false⟩], false, 0⟩

theorem conf_change_follows_raft_promote_and_add :
    (voter_and_learner.peers.map (·.id)).Nodup ∧ (voter_and_learner.peers.map (·.store_id)).Nodup ∧
      (∀ p ∈ voter_and_learner.peers, p.role = .Voter ∨ p.role = .Learner) ∧
      promote_and_add ≠ [] ∧
      Util.check_conf_change false false voter_and_learner ⟨1, 1, .Voter, false⟩ promote_and_add
        (Util.conf_state_from_region voter_and_learner).voters = .ok () ∧
      (∀ cp ∈ promote_and_add, StoreMatch voter_and_learner.peers cp) ∧
      (ApplyDelegate.mk 1 voter_and_learner false false).apply_conf_change
          (ConfChangeKind.confchange_kind promote_and_add.length) promote_and_add =
        (ApplyDelegate.mk 1 voter_and_learner false false, .ok promoted_joint) ∧
      ((Util.conf_state_from_region promoted_joint).toConfig =
          (Util.conf_state_from_region voter_and_learner).toConfig.prescribed promote_and_add ∧
        promoted_joint.region_epoch.conf_ver =
          voter_and_learner.region_epoch.conf_ver + promote_and_add.length.toUInt64 ∧
        (2 ≤ promote_and_add.length → ∃ region'',
          { ApplyDelegate.mk 1 voter_and_learner false false with
              region := promoted_joint }.apply_leave_joint = .ok region'' ∧
          (∀ p ∈ region''.peers, p.role = .Voter ∨ p.role = .Learner) ∧
          (Util.conf_state_from_region region'').toConfig =
            ((Util.conf_state_from_region voter_and_learner).toConfig.prescribed
              promote_and_add).leave_joint ∧
          region''.region_epoch.conf_ver = promoted_joint.region_epoch.conf_ver +
            (promoted_joint.peers.countP (·.role.is_joint)).toUInt64)) := by
  have hids : (voter_and_learner.peers.map (·.id)).Nodup := by decide
  have hstores : (voter_and_learner.peers.map (·.store_id)).Nodup := by decide
  have hplain : ∀ p ∈ voter_and_learner.peers, p.role = .Voter ∨ p.role = .Learner := by decide
  have hne : promote_and_add ≠ [] := by simp [promote_and_add]
  have hcheck : Util.check_conf_change false false voter_and_learner ⟨1, 1, .Voter, false⟩
      promote_and_add (Util.conf_state_from_region voter_and_learner).voters = .ok () := by decide
  have hmatch : ∀ cp ∈ promote_and_add, StoreMatch voter_and_learner.peers cp := by decide
  have happly : (ApplyDelegate.mk 1 voter_and_learner false false).apply_conf_change
      (ConfChangeKind.confchange_kind promote_and_add.length) promote_and_add =
      (ApplyDelegate.mk 1 voter_and_learner false false, .ok promoted_joint) := by decide
  exact ⟨hids, hstores, hplain, hne, hcheck, hmatch, happly,
    @conf_change_follows_raft (ApplyDelegate.mk 1 voter_and_learner false false)
      (ApplyDelegate.mk 1 voter_and_learner false false) ⟨1, 1, .Voter, false⟩ false false
      promote_and_add promoted_joint hids hstores hplain hne hcheck hmatch happly⟩

def add_on_other_store : List ChangePeerRequest := [⟨.AddNode, ⟨2, 3, .Voter, false⟩⟩]

/-- Without the store condition: a voter added with a learner's id on an empty store passes the
checks and is accepted, and the region then has the id both as a voter and as a learner, where
Raft promotes the learner. -/
theorem conf_change_on_another_store_diverges :
    (voter_and_learner.peers.map (·.id)).Nodup ∧ (voter_and_learner.peers.map (·.store_id)).Nodup ∧
      (∀ p ∈ voter_and_learner.peers, p.role = .Voter ∨ p.role = .Learner) ∧
      Util.check_conf_change false false voter_and_learner ⟨1, 1, .Voter, false⟩ add_on_other_store
        (Util.conf_state_from_region voter_and_learner).voters = .ok () ∧
      (ApplyDelegate.mk 1 voter_and_learner false false).apply_conf_change
          (ConfChangeKind.confchange_kind add_on_other_store.length) add_on_other_store =
        (ApplyDelegate.mk 1 voter_and_learner false false, .ok (⟨1, [], [], ⟨2, 1⟩,
          [⟨1, 1, .Voter, false⟩, ⟨2, 2, .Learner, false⟩, ⟨2, 3, .Voter, false⟩], false, 0⟩ : Region)) ∧
      (Util.conf_state_from_region (⟨1, [], [], ⟨2, 1⟩,
          [⟨1, 1, .Voter, false⟩, ⟨2, 2, .Learner, false⟩, ⟨2, 3, .Voter, false⟩], false, 0⟩ :
            Region)).toConfig ≠
        (Util.conf_state_from_region voter_and_learner).toConfig.prescribed add_on_other_store := by
  refine ⟨by decide, by decide, by decide, by decide, by decide, fun h => ?_⟩
  have hafter : Util.conf_state_from_region (⟨1, [], [], ⟨2, 1⟩,
      [⟨1, 1, .Voter, false⟩, ⟨2, 2, .Learner, false⟩, ⟨2, 3, .Voter, false⟩], false, 0⟩ : Region) =
      ⟨[1, 2], [2], [], []⟩ := by decide
  have hbefore : Util.conf_state_from_region voter_and_learner = ⟨[1], [2], [], []⟩ := by decide
  have hlearner := congrArg (fun c => (2 : UInt64) ∈ c.learners) h
  simp [hafter, hbefore, add_on_other_store, ConfState.toConfig, RaftConfig.prescribed,
    ConfChangeKind.confchange_kind, RaftConfig.apply_change, RaftConfig.make_voter] at hlearner

end Tikv.Raftstore
