import Tikv.Lib.Cuts

/-!
Batch split as raftstore's apply runs it. validate_batch_split checks that the split keys
rise strictly inside the region and that every request names a new id for each peer;
exec_batch_split then cuts the region at the keys into the derived region, which keeps the
region's id, and one new region for each request, built from the derived region's epoch and
peers. Keys are byte strings in their lexicographic order, an empty end key being no bound.
The regions partition the parent's range: that is `exec_batch_split_partitions`.
-/

namespace Tikv.Raftstore

open Tikv.Lib.Cuts

inductive PeerRole
  | Voter
  | Learner
  | IncomingVoter
  | DemotingVoter
  deriving Repr, DecidableEq

structure Peer where
  id : UInt64
  store_id : UInt64
  role : PeerRole
  is_witness : Bool
  deriving Repr, DecidableEq

structure RegionEpoch where
  conf_ver : UInt64
  version : UInt64
  deriving Repr, DecidableEq

structure Region where
  id : UInt64
  start_key : List UInt8
  end_key : List UInt8
  region_epoch : RegionEpoch
  peers : List Peer
  is_in_flashback : Bool
  flashback_start_ts : UInt64
  deriving Repr, DecidableEq

structure SplitRequest where
  split_key : List UInt8
  new_region_id : UInt64
  new_peer_ids : List UInt64
  deriving Repr, DecidableEq

/-- The splits of an admin request; share_source_region_size only goes to the apply result. -/
structure BatchSplitRequest where
  requests : List SplitRequest
  right_derive : Bool
  deriving Repr, DecidableEq

/-- raftstore's errors as batch split raises them, and a panic of the source. -/
inductive Error
  /-- box_err! with a plain message. -/
  | Other (msg : String)
  /-- box_err!("invalid split request: {:?}", split_reqs). -/
  | InvalidSplitRequest (split_reqs : List SplitRequest)
  /-- box_err!("invalid new peer id count, need {:?}, but got {:?}", peers, new_peer_ids). -/
  | InvalidNewPeerIdCount (need : List Peer) (got : List UInt64)
  | KeyNotInRegion (key : List UInt8) (region : Region)
  | Panic
  deriving Repr, DecidableEq

namespace TikvUtil

def check_key_in_region_exclusive (key : List UInt8) (region : Region) : Bool :=
  decide (region.start_key < key) && (decide (key < region.end_key) || region.end_key.isEmpty)

def check_key_in_region (key : List UInt8) (region : Region) : Bool :=
  decide (key ≥ region.start_key) && (region.end_key.isEmpty || decide (key < region.end_key))

def find_peer (region : Region) (store_id : UInt64) : Option Peer :=
  region.peers.find? (·.store_id == store_id)

end TikvUtil

namespace Util

def check_key_in_region_exclusive (key : List UInt8) (region : Region) : Except Error Unit :=
  if TikvUtil.check_key_in_region_exclusive key region then .ok ()
  else .error (.KeyNotInRegion key region)

end Util

def validate_batch_split_loop (region : Region) (split_reqs : List SplitRequest) :
    List SplitRequest → List UInt8 → Except Error (List UInt8)
  | [], last_key => .ok last_key
  | req :: reqs, last_key =>
    if req.split_key.isEmpty then .error (.Other "missing split key")
    else if req.split_key ≤ last_key then .error (.InvalidSplitRequest split_reqs)
    else if req.new_peer_ids.length ≠ region.peers.length then
      .error (.InvalidNewPeerIdCount region.peers req.new_peer_ids)
    else validate_batch_split_loop region split_reqs reqs req.split_key

def validate_batch_split (req : BatchSplitRequest) (region : Region) : Except Error Unit := do
  if req.requests.isEmpty then
    throw (.Other "missing split requests")
  let last_key ← validate_batch_split_loop region req.requests req.requests region.start_key
  Util.check_key_in_region_exclusive last_key region

/-- VecDeque::pop_front().unwrap() on the split keys. -/
def pop_front {α : Type} : List α → Except Error (α × List α)
  | x :: xs => .ok (x, xs)
  | [] => .error .Panic

/-- VecDeque::front().unwrap() on the split keys. -/
def front {α : Type} : List α → Except Error α
  | x :: _ => .ok x
  | [] => .error .Panic

def set_peer_ids : List Peer → List UInt64 → List Peer
  | p :: ps, id :: ids => { p with id } :: set_peer_ids ps ids
  | ps, _ => ps

def new_split_region (derived : Region) (req : SplitRequest) (start_key end_key : List UInt8) :
    Region :=
  { id := req.new_region_id, start_key, end_key, region_epoch := derived.region_epoch,
    peers := set_peer_ids derived.peers req.new_peer_ids, is_in_flashback := false,
    flashback_start_ts := 0 }

def exec_batch_split_loop (store_id : UInt64) (derived : Region) :
    List SplitRequest → List (List UInt8) → Except Error (List Region × List (List UInt8))
  | [], keys => .ok ([], keys)
  | req :: reqs, keys => do
    let (start_key, keys) ← pop_front keys
    let end_key ← front keys
    let new_region := new_split_region derived req start_key end_key
    -- find_peer(&new_region, ctx.store_id).unwrap()
    if (TikvUtil.find_peer new_region store_id).isNone then throw .Panic
    let (regions, keys) ← exec_batch_split_loop store_id derived reqs keys
    pure (new_region :: regions, keys)

def exec_batch_split (store_id : UInt64) (region : Region) (req : BatchSplitRequest) :
    Except Error (List Region) := do
  validate_batch_split req region
  let keys := req.requests.map (·.split_key)
  let new_version := region.region_epoch.version + UInt64.ofNat req.requests.length
  let derived := { region with region_epoch := { region.region_epoch with version := new_version } }
  if req.right_derive then
    let (regions, keys) ←
      exec_batch_split_loop store_id derived req.requests (derived.start_key :: keys)
    let (start_key, _) ← pop_front keys
    pure (regions ++ [{ derived with start_key }])
  else
    let keys := keys ++ [derived.end_key]
    let derived := { derived with end_key := ← front keys }
    let (regions, _) ← exec_batch_split_loop store_id derived req.requests keys
    pure (derived :: regions)

/-! ### Validation -/

def end_bound (end_key : List UInt8) : Option (List UInt8) :=
  if end_key.isEmpty then none else some end_key

theorem check_key_in_region_iff (key : List UInt8) (region : Region) :
    TikvUtil.check_key_in_region key region = true ↔
      InRange region.start_key (end_bound region.end_key) key := by
  unfold TikvUtil.check_key_in_region InRange end_bound
  cases region.end_key with
  | nil => simp
  | cons b bs => simp

theorem lt_of_check_key_in_region_exclusive {key : List UInt8} {region : Region}
    (h : TikvUtil.check_key_in_region_exclusive key region = true) :
    ∀ e ∈ end_bound region.end_key, key < e := by
  unfold TikvUtil.check_key_in_region_exclusive at h
  unfold end_bound
  cases he : region.end_key with
  | nil => simp
  | cons b bs => simp_all

theorem validate_batch_split_loop_ok {region : Region} {split_reqs : List SplitRequest}
    {reqs : List SplitRequest} {last_key k : List UInt8}
    (h : validate_batch_split_loop region split_reqs reqs last_key = .ok k) :
    List.IsChain (· < ·) (last_key :: reqs.map (·.split_key)) ∧
      k = (reqs.map (·.split_key)).getLastD last_key ∧
      ∀ q ∈ reqs, q.new_peer_ids.length = region.peers.length := by
  induction reqs generalizing last_key with
  | nil =>
    simp only [validate_batch_split_loop, Except.ok.injEq] at h
    exact ⟨List.IsChain.singleton _, h.symm, by simp⟩
  | cons q qs ih =>
    simp only [validate_batch_split_loop] at h
    split_ifs at h with h1 h2 h3
    obtain ⟨hc, hk, hn⟩ := ih h
    refine ⟨List.isChain_cons_cons.mpr ⟨List.not_le.mp h2, hc⟩, ?_, ?_⟩
    · rw [hk, List.map_cons, List.getLastD_cons]
    · simp only [List.mem_cons, forall_eq_or_imp]
      exact ⟨by simpa using h3, hn⟩

theorem validate_batch_split_ok {req : BatchSplitRequest} {region : Region}
    (h : validate_batch_split req region = .ok ()) :
    req.requests ≠ [] ∧ List.IsChain (· < ·) (region.start_key :: req.requests.map (·.split_key)) ∧
      (∀ e ∈ end_bound region.end_key,
        (req.requests.map (·.split_key)).getLastD region.start_key < e) ∧
      ∀ q ∈ req.requests, q.new_peer_ids.length = region.peers.length := by
  simp only [validate_batch_split, bind, Except.bind] at h
  -- the empty request list has thrown already
  split_ifs at h with hE
  match hl : validate_batch_split_loop region req.requests req.requests region.start_key, h with
  | .ok k, h =>
    obtain ⟨hc, rfl, hn⟩ := validate_batch_split_loop_ok hl
    simp only [Util.check_key_in_region_exclusive] at h
    split_ifs at h with hx
    exact ⟨by simpa using hE, hc, lt_of_check_key_in_region_exclusive hx, hn⟩


/-! ### The regions of the split -/

theorem map_set_peer_ids {β : Type} (f : Peer → β) (hf : ∀ p id, f { p with id } = f p)
    (ps : List Peer) (ids : List UInt64) : (set_peer_ids ps ids).map f = ps.map f := by
  induction ps generalizing ids with
  | nil => cases ids <;> rfl
  | cons p ps ih =>
    cases ids with
    | nil => rfl
    | cons id ids => simp [set_peer_ids, hf, ih]

theorem map_id_set_peer_ids {ps : List Peer} {ids : List UInt64} (h : ids.length = ps.length) :
    (set_peer_ids ps ids).map (·.id) = ids := by
  induction ps generalizing ids with
  | nil => cases ids <;> simp_all [set_peer_ids]
  | cons p ps ih =>
    cases ids with
    | nil => simp at h
    | cons id ids => simp [set_peer_ids, ih (by simpa using h)]

theorem find_peer_new_split_region_isSome {derived : Region} {store_id : UInt64}
    (hs : ∃ p ∈ derived.peers, p.store_id = store_id) (req : SplitRequest)
    (start_key end_key : List UInt8) :
    (TikvUtil.find_peer (new_split_region derived req start_key end_key) store_id).isSome := by
  obtain ⟨p, hp, rfl⟩ := hs
  have hstores := map_set_peer_ids (·.store_id) (fun _ _ => rfl) derived.peers req.new_peer_ids
  obtain ⟨p', hp', hps⟩ : ∃ p' ∈ set_peer_ids derived.peers req.new_peer_ids,
      p'.store_id = p.store_id := by
    rw [← List.mem_map, hstores]
    exact List.mem_map_of_mem hp
  rw [TikvUtil.find_peer, List.find?_isSome]
  exact ⟨p', hp', by simp [hps]⟩

theorem exec_batch_split_loop_eq {store_id : UInt64} {derived : Region}
    (hs : ∃ p ∈ derived.peers, p.store_id = store_id) (reqs : List SplitRequest)
    (k : List UInt8) (ks : List (List UInt8)) (hl : ks.length = reqs.length) :
    exec_batch_split_loop store_id derived reqs (k :: ks) =
      .ok ((reqs.zip ((k :: ks).zip ks)).map (fun p => new_split_region derived p.1 p.2.1 p.2.2),
        [ks.getLastD k]) := by
  induction reqs generalizing k ks with
  | nil =>
    obtain rfl : ks = [] := List.eq_nil_of_length_eq_zero hl
    rfl
  | cons q qs ih =>
    obtain ⟨k', ks', rfl⟩ := List.exists_cons_of_length_eq_add_one hl
    have hf := find_peer_new_split_region_isSome hs q k k'
    simp only [exec_batch_split_loop, pop_front, front, bind, Except.bind, ih k' ks' (by simpa using hl),
      List.getLastD_cons]
    simp [Option.isSome_iff_ne_none.mp hf, pure, Except.pure]

section Regions

variable {derived : Region} {reqs : List SplitRequest} {bounds : List (List UInt8 × List UInt8)}

theorem map_bounds_new_split_regions (h : bounds.length ≤ reqs.length) :
    ((reqs.zip bounds).map fun p => new_split_region derived p.1 p.2.1 p.2.2).map
      (fun r => (r.start_key, r.end_key)) = bounds := by
  rw [List.map_map]
  exact List.map_snd_zip h

theorem map_id_new_split_regions (h : reqs.length ≤ bounds.length) :
    ((reqs.zip bounds).map fun p => new_split_region derived p.1 p.2.1 p.2.2).map (·.id) =
      reqs.map (·.new_region_id) := by
  conv_rhs => rw [← List.map_fst_zip h]
  rw [List.map_map, List.map_map]
  rfl

theorem map_peer_ids_new_split_regions (h : reqs.length ≤ bounds.length)
    (hn : ∀ q ∈ reqs, q.new_peer_ids.length = derived.peers.length) :
    ((reqs.zip bounds).map fun p => new_split_region derived p.1 p.2.1 p.2.2).map
      (fun r => r.peers.map (·.id)) = reqs.map (·.new_peer_ids) := by
  conv_rhs => rw [← List.map_fst_zip h]
  rw [List.map_map, List.map_map]
  apply List.map_congr_left
  intro p hp
  exact map_id_set_peer_ids (hn p.1 (List.of_mem_zip hp).1)

theorem map_stores_new_split_regions :
    ∀ r ∈ (reqs.zip bounds).map (fun p => new_split_region derived p.1 p.2.1 p.2.2),
      r.peers.map (fun p => (p.store_id, p.role)) = derived.peers.map (fun p => (p.store_id, p.role)) := by
  intro r hr
  obtain ⟨p, -, rfl⟩ := List.mem_map.mp hr
  exact map_set_peer_ids _ (fun _ _ => rfl) _ _

theorem region_epoch_new_split_regions :
    ∀ r ∈ (reqs.zip bounds).map (fun p => new_split_region derived p.1 p.2.1 p.2.2),
      r.region_epoch = derived.region_epoch := by
  intro r hr
  obtain ⟨p, -, rfl⟩ := List.mem_map.mp hr
  rfl

end Regions

/-! ### The partition -/

theorem end_bound_of_lt {lo k : List UInt8} (h : lo < k) : end_bound k = some k := by
  cases k with
  | nil => exact absurd h (List.not_lt_nil lo)
  | cons b bs => rfl

theorem map_end_bound_zip {lo e : List UInt8} {keys : List (List UInt8)}
    (hc : List.IsChain (· < ·) (lo :: keys)) :
    ((lo :: keys).zip (keys ++ [e])).map (fun p => (p.1, end_bound p.2)) =
      pieces lo keys (end_bound e) := by
  induction keys generalizing lo with
  | nil => rfl
  | cons c cs ih =>
    rw [List.isChain_cons_cons] at hc
    simp only [List.cons_append, List.zip_cons_cons, List.map_cons, pieces, end_bound_of_lt hc.1]
    rw [ih hc.2]

theorem partition_of_bounds {region : Region} {keys : List (List UInt8)} {regions : List Region}
    (hc : List.IsChain (· < ·) (region.start_key :: keys))
    (hh : ∀ e ∈ end_bound region.end_key, keys.getLastD region.start_key < e)
    (hb : regions.map (fun r => (r.start_key, r.end_key)) =
      (region.start_key :: keys).zip (keys ++ [region.end_key])) :
    (∀ r ∈ regions, r.start_key < r.end_key ∨ r.end_key = []) ∧
    regions.Pairwise (fun a b => ∀ key, ¬ (TikvUtil.check_key_in_region key a = true ∧
      TikvUtil.check_key_in_region key b = true)) ∧
    ∀ key, TikvUtil.check_key_in_region key region = true ↔
      ∃ r ∈ regions, TikvUtil.check_key_in_region key r = true := by
  have hp : regions.map (fun r => (r.start_key, end_bound r.end_key)) =
      pieces region.start_key keys (end_bound region.end_key) := by
    rw [← map_end_bound_zip hc, ← hb, List.map_map]
    rfl
  refine ⟨fun r hr => ?_, ?_, fun key => ?_⟩
  · have hlt := lt_of_mem_pieces hc hh (hp ▸ List.mem_map_of_mem hr)
    by_cases he : r.end_key = []
    · exact Or.inr he
    · exact Or.inl (hlt r.end_key (by simp [end_bound, he]))
  · have hd := pairwise_disjoint_pieces (end_bound region.end_key) hc
    rw [← hp, List.pairwise_map] at hd
    refine hd.imp fun hab key ⟨ha, hb⟩ => hab key ⟨?_, ?_⟩
    · exact (check_key_in_region_iff key _).mp ha
    · exact (check_key_in_region_iff key _).mp hb
  · rw [check_key_in_region_iff, inRange_iff_exists_mem_pieces hc hh, ← hp]
    constructor
    · rintro ⟨p, hmem, hk⟩
      obtain ⟨r, hr, rfl⟩ := List.mem_map.mp hmem
      exact ⟨r, hr, (check_key_in_region_iff key r).mpr hk⟩
    · rintro ⟨r, hr, hk⟩
      exact ⟨_, List.mem_map_of_mem hr, (check_key_in_region_iff key r).mp hk⟩

theorem zip_cons_append_singleton {α : Type} (lo e : α) (cs : List α) :
    (lo :: cs).zip (cs ++ [e]) = (lo :: cs).zip cs ++ [(cs.getLastD lo, e)] := by
  induction cs generalizing lo with
  | nil => rfl
  | cons c cs ih =>
    rw [List.cons_append, List.zip_cons_cons, ih, List.getLastD_cons]
    rfl

theorem length_eq_of_bounds {regions : List Region} {lo e : List UInt8}
    {keys : List (List UInt8)}
    (hb : regions.map (fun r => (r.start_key, r.end_key)) = (lo :: keys).zip (keys ++ [e])) :
    regions.length = keys.length + 1 := by
  have hl := congrArg List.length hb
  simpa using hl

theorem exec_batch_split_partitions (store_id : UInt64) (region : Region)
    (req : BatchSplitRequest) (hv : validate_batch_split req region = .ok ())
    (hs : ∃ p ∈ region.peers, p.store_id = store_id) :
    ∃ regions derived news, exec_batch_split store_id region req = .ok regions ∧
      regions = (if req.right_derive then news ++ [derived] else derived :: news) ∧
      regions.length = req.requests.length + 1 ∧
      regions.map (fun r => (r.start_key, r.end_key)) =
        (region.start_key :: req.requests.map (·.split_key)).zip
          (req.requests.map (·.split_key) ++ [region.end_key]) ∧
      List.IsChain (· < ·) (region.start_key :: req.requests.map (·.split_key)) ∧
      (∀ r ∈ regions, r.start_key < r.end_key ∨ r.end_key = []) ∧
      regions.Pairwise (fun a b => ∀ key, ¬ (TikvUtil.check_key_in_region key a = true ∧
        TikvUtil.check_key_in_region key b = true)) ∧
      (∀ key, TikvUtil.check_key_in_region key region = true ↔
        ∃ r ∈ regions, TikvUtil.check_key_in_region key r = true) ∧
      derived.id = region.id ∧ news.map (·.id) = req.requests.map (·.new_region_id) ∧
      (∀ r ∈ regions, r.region_epoch = { region.region_epoch with
        version := region.region_epoch.version + UInt64.ofNat req.requests.length }) ∧
      derived.peers = region.peers ∧
      news.map (fun r => r.peers.map (·.id)) = req.requests.map (·.new_peer_ids) ∧
      ∀ r ∈ news, r.peers.map (fun p => (p.store_id, p.role)) =
        region.peers.map (fun p => (p.store_id, p.role)) := by
  obtain ⟨hne, hc, hh, hn⟩ := validate_batch_split_ok hv
  set keys := req.requests.map (·.split_key) with hkeys
  have hl : keys.length = req.requests.length := List.length_map _
  set derived : Region := { region with region_epoch := { region.region_epoch with
    version := region.region_epoch.version + UInt64.ofNat req.requests.length } }
  cases hr : req.right_derive
  · -- the derived region comes first and ends at the first split key
    obtain ⟨k, ks, hk⟩ := List.exists_cons_of_ne_nil (List.ne_nil_of_length_pos
      (hl ▸ List.length_pos_of_ne_nil hne))
    let news := (req.requests.zip ((k :: (ks ++ [region.end_key])).zip (ks ++ [region.end_key]))).map
      (fun p => new_split_region derived p.1 p.2.1 p.2.2)
    have hlen : (ks ++ [region.end_key]).length = req.requests.length := by
      rw [← hl, hk]
      simp
    have hb : ({ derived with end_key := k } :: news).map (fun r => (r.start_key, r.end_key)) =
        (region.start_key :: keys).zip (keys ++ [region.end_key]) := by
      -- the keys past the last bound are dropped by the zip
      have hz : (k :: (ks ++ [region.end_key])).zip (ks ++ [region.end_key]) =
          (k :: ks).zip (ks ++ [region.end_key]) := by
        simpa using @List.zip_append _ _ (k :: ks) [region.end_key] (ks ++ [region.end_key]) []
          (by simp)
      rw [List.map_cons, map_bounds_new_split_regions (by simp [hlen]), hk, hz]
      rfl
    obtain ⟨hne', hdis, hcov⟩ := partition_of_bounds hc hh hb
    refine ⟨{ derived with end_key := k } :: news, _, news, ?_, (if_neg Bool.false_ne_true).symm, by rw [length_eq_of_bounds hb, hl],
      hb, hc, hne', hdis, hcov, rfl,
      map_id_new_split_regions (by simp [hlen]), ?_, rfl,
      map_peer_ids_new_split_regions (by simp [hlen]) hn, map_stores_new_split_regions⟩
    · simp only [exec_batch_split, hv, hr, Bool.false_eq_true, ↓reduceIte, bind, Except.bind,
        ← hkeys, hk, List.cons_append, front]
      rw [@exec_batch_split_loop_eq store_id { derived with end_key := k } hs _ _ _ hlen]
      rfl
    · intro r hr
      rcases List.mem_cons.mp hr with rfl | hr
      · rfl
      · exact region_epoch_new_split_regions r hr
  · -- the new regions come first, from the region's start key on, and the derived region last
    let news := (req.requests.zip ((region.start_key :: keys).zip keys)).map
      (fun p => new_split_region derived p.1 p.2.1 p.2.2)
    have hb : (news ++ [{ derived with start_key := keys.getLastD region.start_key }]).map
        (fun r : Region => (r.start_key, r.end_key)) =
        (region.start_key :: keys).zip (keys ++ [region.end_key]) := by
      rw [List.map_append, map_bounds_new_split_regions (by simp [hl]), zip_cons_append_singleton]
      rfl
    obtain ⟨hne', hdis, hcov⟩ := partition_of_bounds hc hh hb
    refine ⟨news ++ [{ derived with start_key := keys.getLastD region.start_key }], _, news, ?_,
      (if_pos rfl).symm, by rw [length_eq_of_bounds hb, hl],
      hb, hc, hne', hdis, hcov, rfl,
      map_id_new_split_regions (by simp [hl]), ?_, rfl,
      map_peer_ids_new_split_regions (by simp [hl]) hn, map_stores_new_split_regions⟩
    · simp only [exec_batch_split, hv, hr, ↓reduceIte, bind, Except.bind, ← hkeys]
      rw [@exec_batch_split_loop_eq store_id derived hs _ _ _ hl]
      rfl
    · intro r hr
      rcases List.mem_append.mp hr with hr | hr
      · exact region_epoch_new_split_regions r hr
      · rw [List.mem_singleton.mp hr]

def test_split_region : Region :=
  ⟨1, [0x61], [], ⟨5, 3⟩, [⟨2, 1, .Voter, false⟩, ⟨3, 2, .Learner, false⟩], false, 0⟩

def test_batch_split_request : BatchSplitRequest :=
  ⟨[⟨[0x6b], 10, [11, 12]⟩, ⟨[0x70], 20, [21, 22]⟩], true⟩

example : (exec_batch_split 1 test_split_region test_batch_split_request).map
    (·.map fun r => (r.id, r.start_key, r.end_key, r.region_epoch.version)) =
      .ok [(10, [0x61], [0x6b], 5), (20, [0x6b], [0x70], 5), (1, [0x70], [], 5)] := by
  rfl

theorem exec_batch_split_partitions_right_derive :
    validate_batch_split test_batch_split_request test_split_region = .ok () ∧
    (∃ p ∈ test_split_region.peers, p.store_id = 1) ∧
    ∃ regions, exec_batch_split 1 test_split_region test_batch_split_request = .ok regions ∧
      regions.length = 3 ∧
      ∀ key, TikvUtil.check_key_in_region key test_split_region = true ↔
        ∃ r ∈ regions, TikvUtil.check_key_in_region key r = true := by
  have hv : validate_batch_split test_batch_split_request test_split_region = .ok () := rfl
  have hs : ∃ p ∈ test_split_region.peers, p.store_id = 1 := ⟨_, List.mem_cons_self, rfl⟩
  obtain ⟨regions, -, -, hexec, -, hlen, -, -, -, -, hcov, -⟩ :=
    exec_batch_split_partitions 1 test_split_region test_batch_split_request hv hs
  exact ⟨hv, hs, regions, hexec, hlen, hcov⟩

end Tikv.Raftstore
