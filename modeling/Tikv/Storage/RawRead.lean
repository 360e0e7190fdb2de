import Tikv.Storage.RawView

/-!
The raw KV read stack walks its view. The engine keeps the encoded versions in byte order,
which is the engine's order of versions; \x60RawMvccIterator\x60 steps over a user key's run of
versions at once, forward from its newest and backward to it, and \x60RawEncodeIterator\x60 steps
over the newest versions that are not valid. So a forward scan reads the view from a key on,
a backward scan reads it below a key from the end, and a get reads the newest version.
-/

namespace Tikv.Storage

open Tikv.Codec Tikv.ApiVersion Tikv.Lib Tikv.Lib.Lex

/-! ### Encoded keys against the user keys -/

section Keys

theorem encode_fst (e : RawEntry) :
    e.encode.1 = group_encode e.user_key ++ encode_u64_desc e.ts :=
  append_ts_encoded e.user_key e.ts

theorem raw_key_none (k : List UInt8) : (encode_raw_key k none).as_encoded = group_encode k :=
  Key.from_raw_encoded k

theorem group_encode_inj {a b : List UInt8} (h : group_encode a = group_encode b) : a = b := by
  have hk : Key.from_raw a = Key.from_raw b := by
    have ha : Key.from_raw a = ⟨group_encode a⟩ := by rw [← Key.from_raw_encoded]
    have hb : Key.from_raw b = ⟨group_encode b⟩ := by rw [← Key.from_raw_encoded]
    rw [ha, hb, h]
  have hraw := Key.to_raw_from_raw a
  rw [hk, Key.to_raw_from_raw b] at hraw
  exact (Except.ok.inj hraw).symm

theorem truncate_ts_for_append (p : List UInt8) (t : UInt64) :
    Key.truncate_ts_for (p ++ encode_u64_desc t) = .ok p := by
  rw [truncate_ts_for_eq (by simp [U64_SIZE]), length_sub_ts, List.take_left]

theorem is_user_key_eq_encode (a b : RawEntry) :
    is_user_key_eq a.encode.1 b.encode.1 = (a.user_key == b.user_key) := by
  rw [encode_fst, encode_fst]
  unfold is_user_key_eq
  rw [truncate_ts_for_append]
  by_cases hab : a.user_key = b.user_key
  · have hkey : Key.is_user_key_eq (group_encode b.user_key ++ encode_u64_desc a.ts)
        (group_encode b.user_key) = true := by
      rw [is_user_key_eq_iff, truncate_ts_for_append]
      simp
    simp [hab, hkey]
  · have hkey : Key.is_user_key_eq (group_encode a.user_key ++ encode_u64_desc a.ts)
        (group_encode b.user_key) = false := by
      cases h : Key.is_user_key_eq (group_encode a.user_key ++ encode_u64_desc a.ts)
          (group_encode b.user_key)
      · rfl
      · obtain ⟨-, htr⟩ := (is_user_key_eq_iff _ _).mp h
        rw [truncate_ts_for_append] at htr
        exact absurd (group_encode_inj (Except.ok.inj htr)) hab
    split <;> simp [hab, hkey]

theorem encode_lt_raw_key_iff (e : RawEntry) (s : List UInt8) :
    e.encode.1 < (encode_raw_key s none).as_encoded ↔ e.user_key < s := by
  rw [encode_fst, raw_key_none]
  constructor
  · intro h
    rcases lt_trichotomy e.user_key s with hlt | heq | hgt
    · exact hlt
    · rw [heq] at h
      exact absurd h (List.not_lt.mpr (le_append _ _))
    · have hd := (group_encode_diffLt hgt).append [] (encode_u64_desc e.ts)
      rw [List.append_nil] at hd
      exact absurd h hd.not_lt
  · intro h
    have hd := (group_encode_diffLt h).append (encode_u64_desc e.ts) []
    rw [List.append_nil] at hd
    exact hd.lt

theorem encode_le_raw_key_iff (e : RawEntry) (s : List UInt8) :
    e.encode.1 ≤ (encode_raw_key s none).as_encoded ↔ e.user_key < s := by
  constructor
  · intro h
    rw [encode_fst, raw_key_none] at h
    rcases lt_trichotomy e.user_key s with hlt | heq | hgt
    · exact hlt
    · rw [heq] at h
      obtain ⟨z, zs, hz⟩ : ∃ z zs, encode_u64_desc e.ts = z :: zs := by
        cases hd : encode_u64_desc e.ts with
        | nil => simpa [hd] using length_encode_u64_desc e.ts
        | cons z zs => exact ⟨z, zs, rfl⟩
      rw [hz] at h
      exact absurd (lt_append_cons _ z zs) (List.not_lt.mpr h)
    · have hd := (group_encode_diffLt hgt).append [] (encode_u64_desc e.ts)
      rw [List.append_nil] at hd
      exact absurd hd.lt (List.not_lt.mpr h)
  · intro h
    exact List.le_of_lt ((encode_lt_raw_key_iff e s).mpr h)

theorem encode_lt_raw_key_zero_iff (e : RawEntry) (k : List UInt8) (hts : 0 < e.ts) :
    e.encode.1 < ((encode_raw_key k none).append_ts 0).as_encoded ↔
      e.user_key < k ∨ e.user_key = k := by
  rw [encode_fst, show encode_raw_key k none = Key.from_raw k from rfl, append_ts_encoded]
  constructor
  · intro h
    rcases lt_trichotomy e.user_key k with hlt | heq | hgt
    · exact Or.inl hlt
    · exact Or.inr heq
    · exact absurd h ((group_encode_diffLt hgt).append _ _).not_lt
  · rintro (hlt | rfl)
    · exact ((group_encode_diffLt hlt).append _ _).lt
    · exact ((encode_u64_desc_diffLt hts).append_left _).lt

theorem engine_order_iff (a b : RawEntry) : EngineOrder a b ↔ a.encode.1 < b.encode.1 := by
  rw [encode_fst, encode_fst]
  constructor
  · rintro (hlt | ⟨heq, hts⟩)
    · exact ((group_encode_diffLt hlt).append _ _).lt
    · rw [heq]
      exact ((encode_u64_desc_diffLt hts).append_left _).lt
  · intro h
    rcases lt_trichotomy a.user_key b.user_key with hlt | heq | hgt
    · exact Or.inl hlt
    · refine Or.inr ⟨heq, ?_⟩
      rw [heq] at h
      -- an older or equal ts of a stores its key at or above b's
      by_contra hn
      rcases UInt64.lt_or_eq_of_le (UInt64.not_lt.mp hn) with hlt | hts
      · exact absurd h ((encode_u64_desc_diffLt hlt).append_left _).not_lt
      · rw [hts] at h
        exact List.lt_irrefl _ h
    · exact absurd h ((group_encode_diffLt hgt).append _ _).not_lt

theorem pairwise_engine_order_iff (store : List RawEntry) :
    store.Pairwise EngineOrder ↔ (store.map RawEntry.encode).Pairwise fun a b => a.1 < b.1 := by
  rw [List.pairwise_map]
  exact List.Pairwise.iff engine_order_iff

end Keys

theorem decode_encode_value (e : RawEntry) : decode_raw_value e.encode.2 = .ok e.value :=
  decode_raw_value_encode_raw_value e.value

/-! ### Forward -/

/-- A forward position over the versions still ahead: no version is kept, and the engine has
them ahead. -/
structure FwdAt (rest : List RawEntry) (it : RawMvccIterator) : Prop where
  forward : it.is_forward = true
  cur_key : it.cur_key = none
  cur_value : it.cur_value = none
  ahead : Cursor.ahead it.inner.pos = rest.map RawEntry.encode

theorem FwdAt.key_value {e : RawEntry} {l : List RawEntry} {it : RawMvccIterator}
    (h : FwdAt (e :: l) it) : it.key = e.encode.1 ∧ it.value = e.encode.2 := by
  obtain ⟨hk, hv⟩ := EngineIterator.key_of_ahead (l := l.map RawEntry.encode) h.ahead
  simp [RawMvccIterator.key, RawMvccIterator.value, h.cur_key, h.cur_value, hk, hv]

theorem next_loop_of_run (g : RawEntry) : ∀ (run rest : List RawEntry) (inner : EngineIterator),
    Cursor.ahead inner.pos = (run ++ rest).map RawEntry.encode →
    (∀ y ∈ run, y.user_key = g.user_key) → (∀ y ∈ rest.head?, y.user_key ≠ g.user_key) →
    (RawMvccIterator.next_loop g.encode.1 inner.valid inner).1 = !rest.isEmpty ∧
      Cursor.ahead (RawMvccIterator.next_loop g.encode.1 inner.valid inner).2.pos =
        rest.map RawEntry.encode
  | [], [], inner, hpos, _, _ => by
    have hv : inner.valid = false := by
      rw [EngineIterator.valid_eq_ahead, hpos]
      rfl
    rw [hv, RawMvccIterator.next_loop_false]
    exact ⟨rfl, hpos⟩
  | [], y :: ys, inner, hpos, _, hrest => by
    have hv : inner.valid = true := by
      rw [EngineIterator.valid_eq_ahead, hpos]
      rfl
    have hne : is_user_key_eq g.encode.1 inner.key = false := by
      rw [(EngineIterator.key_of_ahead (l := ys.map RawEntry.encode) hpos).1, is_user_key_eq_encode]
      simpa using Ne.symm (hrest y rfl)
    rw [RawMvccIterator.next_loop, dif_neg (by simp [hne]), hv]
    exact ⟨rfl, hpos⟩
  | y :: run, rest, inner, hpos, hrun, hrest => by
    have hv : inner.valid = true := by
      rw [EngineIterator.valid_eq_ahead, hpos]
      rfl
    have heq : is_user_key_eq g.encode.1 inner.key = true := by
      rw [(EngineIterator.key_of_ahead (l := (run ++ rest).map RawEntry.encode) hpos).1,
        is_user_key_eq_encode]
      simpa using (hrun y (by simp)).symm
    rw [RawMvccIterator.next_loop, dif_pos ⟨hv, hv, heq⟩, EngineIterator.next_fst]
    refine next_loop_of_run g run rest inner.next.2 ?_ (fun z hz => hrun z (by simp [hz])) hrest
    rw [EngineIterator.ahead_next, hpos]
    rfl

theorem FwdAt.next {e : RawEntry} {l : List RawEntry} {it : RawMvccIterator}
    (h : FwdAt (e :: l) it) :
    it.next.1 = .ok !(l.dropWhile fun x => x.user_key == e.user_key).isEmpty ∧
      FwdAt (l.dropWhile fun x => x.user_key == e.user_key) it.next.2 := by
  have hkey := (EngineIterator.key_of_ahead (l := l.map RawEntry.encode) h.ahead).1
  have hpos : Cursor.ahead it.inner.next.2.pos =
      ((l.takeWhile fun x => x.user_key == e.user_key) ++
        (l.dropWhile fun x => x.user_key == e.user_key)).map RawEntry.encode := by
    rw [EngineIterator.ahead_next, h.ahead, List.takeWhile_append_dropWhile]
    rfl
  obtain ⟨hres, hahead⟩ := next_loop_of_run e _ _ it.inner.next.2 hpos
    (fun y hy => by simpa using List.mem_takeWhile_imp hy)
    (fun y hy => by simpa using not_of_mem_head?_dropWhile hy)
  rw [RawMvccIterator.next_of_forward h.forward, hkey]
  exact ⟨by rw [hres], ⟨h.forward, rfl, rfl, hahead⟩⟩

theorem find_valid_value_forward (now : UInt64) : ∀ (rest : List RawEntry) (it : RawEncodeIterator),
    it.current_ts = now → FwdAt rest it.inner →
    ∃ b it', RawEncodeIterator.find_valid_value it (.ok !rest.isEmpty) true = (.ok b, it') ∧
      Yields RawEncodeIterator.next scanned b it' ((view now rest).map RawEntry.read)
  | [], it, _, _ => ⟨false, it, RawEncodeIterator.find_valid_value_false it true, Yields.done it⟩
  | e :: l, it, hts, h => by
    obtain ⟨hkey, hval⟩ := h.key_value
    have hd : decode_raw_value it.inner.value = .ok e.value := by
      rw [hval, decode_encode_value]
    obtain ⟨hres, hnext⟩ := h.next
    show ∃ b it', RawEncodeIterator.find_valid_value it (.ok true) true = (.ok b, it') ∧ _
    cases hv : e.value.is_valid now with
    | true =>
      -- the version is read, and next goes on from the next user key
      obtain ⟨b, it', hfind, hy⟩ := find_valid_value_forward now _
        { it with inner := it.inner.next.2 } hts hnext
      have hread : scanned it = e.read := by
        simp [scanned, RawEncodeIterator.key, RawEncodeIterator.value, hkey, hd, RawEntry.read]
      refine ⟨true, it, RawEncodeIterator.find_valid_value_valid hd (hts ▸ hv), ?_⟩
      rw [view_cons_of_valid l hv, List.map_cons, ← hread]
      refine Yields.more ?_ hy
      rw [RawEncodeIterator.next, hres]
      exact hfind
    | false =>
      -- the version is stepped over, as from a next call
      obtain ⟨b, it', hfind, hy⟩ := find_valid_value_forward now _
        { it with skip_invalid := it.skip_invalid + 1, inner := it.inner.next.2 } hts hnext
      refine ⟨b, it', ?_, ?_⟩
      · rw [RawEncodeIterator.find_valid_value_invalid hd (hts ▸ hv)]
        simp only [if_true]
        rw [hres]
        exact hfind
      · rw [view_cons_of_invalid l hv]
        exact hy
termination_by rest => rest.length
decreasing_by
  all_goals exact Nat.lt_succ_of_le (List.dropWhile_suffix _).length_le

/-! ### Backward -/

/-- A backward position: the iterator keeps the version g, and the engine has the versions rest
behind it, nearest first. -/
structure BwdAt (g : RawEntry) (rest : List RawEntry) (it : RawMvccIterator) : Prop where
  backward : it.is_forward = false
  cur_key : it.cur_key = some g.encode.1
  cur_value : it.cur_value = some g.encode.2
  behind : Cursor.behind it.inner.pos = rest.map RawEntry.encode

theorem BwdAt.key_value {g : RawEntry} {rest : List RawEntry} {it : RawMvccIterator}
    (h : BwdAt g rest it) : it.key = g.encode.1 ∧ it.value = g.encode.2 := by
  simp [RawMvccIterator.key, RawMvccIterator.value, h.cur_key, h.cur_value]

theorem move_to_prev_max_ts_loop_of_run : ∀ (run rest : List RawEntry) (g : RawEntry)
    (it : RawMvccIterator), BwdAt g (run ++ rest) it →
    (∀ y ∈ run, y.user_key = g.user_key) → (∀ y ∈ rest.head?, y.user_key ≠ g.user_key) →
    BwdAt (run.getLast?.getD g) rest (RawMvccIterator.move_to_prev_max_ts_loop it)
  | [], rest, g, it, h, _, hrest => by
    rw [RawMvccIterator.move_to_prev_max_ts_loop, dif_neg]
    · exact h
    rintro ⟨hv, heq⟩
    cases rest with
    | nil =>
      rw [EngineIterator.valid_eq_behind, h.behind] at hv
      cases hv
    | cons y ys =>
      have hkey := (EngineIterator.key_of_behind (l := ys.map RawEntry.encode) h.behind).1
      rw [h.cur_key, Option.getD_some, hkey, is_user_key_eq_encode] at heq
      have hyg : g.user_key = y.user_key := by simpa using heq
      exact hrest y rfl hyg.symm
  | y :: run, rest, g, it, h, hrun, hrest => by
    have hy : y.user_key = g.user_key := hrun y (by simp)
    have hpos := h.behind
    rw [List.cons_append, List.map_cons] at hpos
    have hv : it.inner.valid = true := by
      rw [EngineIterator.valid_eq_behind, hpos]
      rfl
    obtain ⟨hkey, hval⟩ := EngineIterator.key_of_behind hpos
    have heq : is_user_key_eq (it.cur_key.getD []) it.inner.key = true := by
      rw [h.cur_key, Option.getD_some, hkey, is_user_key_eq_encode]
      simpa using hy.symm
    rw [RawMvccIterator.move_to_prev_max_ts_loop, dif_pos ⟨hv, heq⟩]
    -- the version y is kept and the engine steps back
    have hstep : BwdAt y (run ++ rest) { it.update_cur_kv with inner := it.inner.prev.2 } := by
      refine ⟨h.backward, ?_, ?_, ?_⟩
      · simp [RawMvccIterator.update_cur_kv, hkey]
      · simp [RawMvccIterator.update_cur_kv, hval]
      · rw [EngineIterator.behind_prev, hpos]
        rfl
    have hlast := move_to_prev_max_ts_loop_of_run run rest y _ hstep
      (fun z hz => (hrun z (by simp [hz])).trans hy.symm) (fun z hz => hy ▸ hrest z hz)
    rwa [List.getLast?_cons, Option.getD_some]

theorem move_to_prev_max_ts_of_cons {x : RawEntry} {Q : List RawEntry} {it : RawMvccIterator}
    (hb : it.is_forward = false) (hpos : Cursor.behind it.inner.pos = (x :: Q).map RawEntry.encode) :
    it.move_to_prev_max_ts.1 = true ∧
      BwdAt ((Q.takeWhile fun y => y.user_key == x.user_key).getLast?.getD x)
        (Q.dropWhile fun y => y.user_key == x.user_key) it.move_to_prev_max_ts.2 := by
  have hv : it.inner.valid = true := by
    rw [EngineIterator.valid_eq_behind, hpos]
    rfl
  obtain ⟨hkey, hval⟩ := EngineIterator.key_of_behind (l := Q.map RawEntry.encode) hpos
  have hstart : BwdAt x ((Q.takeWhile fun y => y.user_key == x.user_key) ++
      (Q.dropWhile fun y => y.user_key == x.user_key))
      { it.update_cur_kv with inner := it.inner.prev.2 } := by
    refine ⟨hb, ?_, ?_, ?_⟩
    · simp [RawMvccIterator.update_cur_kv, hkey]
    · simp [RawMvccIterator.update_cur_kv, hval]
    · rw [EngineIterator.behind_prev, hpos, List.takeWhile_append_dropWhile]
      rfl
  unfold RawMvccIterator.move_to_prev_max_ts
  rw [if_pos hv]
  exact ⟨rfl, move_to_prev_max_ts_loop_of_run _ _ x _ hstart
    (fun y hy => by simpa using List.mem_takeWhile_imp hy)
    (fun y hy => by simpa using not_of_mem_head?_dropWhile hy)⟩

theorem move_to_prev_max_ts_of_nil {it : RawMvccIterator} (hpos : Cursor.behind it.inner.pos = []) :
    it.move_to_prev_max_ts.1 = false := by
  have hv : it.inner.valid = false := by
    rw [EngineIterator.valid_eq_behind, hpos]
    rfl
  simp [RawMvccIterator.move_to_prev_max_ts, hv]

theorem find_valid_value_backward (now : UInt64) : ∀ (Q : List RawEntry) (it : RawEncodeIterator),
    it.current_ts = now → it.inner.is_forward = false →
    Cursor.behind it.inner.inner.pos = Q.map RawEntry.encode →
    ∃ b it', RawEncodeIterator.find_valid_value { it with inner := it.inner.prev.2 }
        it.inner.prev.1 false = (.ok b, it') ∧
      Yields RawEncodeIterator.prev scanned b it' ((view now Q.reverse).reverse.map RawEntry.read)
  | [], it, _, hb, hpos => by
    rw [RawMvccIterator.prev_of_backward hb, move_to_prev_max_ts_of_nil hpos]
    exact ⟨false, _, RawEncodeIterator.find_valid_value_false _ false, Yields.done _⟩
  | x :: Q, it, hts, hb, hpos => by
    obtain ⟨hmove, hB⟩ := move_to_prev_max_ts_of_cons hb hpos
    rw [RawMvccIterator.prev_of_backward hb, hmove]
    set g := (Q.takeWhile fun y => y.user_key == x.user_key).getLast?.getD x
    set rest := Q.dropWhile fun y => y.user_key == x.user_key
    set itE : RawEncodeIterator := { it with inner := it.inner.move_to_prev_max_ts.2 }
    obtain ⟨hkey, hval⟩ := hB.key_value
    have hkey' : itE.inner.key = g.encode.1 := hkey
    have hd : decode_raw_value itE.inner.value = .ok g.value := by
      rw [show itE.inner.value = g.encode.2 from hval, decode_encode_value]
    -- the versions read from the end: those before the run, then the run back to its newest
    have hview : view now (x :: Q).reverse =
        view now rest.reverse ++ [g].filter fun e => e.value.is_valid now := by
      have hQ : (x :: Q).reverse = rest.reverse ++
          (x :: Q.takeWhile fun y => y.user_key == x.user_key).reverse := by
        simp only [List.reverse_cons]
        conv_lhs => rw [← List.takeWhile_append_dropWhile (l := Q)
          (p := fun y => y.user_key == x.user_key)]
        rw [List.reverse_append, List.append_assoc]
      rw [hQ]
      exact view_reverse_cons x (fun y hy => by simpa using List.mem_takeWhile_imp hy)
        (fun y hy => by simpa using not_of_mem_head?_dropWhile hy)
    have hlt : rest.length < (x :: Q).length :=
      Nat.lt_succ_of_le (List.dropWhile_suffix _).length_le
    cases hv : g.value.is_valid now with
    | true =>
      obtain ⟨b, it', hfind, hy⟩ := find_valid_value_backward now rest itE hts hB.backward hB.behind
      have hread : scanned itE = g.read := by
        simp [scanned, RawEncodeIterator.key, RawEncodeIterator.value, hkey', hd, RawEntry.read]
      refine ⟨true, itE, RawEncodeIterator.find_valid_value_valid hd (hts ▸ hv), ?_⟩
      rw [hview, List.filter_singleton, hv, cond_true, List.reverse_append, List.reverse_singleton,
        List.singleton_append, List.map_cons, ← hread]
      exact Yields.more hfind hy
    | false =>
      obtain ⟨b, it', hfind, hy⟩ := find_valid_value_backward now rest
        { itE with skip_invalid := itE.skip_invalid + 1 } hts hB.backward hB.behind
      refine ⟨b, it', ?_, ?_⟩
      · rw [RawEncodeIterator.find_valid_value_invalid hd (hts ▸ hv)]
        exact hfind
      · rw [hview, List.filter_singleton, hv, cond_false, List.append_nil]
        exact hy
termination_by Q => Q.length
decreasing_by
  all_goals exact Nat.lt_succ_of_le (List.dropWhile_suffix _).length_le

/-! ### The stack -/

section Stack

variable (store : List RawEntry) (now : UInt64)

theorem raw_get (hs : store.Pairwise EngineOrder) (hts : ∀ e ∈ store, 0 < e.ts) (k : List UInt8) :
    (raw_snapshot store now).get (encode_raw_key k none) = .ok (newest_valid now store k) := by
  -- the engine sees the versions up to the key, and the seek lands on the first of the key's
  have hentries : ((raw_snapshot store now).snap.snap.iter
      (some ((encode_raw_key k none).append_ts 0).as_encoded)).entries =
      (store.filter fun e => decide (e.user_key < k ∨ e.user_key = k)).map RawEntry.encode := by
    show (store.map RawEntry.encode).filter _ = _
    rw [List.filter_map]
    congr 1
    exact List.filter_congr fun e he => by
      simp only [Function.comp_apply, encode_lt_raw_key_zero_iff e k (hts e he)]
  have hseek : ((fun e : List UInt8 × List UInt8 =>
      decide (e.1 < (encode_raw_key k none).as_encoded)) ∘ RawEntry.encode) =
      fun e => decide (e.user_key < k) := by
    funext e
    simp only [Function.comp_apply, encode_lt_raw_key_iff]
  rw [RawEncodeSnapshot.get, RawMvccSnapshot.get, RawMvccSnapshot.seek_first_key_value_cf_eq,
    EngineIterator.ahead_seek, hentries, List.dropWhile_map, hseek, List.head?_map,
    head_filter_dropWhile hs k]
  cases hn : newest store k with
  | none => simp [newest_valid, hn, RawEncodeSnapshot.map_value_none]
  | some e =>
    rw [Option.map_some, Option.map_some, RawEncodeSnapshot.map_value_some _ (decode_encode_value e)]
    simp only [newest_valid, hn]
    rfl

theorem raw_scan_forward (hs : store.Pairwise EngineOrder) (s : List UInt8) :
    ∃ b it, ((raw_snapshot store now).iter none).seek (encode_raw_key s none) = (.ok b, it) ∧
      Yields RawEncodeIterator.next scanned b it
        (((view now store).filter fun e => !decide (e.user_key < s)).map RawEntry.read) := by
  set rest := store.dropWhile fun e => decide (e.user_key < s)
  set it0 := (raw_snapshot store now).iter none
  set eng := it0.inner.inner.seek (encode_raw_key s none).as_encoded
  have hq : ((fun e : List UInt8 × List UInt8 =>
      decide (e.1 < (encode_raw_key s none).as_encoded)) ∘ RawEntry.encode) =
      fun e => decide (e.user_key < s) := by
    funext e
    simp only [Function.comp_apply, encode_lt_raw_key_iff]
  have hahead : Cursor.ahead eng.2.pos = rest.map RawEntry.encode := by
    rw [EngineIterator.ahead_seek]
    show (store.map RawEntry.encode).dropWhile _ = _
    rw [List.dropWhile_map, hq]
  have hfwd : FwdAt rest (it0.inner.seek (encode_raw_key s none)).2 := ⟨rfl, rfl, rfl, hahead⟩
  have hres : (it0.inner.seek (encode_raw_key s none)).1 = .ok !rest.isEmpty := by
    rw [RawMvccIterator.seek_eq, EngineIterator.valid_eq_ahead, hahead, List.isEmpty_map]
  obtain ⟨b, it', hfind, hy⟩ := find_valid_value_forward now rest
    { it0 with inner := (it0.inner.seek (encode_raw_key s none)).2 } rfl hfwd
  refine ⟨b, it', ?_, ?_⟩
  · rw [RawEncodeIterator.seek, hres]
    exact hfind
  · rw [view_filter_ge hs]
    exact hy

theorem raw_scan_backward (hs : store.Pairwise EngineOrder) (e : List UInt8) :
    ∃ b it, ((raw_snapshot store now).iter none).seek_for_prev (encode_raw_key e none) =
        (.ok b, it) ∧
      Yields RawEncodeIterator.prev scanned b it
        (((view now store).filter fun x => decide (x.user_key < e)).reverse.map RawEntry.read) := by
  set A := store.takeWhile fun x => decide (x.user_key < e)
  set it0 := (raw_snapshot store now).iter none
  set eng := it0.inner.inner.seek_for_prev (encode_raw_key e none).as_encoded
  have hq : ((fun x : List UInt8 × List UInt8 =>
      decide (x.1 ≤ (encode_raw_key e none).as_encoded)) ∘ RawEntry.encode) =
      fun x => decide (x.user_key < e) := by
    funext x
    simp only [Function.comp_apply, encode_le_raw_key_iff]
  have hbehind : Cursor.behind eng.2.pos = A.reverse.map RawEntry.encode := by
    rw [EngineIterator.behind_seek_for_prev]
    show ((store.map RawEntry.encode).takeWhile _).reverse = _
    rw [List.takeWhile_map, hq, List.map_reverse]
  rw [view_filter_lt hs]
  by_cases hr : eng.1 = true
  · obtain ⟨b, it', hfind, hy⟩ := find_valid_value_backward now A.reverse
      { it0 with inner := { it0.inner with is_forward := false, inner := eng.2 } } rfl rfl hbehind
    refine ⟨b, it', ?_, ?_⟩
    · rw [RawEncodeIterator.seek_for_prev, RawMvccIterator.seek_for_prev_eq, if_pos hr]
      exact hfind
    · rwa [List.reverse_reverse] at hy
  · -- nothing lies below e
    have hA : A = [] := by
      have hv : eng.2.valid = false := by
        show eng.1 = false
        simpa using hr
      rw [EngineIterator.valid_eq_behind, hbehind] at hv
      simpa using hv
    refine ⟨false, { it0 with inner := { it0.inner with is_forward := false, inner := eng.2 } },
      ?_, ?_⟩
    · rw [RawEncodeIterator.seek_for_prev, RawMvccIterator.seek_for_prev_eq, if_neg hr]
      exact RawEncodeIterator.find_valid_value_false _ false
    · rw [show store.takeWhile (fun x => decide (x.user_key < e)) = [] from hA]
      exact Yields.done _

end Stack

/-! ### The read view -/

/-- The raw KV stack of API v2, over an engine that holds the versions in ascending key order
with every ts above zero, reads at current_ts as its view. The value codec round-trips; a get
of a user key returns the newest valid version's user value, the newest being the version of
the key with the largest ts; a forward scan from s reads the view's keys from s on, and a
backward scan from e reads its keys below e, from the last; the view holds exactly the newest
version of each user key, when valid, in ascending user key order. -/
theorem raw_kv_v2_read_view (store : List RawEntry)
    (hs : (store.map RawEntry.encode).Pairwise fun a b => a.1 < b.1)
    (hts : ∀ e ∈ store, 0 < e.ts) (now : UInt64) :
    (∀ v : RawValue, decode_raw_value (encode_raw_value v) = .ok v) ∧
    (∀ k, (raw_snapshot store now).get (encode_raw_key k none) = .ok (newest_valid now store k)) ∧
    (∀ k x, newest store k = some x ↔
      x ∈ store ∧ x.user_key = k ∧ ∀ y ∈ store, y.user_key = k → y.ts ≤ x.ts) ∧
    (∀ s, ∃ b it, ((raw_snapshot store now).iter none).seek (encode_raw_key s none) = (.ok b, it) ∧
      Yields RawEncodeIterator.next scanned b it
        (((view now store).filter fun x => decide (s ≤ x.user_key)).map RawEntry.read)) ∧
    (∀ e, ∃ b it, ((raw_snapshot store now).iter none).seek_for_prev (encode_raw_key e none) =
        (.ok b, it) ∧
      Yields RawEncodeIterator.prev scanned b it
        (((view now store).filter fun x => decide (x.user_key < e)).reverse.map RawEntry.read)) ∧
    (∀ x, x ∈ view now store ↔ newest store x.user_key = some x ∧ x.value.is_valid now = true) ∧
    (view now store).Pairwise fun a b => a.user_key < b.user_key := by
  have ho := (pairwise_engine_order_iff store).mpr hs
  -- the forward scan's filter, as the stack's lemma states it
  have hge : ∀ s, ((view now store).filter fun x => decide (s ≤ x.user_key)) =
      (view now store).filter fun x => !decide (x.user_key < s) := fun s =>
    List.filter_congr fun x _ => by
      rw [← decide_not]
      exact decide_eq_decide.mpr List.not_lt.symm
  refine ⟨decode_raw_value_encode_raw_value, raw_get store now ho hts, newest_eq_some_iff ho,
    fun s => by rw [hge]; exact raw_scan_forward store now ho s, raw_scan_backward store now ho,
    fun x => ?_, (newest_of_pairwise ho).filter _⟩
  rw [view, List.mem_filter, mem_newest_of_iff ho]

/-- Two versions of key [1] and one of key [2] that expires at 4, read at 5: a get of [1] reads
the newer version's value. -/
theorem raw_kv_v2_read_view_expired :
    ([RawEntry.mk [1] 2 ⟨[5], none, false⟩, RawEntry.mk [1] 1 ⟨[6], none, false⟩,
        RawEntry.mk [2] 3 ⟨[7], some 4, false⟩].map RawEntry.encode).Pairwise
      (fun a b => a.1 < b.1) ∧
    (∀ e ∈ [RawEntry.mk [1] 2 ⟨[5], none, false⟩, RawEntry.mk [1] 1 ⟨[6], none, false⟩,
        RawEntry.mk [2] 3 ⟨[7], some 4, false⟩], 0 < e.ts) ∧
    (raw_snapshot [RawEntry.mk [1] 2 ⟨[5], none, false⟩, RawEntry.mk [1] 1 ⟨[6], none, false⟩,
        RawEntry.mk [2] 3 ⟨[7], some 4, false⟩] 5).get (encode_raw_key [1] none) = .ok (some [5]) ∧
    view 5 [RawEntry.mk [1] 2 ⟨[5], none, false⟩, RawEntry.mk [1] 1 ⟨[6], none, false⟩,
        RawEntry.mk [2] 3 ⟨[7], some 4, false⟩] = [RawEntry.mk [1] 2 ⟨[5], none, false⟩] := by
  have hs : ([RawEntry.mk [1] 2 ⟨[5], none, false⟩, RawEntry.mk [1] 1 ⟨[6], none, false⟩,
      RawEntry.mk [2] 3 ⟨[7], some 4, false⟩].map RawEntry.encode).Pairwise
      (fun a b => a.1 < b.1) :=
    (pairwise_engine_order_iff _).mp (by decide)
  have hts : ∀ e ∈ [RawEntry.mk [1] 2 ⟨[5], none, false⟩, RawEntry.mk [1] 1 ⟨[6], none, false⟩,
      RawEntry.mk [2] 3 ⟨[7], some 4, false⟩], 0 < e.ts := by decide
  obtain ⟨-, hget, -⟩ := raw_kv_v2_read_view _ hs hts 5
  refine ⟨hs, hts, ?_, by decide⟩
  rw [hget]
  decide

end Tikv.Storage
