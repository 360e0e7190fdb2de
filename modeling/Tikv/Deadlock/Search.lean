import Tikv.Deadlock.Graph

/-!
The depth-first search of `do_detect`. Its invariant: the predecessor map is a tree rooted at
the start whose edges the table still stores, every vertex popped from the stack has only live
edges and all their ends pushed, and the goal is never pushed. So when the stack runs empty
the goal is unreachable, and when an edge into the goal turns up the predecessors walk back
to the start along live edges.
-/

namespace Tikv.Deadlock

open Relation Tikv.Lib.AssocList Tikv.Lib.Reach

def IsChain (t : DetectTable) : Nat → Nat → List WaitForEntry → Prop
  | a, b, [] => a = b
  | a, b, e :: es => e.txn = a ∧
      (∃ L, t.edge a e.wait_for_txn = some L ∧ L.is_expired t.now t.ttl = false ∧
        e = L.to_wait_for_entry a) ∧ IsChain t e.wait_for_txn b es

theorem isChain_append {t : DetectTable} {a b c : Nat} {es fs : List WaitForEntry}
    (h : IsChain t a b es) (h' : IsChain t b c fs) : IsChain t a c (es ++ fs) := by
  induction es generalizing a with
  | nil => cases h; exact h'
  | cons e es ih => exact ⟨h.1, h.2.1, ih h.2.2⟩

theorem isChain_single {t : DetectTable} {a : Nat} {L : Locks}
    (hL : t.edge a L.ts = some L) (hlive : L.is_expired t.now t.ttl = false) :
    IsChain t a L.ts [L.to_wait_for_entry a] :=
  ⟨rfl, ⟨L, hL, hlive, rfl⟩, rfl⟩

theorem IsChain.reflTransGen {t : DetectTable} {a b : Nat} {es : List WaitForEntry}
    (h : IsChain t a b es) : ReflTransGen (Live t) a b := by
  induction es generalizing a with
  | nil => cases h; exact ReflTransGen.refl
  | cons e es ih =>
    obtain ⟨rfl, ⟨L, hL, hlive, -⟩, h⟩ := h
    exact ReflTransGen.head ⟨L, hL, hlive⟩ (ih h)

theorem push_wait_for_inr {txn curr : Nat} {ws : List (Nat × Locks)} {stack stack' : List Nat}
    {pushed pushed' : List (Nat × Nat)}
    (h : push_wait_for txn curr ws stack pushed = .inr (stack', pushed')) :
    ∃ new : List Nat, stack' = new ++ stack ∧ pushed' = new.map (fun v => (v, curr)) ++ pushed ∧
      new.Nodup ∧ (∀ v ∈ new, v ∉ keys pushed ∧ v ∈ keys ws) ∧
      ∀ w ∈ keys ws, w ≠ txn ∧ w ∈ keys pushed' := by
  induction ws generalizing stack pushed with
  | nil =>
    simp only [push_wait_for, Sum.inr.injEq, Prod.mk.injEq] at h
    obtain ⟨rfl, rfl⟩ := h
    exact ⟨[], by simp, by simp, List.nodup_nil, by simp, by simp⟩
  | cons e ws ih =>
    obtain ⟨lock_ts, locks⟩ := e
    simp only [push_wait_for] at h
    split at h
    · cases h
    · rename_i htxn
      split at h
      · rename_i hmem
        obtain ⟨new, hs, hp, hnd, hnew, hall⟩ := ih h
        refine ⟨new, hs, hp, hnd, fun v hv => ⟨(hnew v hv).1, by simp [(hnew v hv).2]⟩, ?_⟩
        intro w hw
        rcases List.mem_cons.mp hw with rfl | hw
        · exact ⟨htxn, by simp [hp, hmem]⟩
        · exact hall w hw
      · rename_i hmem
        obtain ⟨new, hs, hp, hnd, hnew, hall⟩ := ih h
        refine ⟨new ++ [lock_ts], by simp [hs], by simp [hp], ?_, ?_, ?_⟩
        · refine List.nodup_append.mpr ⟨hnd, by simp, fun a ha b hb => ?_⟩
          rw [List.mem_singleton] at hb
          subst hb
          rintro rfl
          exact (hnew a ha).1 (by simp)
        · intro v hv
          rcases List.mem_append.mp hv with hv | hv
          · exact ⟨fun hm => (hnew v hv).1 (by simp [hm]), by simp [(hnew v hv).2]⟩
          · rw [List.mem_singleton] at hv
            subst hv
            exact ⟨hmem, by simp⟩
        · intro w hw
          rcases List.mem_cons.mp hw with rfl | hw
          · exact ⟨htxn, by simp [hp]⟩
          · exact hall w hw

theorem push_wait_for_inl {txn curr : Nat} {ws : List (Nat × Locks)} {stack : List Nat}
    {pushed pushed' : List (Nat × Nat)} {locks : Locks}
    (h : push_wait_for txn curr ws stack pushed = .inl (locks, pushed')) :
    ∃ new : List Nat, pushed' = new.map (fun v => (v, curr)) ++ pushed ∧
      new.Nodup ∧ (∀ v ∈ new, v ∉ keys pushed ∧ v ∈ keys ws) ∧ (txn, locks) ∈ ws := by
  induction ws generalizing stack pushed with
  | nil => simp [push_wait_for] at h
  | cons e ws ih =>
    obtain ⟨lock_ts, locks'⟩ := e
    simp only [push_wait_for] at h
    split at h
    · rename_i htxn
      simp only [Sum.inl.injEq, Prod.mk.injEq] at h
      obtain ⟨rfl, rfl⟩ := h
      exact ⟨[], by simp, List.nodup_nil, by simp, by simp [htxn]⟩
    · split at h
      · obtain ⟨new, hp, hnd, hnew, hmem⟩ := ih h
        exact ⟨new, hp, hnd, fun v hv => ⟨(hnew v hv).1, by simp [(hnew v hv).2]⟩,
          List.mem_cons_of_mem _ hmem⟩
      · rename_i hmem
        obtain ⟨new, hp, hnd, hnew, hfound⟩ := ih h
        refine ⟨new ++ [lock_ts], by simp [hp], ?_, ?_, List.mem_cons_of_mem _ hfound⟩
        · refine List.nodup_append.mpr ⟨hnd, by simp, fun a ha b hb => ?_⟩
          rw [List.mem_singleton] at hb
          subst hb
          rintro rfl
          exact (hnew a ha).1 (by simp)
        · intro v hv
          rcases List.mem_append.mp hv with hv | hv
          · exact ⟨fun hm => (hnew v hv).1 (by simp [hm]), by simp [(hnew v hv).2]⟩
          · rw [List.mem_singleton] at hv
            subst hv
            exact ⟨hmem, by simp⟩

structure WalkReady (t : DetectTable) (start : Nat) (P : List (Nat × Nat)) : Prop where
  tree : PredTree start 0 P
  nonzero : ∀ v ∈ keys P, v ≠ 0
  pred_edge : ∀ v u, (v, u) ∈ P → v ≠ start →
    ∃ L, t.edge u v = some L ∧ L.is_expired t.now t.ttl = false

theorem lookup_suffix {P Q pre : List (Nat × Nat)} (hP : P = pre ++ Q) (hnd : (keys P).Nodup)
    {k : Nat} (hk : k ∈ keys Q) : P.lookup k = Q.lookup k := by
  subst hP
  rw [keys_append, List.nodup_append] at hnd
  exact lookup_append_of_not_mem fun hm => hnd.2.2 k hm k hk rfl

theorem walk_spec {t : DetectTable} {start : Nat} {P : List (Nat × Nat)}
    (hts : ∀ a b L, t.edge a b = some L → L.ts = b) (hr : WalkReady t start P) {Q : List (Nat × Nat)}
    (hQ : PredTree start 0 Q) : ∀ pre, P = pre ++ Q → ∀ v ∈ keys Q, ∀ fuel, Q.length ≤ fuel →
      ∀ acc, ∃ es, DetectTable.generate_wait_chain.walk t start P fuel v acc = some (acc ++ es) ∧
        IsChain t start v es.reverse := by
  induction hQ with
  | root =>
    intro pre hP v hv fuel hfuel acc
    have hvs : v = start := by simpa using hv
    subst hvs
    obtain ⟨f, rfl⟩ : ∃ f, fuel = f + 1 := ⟨fuel - 1, by simp at hfuel; omega⟩
    have hl : P.lookup v = some 0 := by
      rw [lookup_suffix hP hr.tree.nodup hv]
      simp
    exact ⟨[], by simp [DetectTable.generate_wait_chain.walk, hl], rfl⟩
  | @cons w u rest hw hu hrest ih =>
    intro pre hP v hv fuel hfuel acc
    have hP' : P = (pre ++ [(w, u)]) ++ rest := by simp [hP]
    rcases List.mem_cons.mp hv with rfl | hvr
    · obtain ⟨f, rfl⟩ : ∃ f, fuel = f + 1 := ⟨fuel - 1, by simp at hfuel; omega⟩
      have hl : P.lookup v = some u := by
        rw [lookup_suffix hP hr.tree.nodup hv]
        simp
      have hu0 : u ≠ 0 := hr.nonzero u (by simp [hP', hu])
      have hvs : v ≠ start := fun he => hw (he ▸ hrest.root_mem)
      obtain ⟨L, hL, hlive⟩ := hr.pred_edge v u (by simp [hP]) hvs
      have hLts : L.ts = v := hts _ _ _ hL
      obtain ⟨es, hes, hch⟩ := ih (pre ++ [(v, u)]) hP' u hu f (by simp at hfuel; omega)
        (acc ++ [L.to_wait_for_entry u])
      refine ⟨L.to_wait_for_entry u :: es, ?_, ?_⟩
      · simp [DetectTable.generate_wait_chain.walk, hl, hu0, hL, hes]
      · have hlast := isChain_single (hLts ▸ hL : t.edge u L.ts = some L) hlive
        rw [hLts] at hlast
        simpa using isChain_append hch hlast
    · exact ih (pre ++ [(w, u)]) hP' v hvr fuel (by simp at hfuel; omega) acc

theorem generate_wait_chain_spec {t : DetectTable} {start v : Nat} {P : List (Nat × Nat)}
    (hts : ∀ a b L, t.edge a b = some L → L.ts = b) (hr : WalkReady t start P) (hv : v ∈ keys P) :
    ∃ chain, t.generate_wait_chain start v P = some chain ∧ IsChain t start v chain := by
  obtain ⟨es, hes, hch⟩ := walk_spec hts hr hr.tree [] rfl v hv P.length (Nat.le_refl _) []
  exact ⟨es.reverse, by simp [DetectTable.generate_wait_chain, hes], hch⟩

/-- The invariant of the search from `start` for `txn` in the table `t0`, at the table `t`
pruned so far, with its stack and predecessor map. -/
structure SearchInv (t0 : DetectTable) (txn start : Nat) (t : DetectTable) (stack : List Nat)
    (pushed : List (Nat × Nat)) : Prop where
  now_eq : t.now = t0.now
  ttl_eq : t.ttl = t0.ttl
  wf : MapWF t.wait_for_map
  sub : ∀ a b L, t.edge a b = some L → t0.edge a b = some L
  keep : ∀ a b L, t0.edge a b = some L → L.is_expired t0.now t0.ttl = false → t.edge a b = some L
  tree : PredTree start 0 pushed
  nonzero : ∀ v ∈ keys pushed, v ≠ 0
  pred_edge : ∀ v u, (v, u) ∈ pushed → v ≠ start → u ∉ stack ∧ ∃ L, t.edge u v = some L
  stack_sub : ∀ v ∈ stack, v ∈ keys pushed
  stack_nodup : stack.Nodup
  txn_out : txn ∉ keys pushed
  closed : ∀ v ∈ keys pushed, v ∉ stack → ∀ w L, t.edge v w = some L →
    L.is_expired t0.now t0.ttl = false ∧ w ∈ keys pushed
  bound : keys pushed ⊆ start :: targets t0

section Search

variable {t0 t t' : DetectTable} {txn start curr : Nat} {stack : List Nat}
  {pushed : List (Nat × Nat)}

theorem searchInv_init (hwf : MapWF t0.wait_for_map) (hstart : start ≠ 0) (htxn : txn ≠ start) :
    SearchInv t0 txn start t0 [start] [(start, 0)] where
  now_eq := rfl
  ttl_eq := rfl
  wf := hwf
  sub _ _ _ h := h
  keep _ _ _ h _ := h
  tree := PredTree.root
  nonzero v hv := by simp at hv; omega
  pred_edge v u hm hv := by simp at hm; omega
  stack_sub v hv := by simpa using hv
  stack_nodup := by simp
  txn_out := by simpa using htxn
  closed v hv hvs := by simp at hv hvs; omega
  bound v hv := by simp at hv; simp [hv]

theorem SearchInv.length_le (hs : SearchInv t0 txn start t stack pushed) :
    pushed.length ≤ (start :: targets t0).length := by
  have := List.Nodup.length_le_of_subset hs.tree.nodup hs.bound
  simpa [keys] using this

theorem SearchInv.unreachable (hs : SearchInv t0 txn start t [] pushed) :
    ¬ ReflTransGen (Stored t) start txn := fun h =>
  hs.txn_out (reflTransGen_closed (S := (· ∈ keys pushed))
    (fun _ _ hx ⟨L, hL⟩ => (hs.closed _ hx List.not_mem_nil _ L hL).2) hs.tree.root_mem h)

theorem SearchInv.keep_pruned (hs : SearchInv t0 txn start t stack pushed) (hp : Pruned t t' curr)
    {a b : Nat} {L : Locks} (hL : t0.edge a b = some L) (hlive : L.is_expired t0.now t0.ttl = false) :
    t'.edge a b = some L := by
  apply hp.edge_keep (hs.keep a b L hL hlive)
  rw [hs.now_eq, hs.ttl_eq]
  exact hlive

theorem SearchInv.walkReady (hnz : ∀ a b L, t0.edge a b = some L → b ≠ 0)
    (hs : SearchInv t0 txn start t (curr :: stack) pushed) (hp : Pruned t t' curr)
    {new : List Nat} (hnd : new.Nodup) (hfresh : ∀ v ∈ new, v ∉ keys pushed)
    (hedge : ∀ v ∈ new, ∃ L, t'.edge curr v = some L) :
    WalkReady t' start (new.map (fun v => (v, curr)) ++ pushed) where
  tree := hs.tree.append_fresh hnd hfresh (hs.stack_sub curr List.mem_cons_self)
  nonzero v hv := by
    rw [keys_append, keys_map_pair, List.mem_append] at hv
    rcases hv with hv | hv
    · obtain ⟨L, hL⟩ := hedge v hv
      exact hnz _ _ _ (hs.sub _ _ _ (hp.edge_sub hL))
    · exact hs.nonzero v hv
  pred_edge v u hm hv := by
    rw [hp.1, hp.2.1]
    rcases List.mem_append.mp hm with hm | hm
    · obtain ⟨v', hv', he⟩ := List.mem_map.mp hm
      obtain ⟨rfl, rfl⟩ := Prod.mk.inj he
      obtain ⟨L, hL⟩ := hedge v' hv'
      exact ⟨L, hL, hp.edge_live hL⟩
    · obtain ⟨hus, L, hL⟩ := hs.pred_edge v u hm hv
      have huc : u ≠ curr := fun he => hus (he ▸ List.mem_cons_self)
      refine ⟨L, by rw [hp.edge_ne huc]; exact hL, ?_⟩
      rw [hs.now_eq, hs.ttl_eq]
      exact (hs.closed u (hs.tree.ne_root hm hv) hus v L hL).1

theorem SearchInv.step (hnz : ∀ a b L, t0.edge a b = some L → b ≠ 0)
    (hs : SearchInv t0 txn start t (curr :: stack) pushed) (hp : Pruned t t' curr)
    {new : List Nat} (hnd : new.Nodup) (hfresh : ∀ v ∈ new, v ∉ keys pushed)
    (hedge : ∀ v ∈ new, ∃ L, t'.edge curr v = some L)
    (hcover : ∀ w L, t'.edge curr w = some L → w ≠ txn ∧ (w ∈ new ∨ w ∈ keys pushed)) :
    SearchInv t0 txn start t' (new ++ stack) (new.map (fun v => (v, curr)) ++ pushed) := by
  have hcurr : curr ∈ keys pushed := hs.stack_sub curr List.mem_cons_self
  have hcs : curr ∉ stack := (List.nodup_cons.mp hs.stack_nodup).1
  have hcn : curr ∉ new := fun h => hfresh curr h hcurr
  have hr := hs.walkReady hnz hp hnd hfresh hedge
  refine ⟨hp.1.trans hs.now_eq, hp.2.1.trans hs.ttl_eq, hp.2.2.1,
    fun a b L hL => hs.sub a b L (hp.edge_sub hL), fun a b L hL hlive => ?_, hr.tree, hr.nonzero,
    fun v u hm hv => ?_, fun v hv => ?_, ?_, ?_, fun v hv hvs w L hL => ?_, fun v hv => ?_⟩
  · exact hs.keep_pruned hp hL hlive
  · rcases List.mem_append.mp hm with hm | hm
    · obtain ⟨v', hv', he⟩ := List.mem_map.mp hm
      obtain ⟨rfl, rfl⟩ := Prod.mk.inj he
      exact ⟨by simp [hcn, hcs], hedge v' hv'⟩
    · obtain ⟨hus, L, hL⟩ := hs.pred_edge v u hm hv
      have hu := hs.tree.ne_root hm hv
      have huc : u ≠ curr := fun he => hus (he ▸ List.mem_cons_self)
      refine ⟨?_, L, by rw [hp.edge_ne huc]; exact hL⟩
      simp only [List.mem_append, not_or]
      exact ⟨fun h => hfresh u h hu, fun h => hus (List.mem_cons_of_mem _ h)⟩
  · rcases List.mem_append.mp hv with hv | hv
    · simp [hv]
    · simp [hs.stack_sub v (List.mem_cons_of_mem _ hv)]
  · refine List.nodup_append.mpr ⟨hnd, (List.nodup_cons.mp hs.stack_nodup).2, fun a ha b hb => ?_⟩
    rintro rfl
    exact hfresh a ha (hs.stack_sub a (List.mem_cons_of_mem _ hb))
  · simp only [keys_append, keys_map_pair, List.mem_append, not_or]
    refine ⟨fun h => ?_, hs.txn_out⟩
    obtain ⟨L, hL⟩ := hedge txn h
    exact (hcover txn L hL).1 rfl
  · have hvn : v ∉ new := fun h => hvs (List.mem_append_left _ h)
    have hv' : v ∈ keys pushed := by
      simpa [hvn] using hv
    have hw : w ∈ new ∨ w ∈ keys pushed → w ∈ keys (new.map (fun v => (v, curr)) ++ pushed) := by
      simp
    by_cases hvc : v = curr
    · subst hvc
      refine ⟨?_, hw (hcover w L hL).2⟩
      rw [← hs.now_eq, ← hs.ttl_eq]
      exact hp.edge_live hL
    · rw [hp.edge_ne hvc] at hL
      have hvs' : v ∉ curr :: stack := by
        simp only [List.mem_cons, not_or]
        exact ⟨hvc, fun h => hvs (List.mem_append_right _ h)⟩
      obtain ⟨hlive, hwp⟩ := hs.closed v hv' hvs' w L hL
      exact ⟨hlive, hw (Or.inr hwp)⟩
  · rw [keys_append, keys_map_pair, List.mem_append] at hv
    rcases hv with hv | hv
    · obtain ⟨L, hL⟩ := hedge v hv
      exact List.mem_cons_of_mem _ (mem_targets_of_edge (hs.sub _ _ _ (hp.edge_sub hL)))
    · exact hs.bound hv

/-- What the search leaves: a pruned table, and either the goal unreachable along stored
edges or a chain of live edges to it. -/
structure SearchOut (t0 : DetectTable) (txn start : Nat) (r : Option (Nat × List WaitForEntry))
    (t : DetectTable) : Prop where
  now_eq : t.now = t0.now
  ttl_eq : t.ttl = t0.ttl
  wf : MapWF t.wait_for_map
  sub : ∀ a b L, t.edge a b = some L → t0.edge a b = some L
  keep : ∀ a b L, t0.edge a b = some L → L.is_expired t0.now t0.ttl = false → t.edge a b = some L
  unreachable : r = none → ¬ ReflTransGen (Stored t) start txn
  chain : ∀ hash chain, r = some (hash, chain) → IsChain t start txn chain

theorem SearchInv.out (hs : SearchInv t0 txn start t stack pushed)
    {r : Option (Nat × List WaitForEntry)} (hr : r = none → ¬ ReflTransGen (Stored t) start txn)
    (hc : ∀ hash chain, r = some (hash, chain) → IsChain t start txn chain) :
    SearchOut t0 txn start r t :=
  ⟨hs.now_eq, hs.ttl_eq, hs.wf, hs.sub, hs.keep, hr, hc⟩

theorem SearchInv.found (hts : ∀ a b L, t0.edge a b = some L → L.ts = b)
    (hnz : ∀ a b L, t0.edge a b = some L → b ≠ 0)
    (hs : SearchInv t0 txn start t (curr :: stack) pushed) (hp : Pruned t t' curr)
    {new : List Nat} (hnd : new.Nodup) (hfresh : ∀ v ∈ new, v ∉ keys pushed)
    (hedge : ∀ v ∈ new, ∃ L, t'.edge curr v = some L) {locks : Locks}
    (hlocks : t'.edge curr txn = some locks) :
    ∃ hash chain, (t'.generate_wait_chain start curr (new.map (fun v => (v, curr)) ++ pushed)).map
        (fun wait_chain => (some ((locks.keys.head locks.keys_ne_nil).1,
          wait_chain ++ [locks.to_wait_for_entry curr]), t')) = some (some (hash, chain), t') ∧
      SearchOut t0 txn start (some (hash, chain)) t' := by
  have hts' : ∀ a b L, t'.edge a b = some L → L.ts = b :=
    fun a b L hL => hts a b L (hs.sub a b L (hp.edge_sub hL))
  have hr := hs.walkReady hnz hp hnd hfresh hedge
  have hcurr : curr ∈ keys (new.map (fun v => (v, curr)) ++ pushed) := by
    rw [keys_append, keys_map_pair]
    exact List.mem_append_right _ (hs.stack_sub curr List.mem_cons_self)
  obtain ⟨chain, hgen, hch⟩ := generate_wait_chain_spec hts' hr hcurr
  have hlts : locks.ts = txn := hts' _ _ _ hlocks
  have hlast := isChain_single (hlts ▸ hlocks : t'.edge curr locks.ts = some locks)
    (by rw [hp.1, hp.2.1]; exact hp.edge_live hlocks)
  rw [hlts] at hlast
  refine ⟨(locks.keys.head locks.keys_ne_nil).1, chain ++ [locks.to_wait_for_entry curr],
    by simp [hgen], ?_⟩
  refine ⟨hp.1.trans hs.now_eq, hp.2.1.trans hs.ttl_eq, hp.2.2.1,
    fun a b L hL => hs.sub a b L (hp.edge_sub hL), fun a b L hL hlive => hs.keep_pruned hp hL hlive,
    (fun h => nomatch h), fun hash chain' h => ?_⟩
  obtain ⟨-, rfl⟩ := Prod.mk.inj (Option.some.inj h)
  exact isChain_append hch hlast

theorem do_detect_loop_spec (hts : ∀ a b L, t0.edge a b = some L → L.ts = b)
    (hnz : ∀ a b L, t0.edge a b = some L → b ≠ 0) (fuel : Nat) :
    ∀ t stack pushed, SearchInv t0 txn start t stack pushed →
      stack.length + ((start :: targets t0).length - pushed.length) < fuel →
      ∃ r t', DetectTable.do_detect_loop txn start fuel t stack pushed = some (r, t') ∧
        SearchOut t0 txn start r t' := by
  induction fuel with
  | zero => intro _ _ _ _ h; omega
  | succ fuel ih =>
    intro t stack pushed hs hfuel
    cases stack with
    | nil =>
      exact ⟨none, t, rfl, hs.out (fun _ => hs.unreachable) (by simp)⟩
    | cons curr stack =>
      -- every pass pops `curr` and pushes `new`, which lowers the measure by one
      have hnext : ∀ t' new, SearchInv t0 txn start t' (new ++ stack)
          (new.map (fun v => (v, curr)) ++ pushed) →
          ∃ r t'', DetectTable.do_detect_loop txn start fuel t' (new ++ stack)
            (new.map (fun v => (v, curr)) ++ pushed) = some (r, t'') ∧
            SearchOut t0 txn start r t'' := by
        intro t' new hs'
        apply ih _ _ _ hs'
        have := hs'.length_le
        simp only [List.length_append, List.length_map, List.length_cons] at this hfuel ⊢
        omega
      simp only [DetectTable.do_detect_loop]
      cases hl : t.wait_for_map.lookup curr with
      | none =>
        simpa using hnext t [] (hs.step hnz (pruned_of_lookup_none hs.wf hl) List.nodup_nil
          (by simp) (by simp) (fun w L hL => by simp [edge_eq, hl] at hL))
      | some ws =>
        simp only
        split
        · rename_i hnil
          have hcover : ∀ w L, ({ t with wait_for_map := erase curr t.wait_for_map } :
              DetectTable).edge curr w = some L → w ≠ txn ∧ (w ∈ [] ∨ w ∈ keys pushed) := by
            intro w L hL
            rw [edge_erase, if_pos rfl] at hL
            cases hL
          simpa using hnext _ [] (hs.step hnz (pruned_erase hs.wf hl hnil) List.nodup_nil
            (by simp) (by simp) hcover)
        · set t' : DetectTable := { t with wait_for_map := modify curr (retain_live t.now t.ttl) t.wait_for_map } with ht'
          have hp : Pruned t t' curr := pruned_modify hs.wf curr
          have hwsnd := keys_retain_live t.now t.ttl ws (hs.wf.inner curr ws hl)
          have hedge_ws : ∀ w L, t'.edge curr w = some L ↔ (w, L) ∈ retain_live t.now t.ttl ws := by
            intro w L
            rw [ht', edge_modify_self hl, mem_iff_lookup hwsnd]
          have hkeys : ∀ v ∈ keys (retain_live t.now t.ttl ws), ∃ L, t'.edge curr v = some L := by
            intro v hv
            obtain ⟨L, hL⟩ := mem_keys_iff.mp hv
            exact ⟨L, (hedge_ws v L).mpr hL⟩
          split
          · rename_i locks pushed' hpw
            obtain ⟨new, rfl, hnd, hnew, hmem⟩ := push_wait_for_inl hpw
            obtain ⟨hash, chain, hres, hout⟩ := hs.found hts hnz hp hnd (fun v hv => (hnew v hv).1)
              (fun v hv => hkeys v (hnew v hv).2) ((hedge_ws txn locks).mpr hmem)
            exact ⟨_, _, hres, hout⟩
          · rename_i stack' pushed' hpw
            obtain ⟨new, rfl, rfl, hnd, hnew, hall⟩ := push_wait_for_inr hpw
            apply hnext _ new
            refine hs.step hnz hp hnd (fun v hv => (hnew v hv).1) (fun v hv => hkeys v (hnew v hv).2) ?_
            intro w L hL
            have hw := hall w (mem_keys_iff.mpr ⟨L, (hedge_ws w L).mp hL⟩)
            refine ⟨hw.1, ?_⟩
            simpa using hw.2

theorem do_detect_spec (hwf : MapWF t0.wait_for_map) (hts : ∀ a b L, t0.edge a b = some L → L.ts = b)
    (hnz : ∀ a b L, t0.edge a b = some L → b ≠ 0) (hstart : start ≠ 0) (htxn : txn ≠ start) :
    ∃ r t', t0.do_detect txn start = some (r, t') ∧ SearchOut t0 txn start r t' := by
  apply do_detect_loop_spec hts hnz _ t0 [start] [(start, 0)] (searchInv_init hwf hstart htxn)
  simp only [List.length_cons, List.length_nil, length_targets]
  omega

end Search

end Tikv.Deadlock
