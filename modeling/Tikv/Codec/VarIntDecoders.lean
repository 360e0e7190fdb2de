import Tikv.Codec.VarInt

/-!
The paths of the two var u64 decoders. tikv_util's \x60decode_var_u64\x60 and the codec crate's
\x60try_decode_var_u64\x60 each pick a loop by the length of the whole buffer, and tikv_util also by
its last byte: properties of bytes a decoder should not read. All their loops are
\x60var_u64_loop\x60 bounded differently, and a run of that loop reads only the bytes up to where
it stops (\x60var_u64_loop_inr_congr\x60, \x60var_u64_loop_inl_congr\x60). So each decoder's result
depends only on the bytes it consumes, and the two agree on every number of at most nine bytes
and on every ten-byte one whose last byte is 0 or 1; beyond that tikv_util refuses what the
codec crate reads modulo 2^64.

The zig-zag of the var i64 codecs inverts on every \x60i64\x60, and the length scanner of the codec
crate finds where the decoder stops.
-/

namespace Tikv.Codec

open Tikv.Lib.Varint

def AgreeBelow (d d' : List UInt8) (k : Nat) : Prop :=
  ∀ j < k, d'.getD j 0 = d.getD j 0

theorem AgreeBelow.mono {d d' : List UInt8} {k m : Nat} (h : AgreeBelow d d' k) (hm : m ≤ k) :
    AgreeBelow d d' m :=
  fun j hj => h j (by omega)

theorem agreeBelow_take_append {d : List UInt8} {k : Nat} (hk : k ≤ d.length) (s : List UInt8) :
    AgreeBelow d (d.take k ++ s) k := by
  intro j hj
  rw [List.getD_eq_getElem?_getD, List.getD_eq_getElem?_getD, List.getElem?_append_left
    (by rw [List.length_take]; omega), List.getElem?_take_of_lt hj]

/-! ### The shared loop -/

section Loop

theorem var_u64_loop_inr_bounds {d : List UInt8} {n i k : Nat} {res v : UInt64}
    (h : var_u64_loop d n i res = .inr (v, k)) : i < k ∧ k ≤ n := by
  rw [var_u64_loop] at h
  by_cases hi : i < n
  · rw [if_pos hi] at h
    simp only at h
    by_cases hb : d.getD i 0 < 0x80
    · rw [if_pos hb] at h
      cases h
      omega
    · rw [if_neg hb] at h
      have := var_u64_loop_inr_bounds h
      omega
  · rw [if_neg hi] at h
    cases h
termination_by n - i

theorem var_u64_loop_inr_congr {d d' : List UInt8} {n i k n' : Nat} {res v : UInt64}
    (h : var_u64_loop d n i res = .inr (v, k)) (hd : AgreeBelow d d' k) (hk : k ≤ n') :
    var_u64_loop d' n' i res = .inr (v, k) := by
  obtain ⟨hik, hkn⟩ := var_u64_loop_inr_bounds h
  have hbyte : d'.getD i 0 = d.getD i 0 := hd i hik
  rw [var_u64_loop] at h
  rw [var_u64_loop, if_pos (show i < n' by omega)]
  rw [if_pos (show i < n by omega)] at h
  simp only [hbyte] at h ⊢
  by_cases hb : d.getD i 0 < 0x80
  · rwa [if_pos hb] at h ⊢
  · rw [if_neg hb] at h ⊢
    exact var_u64_loop_inr_congr h hd hk
termination_by n - i

theorem var_u64_loop_inl_congr {d d' : List UInt8} {n i : Nat} {res r : UInt64}
    (h : var_u64_loop d n i res = .inl r) (hd : AgreeBelow d d' n) :
    var_u64_loop d' n i res = .inl r := by
  rw [var_u64_loop] at h
  rw [var_u64_loop]
  by_cases hi : i < n
  · rw [if_pos hi] at h ⊢
    simp only [hd i hi] at h ⊢
    by_cases hb : d.getD i 0 < 0x80
    · rw [if_pos hb] at h
      cases h
    · rw [if_neg hb] at h ⊢
      exact var_u64_loop_inl_congr h hd
  · rw [if_neg hi] at h ⊢
    exact h
termination_by n - i

theorem var_u64_loop_stops {d : List UInt8} {n i j : Nat} {res : UInt64} (hij : i ≤ j) (hjn : j < n)
    (hb : d.getD j 0 < 0x80) : ∃ v k, var_u64_loop d n i res = .inr (v, k) ∧ k ≤ j + 1 := by
  rw [var_u64_loop, if_pos (show i < n by omega)]
  simp only
  by_cases hbi : d.getD i 0 < 0x80
  · rw [if_pos hbi]
    exact ⟨_, _, rfl, by omega⟩
  · rw [if_neg hbi]
    have hij' : i + 1 ≤ j := by
      rcases Nat.lt_or_eq_of_le hij with hlt | rfl
      · exact hlt
      · exact absurd hb hbi
    exact var_u64_loop_stops hij' hjn hb
termination_by n - i

theorem var_u64_loop_runs {d : List UInt8} {n i : Nat} {res : UInt64}
    (hb : ∀ j, i ≤ j → j < n → ¬ d.getD j 0 < 0x80) : ∃ r, var_u64_loop d n i res = .inl r := by
  rw [var_u64_loop]
  by_cases hi : i < n
  · rw [if_pos hi]
    simp only
    rw [if_neg (hb i (Nat.le_refl i) hi)]
    exact var_u64_loop_runs fun j hj hjn => hb j (by omega) hjn
  · rw [if_neg hi]
    exact ⟨_, rfl⟩
termination_by n - i

theorem var_u64_loop_first {d : List UInt8} {n : Nat} (hn : 0 < n) (hb : d.getD 0 0 < 0x80) :
    var_u64_loop d n 0 0 = .inr ((d.getD 0 0).toUInt64 &&& 0x7f, 1) := by
  rw [var_u64_loop, if_pos hn]
  simp only
  rw [if_pos hb]
  congr
  simp

theorem var_u64_loop_inl_byte {d : List UInt8} {n i : Nat} {res r : UInt64}
    (h : var_u64_loop d n i res = .inl r) (hi : i < n) : ¬ d.getD i 0 < 0x80 := by
  intro hb
  rw [var_u64_loop, if_pos hi] at h
  simp only [if_pos hb] at h
  cases h

theorem var_u64_loop_stops_in {d : List UInt8} (hne : d ≠ []) (hlast : d.getLastD 0 < 0x80)
    (h10 : d.length < 10) : ∃ v k, var_u64_loop d 9 0 0 = .inr (v, k) ∧ k ≤ d.length := by
  have hpos := List.length_pos_iff.mpr hne
  have hb : d.getD (d.length - 1) 0 < 0x80 := by
    rwa [List.getLastD_eq_getLast?, List.getLast?_eq_getElem?, ← List.getD_eq_getElem?_getD]
      at hlast
  obtain ⟨v, k, h, hk⟩ := @var_u64_loop_stops d 9 0 (d.length - 1) 0 (Nat.zero_le _)
    (by omega) hb
  exact ⟨v, k, h, by omega⟩

theorem var_u64_loop_inr_le_length {d : List UInt8} {v : UInt64} {k : Nat} (hne : d ≠ [])
    (h : var_u64_loop d 9 0 0 = .inr (v, k)) (hc : d.length ≥ 10 ∨ d.getLastD 0 < 0x80) :
    k ≤ d.length := by
  have hk := (var_u64_loop_inr_bounds h).2
  by_cases h10 : d.length < 10
  · obtain ⟨v', k', h', hk'⟩ := var_u64_loop_stops_in hne (hc.resolve_left (by omega)) h10
    rw [h] at h'
    cases h'
    exact hk'
  · omega

end Loop

/-! ### tikv_util's decoder -/

section Util

theorem decode_var_u64_of_first {d : List UInt8} (hne : d ≠ []) (hb : d.getD 0 0 < 0x80) :
    decode_var_u64 d = .ok ((d.getD 0 0).toUInt64 &&& 0x7f, d.drop 1) := by
  obtain ⟨b, t, rfl⟩ := List.exists_cons_of_ne_nil hne
  simp only [List.getD_cons_zero] at hb ⊢
  rw [decode_var_u64]
  simp only
  rw [if_pos hb]
  rfl

theorem decode_var_u64_of_stop {d : List UInt8} {n k : Nat} {v : UInt64}
    (hb : ¬ d.getD 0 0 < 0x80) (hloop : var_u64_loop d n 0 0 = .inr (v, k)) (h9 : k ≤ 9)
    (hlen : k ≤ d.length) : decode_var_u64 d = .ok (v, d.drop k) := by
  have hk := (var_u64_loop_inr_bounds hloop).1
  have hfast := var_u64_loop_inr_congr hloop (fun _ _ => rfl) h9
  have hslow := var_u64_loop_inr_congr hloop (fun _ _ => rfl) hlen
  obtain ⟨b, t, rfl⟩ :=
    List.exists_cons_of_ne_nil (List.ne_nil_of_length_pos (show 0 < d.length by omega))
  simp only [List.getD_cons_zero] at hb
  rw [decode_var_u64]
  simp only
  rw [if_neg hb]
  split
  · rw [hfast]
  · rw [decode_var_u64_slow, hslow]

theorem decode_var_u64_of_run {d : List UInt8} {r : UInt64} (hlen : 10 ≤ d.length)
    (hloop : var_u64_loop d 9 0 0 = .inl r) (h9 : d.getD 9 0 ≤ 1) :
    decode_var_u64 d =
      .ok (r ||| ((d.getD 9 0).toUInt64 &&& 0x7f) <<< (9 * 7 : Nat).toUInt64, d.drop 10) := by
  have hb := var_u64_loop_inl_byte hloop (by decide)
  obtain ⟨b, t, rfl⟩ :=
    List.exists_cons_of_ne_nil (List.ne_nil_of_length_pos (show 0 < d.length by omega))
  simp only [List.getD_cons_zero] at hb
  rw [decode_var_u64]
  simp only
  rw [if_neg hb, if_pos (Or.inl hlen), hloop]
  simp only
  rw [if_pos h9]

theorem decode_var_u64_cases {d : List UInt8} {v : UInt64} {rest : List UInt8}
    (h : decode_var_u64 d = .ok (v, rest)) :
    (d ≠ [] ∧ d.getD 0 0 < 0x80 ∧ v = (d.getD 0 0).toUInt64 &&& 0x7f ∧ rest = d.drop 1) ∨
    (∃ n k, ¬ d.getD 0 0 < 0x80 ∧ var_u64_loop d n 0 0 = .inr (v, k) ∧ k ≤ 9 ∧
      k ≤ d.length ∧ rest = d.drop k) ∨
    (∃ r, 10 ≤ d.length ∧ var_u64_loop d 9 0 0 = .inl r ∧ d.getD 9 0 ≤ 1 ∧
      v = r ||| ((d.getD 9 0).toUInt64 &&& 0x7f) <<< (9 * 7 : Nat).toUInt64 ∧
      rest = d.drop 10) := by
  cases d with
  | nil => simp [decode_var_u64, decode_var_u64_slow, var_u64_loop] at h
  | cons b t =>
    have hne : b :: t ≠ [] := List.cons_ne_nil b t
    rw [decode_var_u64] at h
    simp only at h
    by_cases hb : b < 0x80
    · rw [if_pos hb] at h
      simp only [Except.ok.injEq, Prod.mk.injEq] at h
      obtain ⟨rfl, rfl⟩ := h
      exact Or.inl ⟨hne, hb, rfl, rfl⟩
    rw [if_neg hb] at h
    by_cases hc : (b :: t).length ≥ 10 ∨ (b :: t).getLastD 0 < 0x80
    · rw [if_pos hc] at h
      split at h
      · rename_i res k hloop
        simp only [Except.ok.injEq, Prod.mk.injEq] at h
        obtain ⟨rfl, rfl⟩ := h
        exact Or.inr (Or.inl ⟨9, k, hb, hloop, (var_u64_loop_inr_bounds hloop).2,
          var_u64_loop_inr_le_length hne hloop hc, rfl⟩)
      · rename_i res hloop
        -- the run reached the tenth byte, so the slice has one: a shorter slice ends a number
        have hlen : 10 ≤ (b :: t).length := by
          by_contra h10
          obtain ⟨_, _, h', _⟩ := var_u64_loop_stops_in hne (hc.resolve_left (by omega))
            (by omega)
          rw [hloop] at h'
          cases h'
        split at h
        · rename_i h9
          simp only [Except.ok.injEq, Prod.mk.injEq] at h
          obtain ⟨rfl, rfl⟩ := h
          exact Or.inr (Or.inr ⟨res, hlen, hloop, h9, rfl, rfl⟩)
        · cases h
    · rw [if_neg hc, decode_var_u64_slow] at h
      split at h
      · rename_i res k hloop
        simp only [Except.ok.injEq, Prod.mk.injEq] at h
        obtain ⟨rfl, rfl⟩ := h
        have hk := (var_u64_loop_inr_bounds hloop).2
        exact Or.inr (Or.inl ⟨_, k, hb, hloop, by omega, hk, rfl⟩)
      · cases h

theorem decode_var_u64_ok {d : List UInt8} {v : UInt64} {rest : List UInt8}
    (h : decode_var_u64 d = .ok (v, rest)) :
    ∃ k, k ≤ d.length ∧ rest = d.drop k ∧
      ∀ d', AgreeBelow d d' k → k ≤ d'.length → decode_var_u64 d' = .ok (v, d'.drop k) := by
  rcases decode_var_u64_cases h with ⟨hne, hb, rfl, rfl⟩ | ⟨n, k, hb, hloop, h9, hlen, rfl⟩ |
    ⟨r, hlen, hloop, h9, rfl, rfl⟩
  · refine ⟨1, List.length_pos_iff.mpr hne, rfl, fun d' hd hlen' => ?_⟩
    rw [← hd 0 (by decide)] at hb ⊢
    exact decode_var_u64_of_first (List.ne_nil_of_length_pos hlen') hb
  · have hk := (var_u64_loop_inr_bounds hloop).1
    refine ⟨k, hlen, rfl, fun d' hd hlen' => ?_⟩
    rw [← hd 0 hk] at hb
    exact decode_var_u64_of_stop hb (var_u64_loop_inr_congr hloop hd (Nat.le_refl k)) h9 hlen'
  · refine ⟨10, hlen, rfl, fun d' hd hlen' => ?_⟩
    rw [← hd 9 (by decide)] at h9 ⊢
    exact decode_var_u64_of_run hlen' (var_u64_loop_inl_congr hloop (hd.mono (by decide))) h9

end Util

/-! ### The codec crate's decoder -/

section Codec

theorem try_decode_var_u64_of_stop {d : List UInt8} {n k : Nat} {v : UInt64}
    (hloop : var_u64_loop d n 0 0 = .inr (v, k)) (h9 : k ≤ 9) (hlen : k ≤ d.length) :
    try_decode_var_u64 d = .ok (v, k) := by
  rw [try_decode_var_u64]
  split
  · rw [var_u64_loop_inr_congr hloop (fun _ _ => rfl) h9]
  · rw [try_decode_var_u64_slow_eq _ _ (Nat.zero_le _),
      var_u64_loop_inr_congr hloop (fun _ _ => rfl) hlen]

theorem try_decode_var_u64_of_run {d : List UInt8} {r : UInt64} (hlen : 10 ≤ d.length)
    (hloop : var_u64_loop d 9 0 0 = .inl r) :
    try_decode_var_u64 d = .ok (r ||| ((d.getD 9 0).toUInt64 &&& 0x01) <<< (63 : UInt64), 10) := by
  rw [try_decode_var_u64, if_pos (by simp only [MAX_VARINT64_LENGTH]; omega), hloop]

theorem try_decode_var_u64_cases {d : List UInt8} {v : UInt64} {n : Nat}
    (h : try_decode_var_u64 d = .ok (v, n)) :
    (∃ m, var_u64_loop d m 0 0 = .inr (v, n) ∧ n ≤ 9 ∧ n ≤ d.length) ∨
    (∃ r, 10 ≤ d.length ∧ var_u64_loop d 9 0 0 = .inl r ∧
      v = r ||| ((d.getD 9 0).toUInt64 &&& 0x01) <<< (63 : UInt64) ∧ n = 10) := by
  rw [try_decode_var_u64] at h
  by_cases hbig : d.length ≥ MAX_VARINT64_LENGTH
  · rw [if_pos hbig] at h
    simp only [MAX_VARINT64_LENGTH] at hbig
    split at h
    · rename_i r hloop
      rw [Except.ok.inj h] at hloop
      have hk := (var_u64_loop_inr_bounds hloop).2
      exact Or.inl ⟨9, hloop, hk, by omega⟩
    · rename_i val hloop
      simp only [Except.ok.injEq, Prod.mk.injEq] at h
      obtain ⟨rfl, rfl⟩ := h
      exact Or.inr ⟨val, hbig, hloop, rfl, rfl⟩
  · rw [if_neg hbig, try_decode_var_u64_slow_eq _ _ (Nat.zero_le _)] at h
    simp only [MAX_VARINT64_LENGTH] at hbig
    split at h
    · rename_i r hloop
      rw [Except.ok.inj h] at hloop
      have hk := (var_u64_loop_inr_bounds hloop).2
      exact Or.inl ⟨_, hloop, by omega, hk⟩
    · cases h

theorem try_decode_var_u64_ok {d : List UInt8} {v : UInt64} {n : Nat}
    (h : try_decode_var_u64 d = .ok (v, n)) :
    n ≤ d.length ∧
      ∀ d', AgreeBelow d d' n → n ≤ d'.length → try_decode_var_u64 d' = .ok (v, n) := by
  rcases try_decode_var_u64_cases h with ⟨m, hloop, h9, hlen⟩ | ⟨r, hlen, hloop, rfl, rfl⟩
  · exact ⟨hlen, fun d' hd hlen' =>
      try_decode_var_u64_of_stop (var_u64_loop_inr_congr hloop hd (Nat.le_refl n)) h9 hlen'⟩
  · refine ⟨hlen, fun d' hd hlen' => ?_⟩
    rw [← hd 9 (by decide)]
    exact try_decode_var_u64_of_run hlen' (var_u64_loop_inl_congr hloop (hd.mono (by decide)))

end Codec

theorem decoders_agree {d : List UInt8}
    (h : (∃ i < 9, i < d.length ∧ d.getD i 0 < 0x80) ∨ (10 ≤ d.length ∧ d.getD 9 0 ≤ 1)) :
    ∃ v n, decode_var_u64 d = .ok (v, d.drop n) ∧ try_decode_var_u64 d = .ok (v, n) := by
  by_cases hA : ∃ i < 9, i < d.length ∧ d.getD i 0 < 0x80
  · obtain ⟨i, hi9, hilen, hb⟩ := hA
    obtain ⟨v, k, hloop, hk⟩ := @var_u64_loop_stops d 9 0 i 0 (Nat.zero_le i) hi9 hb
    have h9 : k ≤ 9 := (var_u64_loop_inr_bounds hloop).2
    refine ⟨v, k, ?_, try_decode_var_u64_of_stop hloop h9 (by omega)⟩
    by_cases h0 : d.getD 0 0 < 0x80
    · -- the first byte is the number, and the loop reads it alone
      rw [var_u64_loop_first (by decide) h0] at hloop
      simp only [Sum.inr.injEq, Prod.mk.injEq] at hloop
      obtain ⟨rfl, rfl⟩ := hloop
      exact decode_var_u64_of_first (List.ne_nil_of_length_pos (by omega)) h0
    · exact decode_var_u64_of_stop h0 hloop h9 (by omega)
  · obtain ⟨hlen, h9⟩ := h.resolve_left hA
    obtain ⟨r, hloop⟩ := @var_u64_loop_runs d 9 0 0 fun j _ hj hb => hA ⟨j, hj, by omega, hb⟩
    -- a tenth byte of 0 or 1 keeps the same bit under either mask
    have hb9 : (d.getD 9 0).toNat ≤ 1 := UInt8.le_iff_toNat_le.mp h9
    have hmask : ((d.getD 9 0).toUInt64 &&& 0x7f) <<< (9 * 7 : Nat).toUInt64 =
        ((d.getD 9 0).toUInt64 &&& 0x01) <<< (63 : UInt64) := by
      rw [show (9 * 7 : Nat).toUInt64 = (63 : UInt64) from rfl]
      congr 1
      rw [← UInt64.toNat_inj, UInt64.toNat_and, UInt64.toNat_and, UInt8.toNat_toUInt64,
        show (0x7f : UInt64).toNat = 2 ^ 7 - 1 from rfl, Nat.and_two_pow_sub_one_eq_mod,
        show (0x01 : UInt64).toNat = 2 ^ 1 - 1 from rfl, Nat.and_two_pow_sub_one_eq_mod]
      omega
    exact ⟨_, 10, by rw [decode_var_u64_of_run hlen hloop h9, hmask],
      try_decode_var_u64_of_run hlen hloop⟩

/-- Both decoders read a number off the bytes they consume, and agree where the first number
has at most nine bytes or a tenth byte of 0 or 1. -/
theorem var_u64_decoders_read_only_consumed_bytes :
    (∀ d v rest, decode_var_u64 d = .ok (v, rest) →
      rest = d.drop (d.length - rest.length) ∧
      ∀ s, decode_var_u64 (d.take (d.length - rest.length) ++ s) = .ok (v, s)) ∧
    (∀ d v n, try_decode_var_u64 d = .ok (v, n) →
      n ≤ d.length ∧ ∀ s, try_decode_var_u64 (d.take n ++ s) = .ok (v, n)) ∧
    (∀ d, ((∃ i < 9, i < d.length ∧ d.getD i 0 < 0x80) ∨ (10 ≤ d.length ∧ d.getD 9 0 ≤ 1)) →
      ∃ v n, decode_var_u64 d = .ok (v, d.drop n) ∧ try_decode_var_u64 d = .ok (v, n)) := by
  refine ⟨fun d v rest h => ?_, fun d v n h => ?_, fun d h => decoders_agree h⟩
  · obtain ⟨k, hk, rfl, hread⟩ := decode_var_u64_ok h
    have hconsumed : d.length - (d.drop k).length = k := by
      rw [List.length_drop]
      omega
    rw [hconsumed]
    refine ⟨rfl, fun s => ?_⟩
    have hlen : (d.take k).length = k := by
      rw [List.length_take]
      omega
    have hlen' : k ≤ (d.take k ++ s).length := by
      rw [List.length_append, hlen]
      omega
    have h' := hread (d.take k ++ s) (agreeBelow_take_append hk s) hlen'
    rwa [List.drop_left' hlen] at h'
  · obtain ⟨hn, hread⟩ := try_decode_var_u64_ok h
    refine ⟨hn, fun s => hread (d.take n ++ s) (agreeBelow_take_append hn s) ?_⟩
    simp only [List.length_append, List.length_take]
    omega

/-! ### The zig-zag of the var i64 codecs -/

section ZigZag

theorem neg_iff_toNat (x : Int64) : x < 0 ↔ 2 ^ 63 ≤ x.toUInt64.toNat := by
  have hlt := x.toUInt64.toNat_lt
  rw [Int64.lt_iff_toInt_lt, Int64.toInt_zero, ← Int64.toInt_toBitVec,
    BitVec.toInt_eq_toNat_cond, Int64.toNat_toBitVec]
  split <;> omega

theorem zigzag_nonneg {x : Int64} (hx : ¬ x < 0) :
    x.toUInt64 <<< 1 &&& 1 = 0 ∧ x.toUInt64 <<< 1 >>> 1 = x.toUInt64 := by
  have hn : x.toUInt64.toNat < 2 ^ 63 := by
    rw [neg_iff_toNat] at hx
    omega
  have hshl : (x.toUInt64 <<< 1).toNat = 2 * x.toUInt64.toNat := by
    rw [UInt64.toNat_shiftLeft, Nat.shiftLeft_eq, show (1 : UInt64).toNat % 64 = 1 from rfl]
    omega
  constructor
  · rw [← UInt64.toNat_inj, UInt64.toNat_and, hshl, show (1 : UInt64).toNat = 1 from rfl,
      Nat.and_one_is_mod, show (0 : UInt64).toNat = 0 from rfl]
    omega
  · rw [← UInt64.toNat_inj, UInt64.toNat_shiftRight, hshl, Nat.shiftRight_eq_div_pow,
      show (1 : UInt64).toNat % 64 = 1 from rfl]
    omega

theorem zigzag_neg {x : Int64} (hx : x < 0) :
    ~~~(x.toUInt64 <<< 1) &&& 1 ≠ 0 ∧ ~~~(~~~(x.toUInt64 <<< 1) >>> 1) = x.toUInt64 := by
  have hn : 2 ^ 63 ≤ x.toUInt64.toNat := (neg_iff_toNat x).mp hx
  have hlt := x.toUInt64.toNat_lt
  have hshl : (x.toUInt64 <<< 1).toNat = 2 * x.toUInt64.toNat - 2 ^ 64 := by
    rw [UInt64.toNat_shiftLeft, Nat.shiftLeft_eq, show (1 : UInt64).toNat % 64 = 1 from rfl]
    omega
  have hnot : (~~~(x.toUInt64 <<< 1)).toNat = 2 ^ 65 - 1 - 2 * x.toUInt64.toNat := by
    rw [UInt64.toNat_not, hshl, show UInt64.size = 2 ^ 64 from rfl]
    omega
  constructor
  · intro h
    have h' := congrArg UInt64.toNat h
    rw [UInt64.toNat_and, hnot, show (1 : UInt64).toNat = 1 from rfl, Nat.and_one_is_mod,
      show (0 : UInt64).toNat = 0 from rfl] at h'
    omega
  · rw [← UInt64.toNat_inj, UInt64.toNat_not, UInt64.toNat_shiftRight, hnot,
      Nat.shiftRight_eq_div_pow, show (1 : UInt64).toNat % 64 = 1 from rfl,
      show UInt64.size = 2 ^ 64 from rfl]
    omega

theorem decode_var_i64_encode_var_i64 (x : Int64) (s : List UInt8) :
    decode_var_i64 (encode_var_i64 x ++ s) = .ok (x, s) := by
  rw [decode_var_i64, encode_var_i64]
  by_cases hx : x < 0
  · obtain ⟨hodd, hback⟩ := zigzag_neg hx
    simp only [if_pos hx, decode_var_u64_encode_var_u64, bind, Except.bind, pure, Except.pure,
      if_neg hodd, hback, Int64.toInt64_toUInt64]
  · obtain ⟨heven, hback⟩ := zigzag_nonneg hx
    simp only [if_neg hx, decode_var_u64_encode_var_u64, bind, Except.bind, pure, Except.pure,
      if_pos heven, hback, Int64.toInt64_toUInt64]

theorem try_decode_var_i64_encode_var_i64 (x : Int64) (s : List UInt8) :
    try_decode_var_i64 (encode_var_i64 x ++ s) = .ok (x, (encode_var_i64 x).length) := by
  rw [try_decode_var_i64, encode_var_i64]
  by_cases hx : x < 0
  · obtain ⟨hodd, hback⟩ := zigzag_neg hx
    simp only [if_pos hx, try_decode_var_u64_encode_var_u64, bind, Except.bind, pure,
      Except.pure, if_neg hodd, hback, Int64.toInt64_toUInt64]
  · obtain ⟨heven, hback⟩ := zigzag_nonneg hx
    simp only [if_neg hx, try_decode_var_u64_encode_var_u64, bind, Except.bind, pure,
      Except.pure, if_pos heven, hback, Int64.toInt64_toUInt64]

end ZigZag

theorem length_encode_var_u64_bounds (v : UInt64) :
    1 ≤ (encode_var_u64 v).length ∧ (encode_var_u64 v).length ≤ 10 := by
  have hle := length_encode_var_u64_le v
  rw [encode_var_u64_eq] at hle ⊢
  exact ⟨length_varint_pos v.toNat, hle⟩

/-- Both crates' var ints round-trip, on every `u64` and every `i64` with anything after
the encoding: the codec crate's decoder reports the encoding's length, of one to ten bytes, and
tikv_util's leaves what follows. -/
theorem var_int_round_trip :
    (∀ (v : UInt64) (s : List UInt8),
      1 ≤ (encode_var_u64 v).length ∧ (encode_var_u64 v).length ≤ 10 ∧
      try_decode_var_u64 (encode_var_u64 v ++ s) = .ok (v, (encode_var_u64 v).length) ∧
      decode_var_u64 (encode_var_u64 v ++ s) = .ok (v, s)) ∧
    (∀ (x : Int64) (s : List UInt8),
      1 ≤ (encode_var_i64 x).length ∧ (encode_var_i64 x).length ≤ 10 ∧
      try_decode_var_i64 (encode_var_i64 x ++ s) = .ok (x, (encode_var_i64 x).length) ∧
      decode_var_i64 (encode_var_i64 x ++ s) = .ok (x, s)) := by
  refine ⟨fun v s => ?_, fun x s => ?_⟩
  · obtain ⟨hpos, hle⟩ := length_encode_var_u64_bounds v
    exact ⟨hpos, hle, try_decode_var_u64_encode_var_u64 v s, decode_var_u64_encode_var_u64 v s⟩
  · obtain ⟨hpos, hle⟩ := length_encode_var_u64_bounds
      (if x < 0 then ~~~(x.toUInt64 <<< 1) else x.toUInt64 <<< 1)
    exact ⟨hpos, hle, try_decode_var_i64_encode_var_i64 x s, decode_var_i64_encode_var_i64 x s⟩

/-! ### The length scanner -/

theorem first_var_int_len_loop_eq (buf : List UInt8) (n i : Nat) (res : UInt64) :
    first_var_int_len_loop buf n i =
      match var_u64_loop buf n i res with
      | .inr (_, k) => some k
      | .inl _ => none := by
  rw [first_var_int_len_loop, var_u64_loop]
  by_cases hi : i < n
  · rw [if_pos hi, if_pos hi]
    simp only
    by_cases hb : buf.getD i 0 < 0x80
    · rw [if_pos hb, if_pos hb]
    · rw [if_neg hb, if_neg hb, first_var_int_len_loop_eq buf n (i + 1)]
  · rw [if_neg hi, if_neg hi]
termination_by n - i

theorem get_first_encoded_var_int_len_of_ok {d : List UInt8} {v : UInt64} {n : Nat}
    (h : try_decode_var_u64 d = .ok (v, n)) : get_first_encoded_var_int_len d = n := by
  rw [get_first_encoded_var_int_len, first_var_int_len_loop_eq d 9 0 0,
    first_var_int_len_loop_eq d d.length 0 0]
  rcases try_decode_var_u64_cases h with ⟨m, hloop, h9, hlen⟩ | ⟨r, hlen, hloop, -, rfl⟩
  · rw [var_u64_loop_inr_congr hloop (fun _ _ => rfl) h9,
      var_u64_loop_inr_congr hloop (fun _ _ => rfl) hlen]
    split <;> rfl
  · rw [if_pos (by simp only [MAX_VARINT64_LENGTH]; omega), hloop]
    rfl

end Tikv.Codec
