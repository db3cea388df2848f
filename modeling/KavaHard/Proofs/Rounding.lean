import KavaHard.Proofs.Sync

/-! The rounding of the interest of `SyncSupplyInterest`.

Line 154 computes `(NewDecFromInt(s) Quo u) Mul c - s`, then `TruncateInt`. Each of
`Quo` and `Mul` rounds to the nearest 18th digit, so the product is within about half
a unit of `s·c/u` (`quo_mul_bounds`), from above or from below. With `1 ≤ u ≤ c`,
`c < 10^18` and `s·c/u < 2^255` no step overflows and the truncated interest is
non-negative (`accruedInterest_spec`); the amount it yields is at most
`s·c/u + (c + 1)/(2·10^18)` (`accruedInterest_le`), less than one unit above the exact
value, and it can be that unit above it. The statements are on the raw integers of
the `Dec`s, `10^18` times their values. -/
namespace KavaHard.Keeper
open KavaHard.Sdk KavaHard.Types Coins

/-! ### Arithmetic of one interest -/

/-- The rounding of `Quo` then `Mul`, on any positive precision `P`. -/
theorem quo_mul_bounds {s U C P : Int} (hP : 0 < P) (hU : 0 < U) (hC0 : 0 ≤ C)
    {quo q m : Int} (hquo : quo = s * P * P * P / U)
    (hq1 : 2 * (q * P) ≤ 2 * quo + P) (hq2 : 2 * quo ≤ 2 * (q * P) + P)
    (hm1 : 2 * (m * P) ≤ 2 * (q * C) + P) (hm2 : 2 * (q * C) ≤ 2 * (m * P) + P) :
    2 * m * P * U ≤ 2 * s * P ^ 2 * C + C * U + P * U ∧
      2 * s * P ^ 3 * C ≤ 2 * m * P ^ 2 * U + 2 * U * C + P * C * U + P ^ 2 * U := by
  have hd1 : quo * U ≤ s * P * P * P := hquo ▸ Int.ediv_mul_le _ hU.ne'
  have hd2 : s * P * P * P < quo * U + U := by
    have h1 := Int.ediv_add_emod (s * P * P * P) U
    have h3 := Int.emod_lt_of_pos (s * P * P * P) hU
    rw [← hquo] at h1
    linarith
  constructor
  · have e1 : 2 * (q * P) * C * U ≤ (2 * quo + P) * C * U :=
      mul_le_mul_of_nonneg_right (mul_le_mul_of_nonneg_right hq1 hC0) hU.le
    have e2 : quo * U * C ≤ s * P * P * P * C := mul_le_mul_of_nonneg_right hd1 hC0
    have e3 : 2 * (m * P) * P * U ≤ (2 * (q * C) + P) * P * U :=
      mul_le_mul_of_nonneg_right (mul_le_mul_of_nonneg_right hm1 hP.le) hU.le
    have e5 : 2 * m * P * U * P ≤ (2 * s * P ^ 2 * C + C * U + P * U) * P := by linarith
    exact le_of_mul_le_mul_right e5 hP
  · have e1 : (2 * quo - P) * C * U ≤ 2 * (q * P) * C * U :=
      mul_le_mul_of_nonneg_right (mul_le_mul_of_nonneg_right (by linarith) hC0) hU.le
    have e2 : (s * P * P * P - U) * C ≤ quo * U * C := mul_le_mul_of_nonneg_right (by linarith) hC0
    have e3 : (2 * (q * C) - P) * P * U ≤ 2 * (m * P) * P * U :=
      mul_le_mul_of_nonneg_right (mul_le_mul_of_nonneg_right (by linarith) hP.le) hU.le
    linarith

/-- Truncating a value above `-P` gives a non-negative integer. -/
theorem tdiv_nonneg_of_gt {x P : Int} (hP : 0 < P) (hx : -P < x) : 0 ≤ x.tdiv P := by
  rcases le_or_lt 0 x with h | h
  · exact Int.tdiv_nonneg h hP.le
  · rw [← neg_neg x, Int.neg_tdiv, Int.tdiv_eq_zero_of_lt (by omega) (by omega)]
    rfl

/-- A non-negative truncation is at most the value, or zero. -/
theorem tdiv_mul_le_max {x P : Int} (hP : 0 < P) (h0 : 0 ≤ x.tdiv P) : x.tdiv P * P ≤ max x 0 := by
  rcases le_or_lt 0 x with h | h
  · rw [Int.tdiv_eq_ediv h hP.le]
    exact le_max_of_le_left (Int.ediv_mul_le x hP.ne')
  · have : x.tdiv P ≤ 0 := by
      rw [← neg_neg x, Int.neg_tdiv]
      exact neg_nonpos.mpr (Int.tdiv_nonneg (by omega) hP.le)
    rw [le_antisymm this h0, zero_mul]
    exact le_max_right _ _

/-- The amount after adding the truncated interest `t` of the product `m`, against
`s·C/U`. -/
theorem truncated_le {s U C P m t : Int} (hs : 0 ≤ s) (hP : 0 < P) (hU : 0 < U) (hUC : U ≤ C)
    (hup : 2 * m * P * U ≤ 2 * s * P ^ 2 * C + C * U + P * U) (ht0 : 0 ≤ t)
    (htP : t * P ≤ max (m - s * P) 0) :
    2 * (s + t) * P ^ 2 * U ≤ 2 * s * P ^ 2 * C + C * U + P * U := by
  have hPU : 0 ≤ P * U := mul_nonneg hP.le hU.le
  have hCU : 0 ≤ C * U := mul_nonneg (by omega) hU.le
  rcases le_or_lt (m - s * P) 0 with hneg | hpos
  · rw [max_eq_right hneg] at htP
    obtain rfl : t = 0 := le_antisymm (le_of_mul_le_mul_right (by simpa using htP) hP) ht0
    have := mul_le_mul_of_nonneg_left (mul_le_mul_of_nonneg_left hUC hs) (by positivity : (0 : Int) ≤ 2 * P ^ 2)
    linarith
  · rw [max_eq_left hpos.le] at htP
    have := mul_le_mul_of_nonneg_right (show (s + t) * P ≤ m by linarith) hPU
    linarith

/-- Below `s·c/u ≤ 2^255 - 1`, the amount with its interest stays below `2^255`. -/
theorem add_interest_lt {s interest U C P B : Int} (hP : 0 < P) (hU : P ≤ U) (hC : C < P * P)
    (hsC : s * C ≤ (B - 1) * U) (hle : 2 * (s + interest) * P ^ 2 * U ≤ 2 * s * P ^ 2 * C + C * U + P * U) :
    s + interest < B := by
  have hU0 : 0 < U := by omega
  have e1 := mul_le_mul_of_nonneg_left hsC (show (0 : Int) ≤ 2 * P ^ 2 by positivity)
  have e2 : C * U < P * P * U := mul_lt_mul_of_pos_right hC hU0
  have e3 : P * U ≤ P * P * U := mul_le_mul_of_nonneg_right (le_mul_of_one_le_right hP.le (by omega)) hU0.le
  exact lt_of_mul_lt_mul_right (a := 2 * P ^ 2 * U) (by linarith) (by positivity)

/-- The range of each step of the interest computation, on any precision `P ≥ 3`:
`q` and `m` stay below `B·P + P`, and `m` is above `s·P - P`. -/
theorem interest_range {s U C P B : Int} (hs : 0 ≤ s) (hP : 3 ≤ P) (hU : P ≤ U) (hUC : U ≤ C)
    (hC : C < P * P) (hsC : s * C < B * U) {quo q m : Int} (hquo : quo = s * P * P * P / U)
    (hq1 : 2 * (q * P) ≤ 2 * quo + P) (hq2 : 2 * quo ≤ 2 * (q * P) + P)
    (hm1 : 2 * (m * P) ≤ 2 * (q * C) + P) (hm2 : 2 * (q * C) ≤ 2 * (m * P) + P) :
    s * P < B * P ∧ q < B * P ∧ m < B * P + P ∧ -P < m - s * P := by
  have hP0 : 0 < P := by omega
  have hU0 : 0 < U := by omega
  have hC0 : 0 ≤ C := by omega
  obtain ⟨hup, hlow⟩ := quo_mul_bounds hP0 hU0 hC0 hquo hq1 hq2 hm1 hm2
  have hsB : s < B := by
    have := mul_le_mul_of_nonneg_left hUC hs
    exact lt_of_mul_lt_mul_right (by linarith only [this, hsC]) hU0.le
  have hquo0 : 0 ≤ quo := hquo ▸ Int.ediv_nonneg (by positivity) hU0.le
  have hquoP : quo ≤ s * P * P := by
    have e1 := hquo ▸ Int.ediv_mul_le (s * P * P * P) hU0.ne'
    have e2 := mul_le_mul_of_nonneg_left hU hquo0
    exact le_of_mul_le_mul_right (by linarith only [e1, e2]) hP0
  have hqs : q < s * P + 1 := lt_of_mul_lt_mul_right (by linarith only [hq1, hquoP, hP0]) hP0.le
  have hsP : s * P < B * P := mul_lt_mul_of_pos_right hsB hP0
  refine ⟨hsP, by omega, ?_, ?_⟩
  · have e1 : 2 * P ^ 2 * (s * C) < 2 * P ^ 2 * (B * U) := mul_lt_mul_of_pos_left hsC (by positivity)
    have e2 : C * U < P * P * U := mul_lt_mul_of_pos_right hC hU0
    have e3 : P * U ≤ P * P * U := mul_le_mul_of_nonneg_right (le_mul_of_one_le_right hP0.le (by omega)) hU0.le
    exact lt_of_mul_lt_mul_right (a := P * U) (by linarith only [hup, e1, e2, e3]) (by positivity)
  · have e1 : 2 * s * P ^ 3 * U ≤ 2 * s * P ^ 3 * C := mul_le_mul_of_nonneg_left hUC (by positivity)
    have e2 : ((2 + P) * C + P ^ 2) * U < 2 * P ^ 3 * U := by
      have f1 : (2 + P) * C < (2 + P) * (P * P) := mul_lt_mul_of_pos_left hC (by omega)
      have f2 : 3 * P ^ 2 ≤ P * P ^ 2 := mul_le_mul_of_nonneg_right hP (by positivity)
      exact mul_lt_mul_of_pos_right (by linarith only [f1, f2]) hU0
    exact lt_of_mul_lt_mul_right (a := P ^ 2 * U) (by linarith only [hlow, e1, e2]) (by positivity)

/-- With `1 ≤ u ≤ c < 10^18` and `s·c/u < 2^255`, the interest of `s` from `u` to `c`
is computed without a panic and is non-negative. -/
theorem accruedInterest_spec {s U C : Int} (hs : 0 ≤ s) (hU : (precisionReuse : Int) ≤ U) (hUC : U ≤ C)
    (hC : C < precisionReuse * precisionReuse) (hsC : s * C < 2 ^ maxBitLen * U) :
    ∃ interest, accruedInterest (Dec.newDecFromInt s) ⟨U⟩ ⟨C⟩ = .ok interest ∧ 0 ≤ interest := by
  have hU0 : 0 < U := lt_of_lt_of_le (by norm_num [precisionReuse]) hU
  have hP3 : (3 : Int) ≤ precisionReuse := by norm_num [precisionReuse]
  have hB : (2 : Int) ^ maxBitLen * precisionReuse + precisionReuse ≤ 2 ^ 315 := by
    norm_num [maxBitLen, precisionReuse]
  have hs255 : 2 ^ maxBitLen * (precisionReuse : Int) ≤ 2 ^ 315 := by
    norm_num [maxBitLen, precisionReuse]
  simp only [accruedInterest, Dec.newDecFromInt, Dec.quo, Dec.mul, Dec.sub, Dec.truncateInt, hU0.ne',
    if_false]
  generalize hPdef : ((precisionReuse : Nat) : Int) = P at *
  generalize hBdef : (2 : Int) ^ maxBitLen = B at *
  have hP0 : 0 < P := by omega
  have hx0 : 0 ≤ s * P * P * P := mul_nonneg (mul_nonneg (mul_nonneg hs hP0.le) hP0.le) hP0.le
  rw [Int.tdiv_eq_ediv hx0 hU0.le]
  obtain ⟨hq1, hq2⟩ := chop_spec (s * P * P * P / U)
  obtain ⟨hm1, hm2⟩ := chop_spec (chopPrecisionAndRound (s * P * P * P / U) * C)
  rw [hPdef] at hq1 hq2 hm1 hm2
  have hq0 := chop_nonneg (Int.ediv_nonneg hx0 hU0.le)
  generalize chopPrecisionAndRound (s * P * P * P / U) = q at *
  have hm0 := chop_nonneg (mul_nonneg hq0 (by omega : 0 ≤ C))
  generalize hmdef : chopPrecisionAndRound (q * C) = m at *
  obtain ⟨hsP, hqB, hmB, hlow⟩ := interest_range hs hP3 hU hUC hC hsC rfl hq1 hq2 hm1 hm2
  obtain ⟨hup, -⟩ := quo_mul_bounds hP0 hU0 (by omega) rfl hq1 hq2 hm1 hm2
  have ht0 := tdiv_nonneg_of_gt hP0 hlow
  have hfin := truncated_le hs hP0 hU0 hUC hup ht0 (tdiv_mul_le_max hP0 ht0)
  generalize htdef : (m - s * P).tdiv P = t at *
  have htB : t < B := by
    rcases eq_or_lt_of_le hs with rfl | hs1
    · have ht1 := add_interest_lt (B := 1) hP0 hU hC (by simp) hfin
      have hB0 := lt_of_mul_lt_mul_right (a := U) (show 0 * U < B * U by linarith only [hsC]) hU0.le
      omega
    · have hst := add_interest_lt (B := B + 1) hP0 hU hC (by rw [add_sub_cancel_right]; exact hsC.le) hfin
      omega
  have hqr : q.natAbs < 2 ^ maxDecBitLen := by simp only [maxDecBitLen]; omega
  have hmr : m.natAbs < 2 ^ maxDecBitLen := by simp only [maxDecBitLen]; omega
  have hxr : (m - s * P).natAbs < 2 ^ maxDecBitLen := by
    have := mul_nonneg hs hP0.le
    simp only [maxDecBitLen]; omega
  have htr : ¬ 2 ^ maxBitLen ≤ t.natAbs := by
    have : ((2 ^ maxBitLen : Nat) : Int) = B := by rw [← hBdef]; push_cast; rfl
    omega
  refine ⟨t, ?_, ht0⟩
  rw [Dec.checked_eq hqr, ok_bind]
  dsimp only
  rw [hmdef, Dec.checked_eq hmr, ok_bind]
  dsimp only
  rw [Dec.checked_eq hxr, ok_bind]
  dsimp only
  rw [htdef]
  simp [bitLenExceeds_iff, htr]

/-- A non-negative interest computed from `u` to `c ≥ u` yields at most
`s·c/u + (c + 1)/(2·10^18)`, whatever the factors' size. -/
theorem accruedInterest_le {s interest : Int} {u c : Dec} (hs : 0 ≤ s) (hu : (precisionReuse : Int) ≤ u.i)
    (huc : u.i ≤ c.i) (h : accruedInterest (Dec.newDecFromInt s) u c = .ok interest) (h0 : 0 ≤ interest) :
    2 * (s + interest) * precisionReuse ^ 2 * u.i ≤
      2 * s * precisionReuse ^ 2 * c.i + c.i * u.i + precisionReuse * u.i := by
  obtain ⟨q, hq, h⟩ := bind_eq_ok.mp h
  obtain ⟨m, hm, h⟩ := bind_eq_ok.mp h
  obtain ⟨d, hd, h⟩ := bind_eq_ok.mp h
  obtain ⟨-, hq⟩ := Dec.quo_ok hq
  have hm := Dec.mul_ok hm
  have hd := Dec.sub_ok hd
  have ht := Dec.truncateInt_ok h
  have hU0 : 0 < u.i := lt_of_lt_of_le (by norm_num [precisionReuse]) hu
  simp only [Dec.newDecFromInt] at hq hd
  generalize hPdef : ((precisionReuse : Nat) : Int) = P at *
  have hP0 : 0 < P := by rw [← hPdef]; norm_num [precisionReuse]
  rw [Int.tdiv_eq_ediv (mul_nonneg (mul_nonneg (mul_nonneg hs hP0.le) hP0.le) hP0.le) hU0.le] at hq
  obtain ⟨hq1, hq2⟩ := chop_spec (s * P * P * P / u.i)
  obtain ⟨hm1, hm2⟩ := chop_spec (q.i * c.i)
  rw [hPdef, ← hq] at hq1 hq2
  rw [hPdef, ← hm] at hm1 hm2
  obtain ⟨hup, -⟩ := quo_mul_bounds hP0 hU0 (by omega) rfl hq1 hq2 hm1 hm2
  rw [ht, hd] at h0 ⊢
  exact truncated_le hs hP0 hU0 huc hup h0 (tdiv_mul_le_max hP0 h0)

/-! ### A sync within range -/

/-- The bounds under which a coin's interest is computed from snapshot `u` to the global
factor `c`: `1 ≤ u ≤ c < 10^18`, and `s·c/u ≤ 2^255 - 1`. -/
def InRange (coin : Coin) (u c : Dec) : Prop :=
  (precisionReuse : Int) ≤ u.i ∧ u.i ≤ c.i ∧ c.i < precisionReuse * precisionReuse ∧
    coin.amount * c.i ≤ (2 ^ maxBitLen - 1) * u.i

/-- A coin in range is credited a non-negative interest that keeps it below `2^255`. -/
theorem coinInterest_inRange {factors : String → Option Dec} {index : List InterestFactor} {coin : Coin}
    (h0 : 0 ≤ coin.amount)
    (h : ∀ u, findFactor coin.denom index = some u → InRange coin u ((factors coin.denom).getD Dec.zeroDec)) :
    0 ≤ creditOf factors index coin ∧ coinInterest factors index coin = .ok (creditOf factors index coin) ∧
      (creditOf factors index coin ≠ 0 → coin.amount + creditOf factors index coin < 2 ^ maxBitLen) := by
  cases hf : findFactor coin.denom index with
  | none => simp [creditOf, coinInterest, hf]
  | some u =>
    obtain ⟨hu, huc, hc, hsc⟩ := h u hf
    obtain ⟨i, hi, hi0⟩ := accruedInterest_spec h0 hu huc hc
      (lt_of_le_of_lt hsc (mul_lt_mul_of_pos_right (by omega) (by linarith [show (0 : Int) < precisionReuse by norm_num [precisionReuse]])))
    have hle := accruedInterest_le h0 hu huc hi hi0
    simp only [creditOf, coinInterest, hf, hi]
    exact ⟨hi0, trivial, fun _ => add_interest_lt (by norm_num [precisionReuse]) hu hc hsc hle⟩

/-- Within range, a sync of a valid position does not panic, credits positive coins
only, and lowers no holding. -/
theorem sync_safe_within_range (factors : String → Option Dec) (position : Position)
    (hvalid : position.amount.isValid = true)
    (hrange : ∀ coin ∈ position.amount, ∀ u, findFactor coin.denom position.index = some u →
      InRange coin u ((factors coin.denom).getD Dec.zeroDec)) :
    ∃ synced interest, syncPosition factors position = .ok (synced, interest) ∧
      (∀ coin ∈ interest, 0 < coin.amount) ∧
      ∀ denom, position.amount.sumOf denom ≤ synced.amount.sumOf denom := by
  obtain ⟨hpos, hs⟩ := (isValid_iff _).mp hvalid
  have hc := fun coin hcoin => coinInterest_inRange (hpos coin hcoin).le (hrange coin hcoin)
  obtain ⟨synced, hsync, -, hsum, -⟩ := syncPosition_spec factors position (creditOf factors position.index)
    hs (fun c hc' => ⟨(hc c hc').2.1, (hc c hc').1⟩) fun c hc' hne => by
      have hlt := (hc c hc').2.2 hne
      have h0 := (hc c hc').1
      have := hpos c hc'
      rw [Bool.eq_false_iff, ne_eq, bitLenExceeds_iff]
      simp only [maxBitLen] at hlt ⊢
      omega
  refine ⟨synced, _, hsync, fun coin hcoin => ?_, fun denom => ?_⟩
  · obtain ⟨hmem, hz⟩ := mem_removeZeroCoins hcoin
    obtain ⟨c, hc', rfl⟩ := List.mem_map.mp hmem
    exact lt_of_le_of_ne (hc c hc').1 (Ne.symm hz)
  · have : 0 ≤ sumOf (position.amount.map fun c => ⟨c.denom, creditOf factors position.index c⟩) denom :=
      sumOf_nonneg (fun y hy => by
        obtain ⟨c, hc', rfl⟩ := List.mem_map.mp hy
        exact (hc c hc').1) denom
    rw [hsum]
    omega

theorem sync_safe_within_range_ukava :
    ∃ synced interest, syncPosition (fun _ => some ⟨1500000000000000000⟩)
        ⟨[⟨"ukava", 100⟩], [⟨"ukava", Dec.oneDec⟩]⟩ = .ok (synced, interest) ∧
      (∀ coin ∈ interest, 0 < coin.amount) ∧
      ∀ denom, sumOf [⟨"ukava", 100⟩] denom ≤ synced.amount.sumOf denom :=
  sync_safe_within_range _ _ (by decide) fun coin hc u hu => by
    rw [List.mem_singleton] at hc
    subst hc
    simp only [findFactor, if_pos, Option.some.injEq] at hu
    subst hu
    norm_num [InRange, Dec.oneDec, precisionReuse, maxBitLen]

/-- At the edge of `s·c/u < 2^255` the interest is computed, but the final `Add` of
line 161 reaches `2^255` and panics. -/
theorem sync_overflows_below_bound :
    (precisionReuse : Int) ≤ 230000000000000000000000000000000000 ∧
    (230000000000000000000000000000000000 : Int) ≤ 910000000000000000000000000000000000 ∧
    (910000000000000000000000000000000000 : Int) < precisionReuse * precisionReuse ∧
    (14633066222298200520561168435163856486951701358844686664327057319681329569882 : Int) *
        910000000000000000000000000000000000 < 2 ^ maxBitLen * 230000000000000000000000000000000000 ∧
    syncPosition (fun _ => some ⟨910000000000000000000000000000000000⟩)
      ⟨[⟨"ukava", 14633066222298200520561168435163856486951701358844686664327057319681329569882⟩],
        [⟨"ukava", ⟨230000000000000000000000000000000000⟩⟩]⟩ = .error "Int overflow" :=
  ⟨by norm_num [precisionReuse], by norm_num, by norm_num [precisionReuse], by norm_num [maxBitLen], rfl⟩

end KavaHard.Keeper
