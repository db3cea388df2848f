import KavaHard.Proofs.Sync
import KavaHard.Keeper.Run

/-! A second `SyncSupplyInterest`.

A sync that returns leaves its position settled (`syncPosition_settled`): every coin of
the new balance is of a denom the loop visited, the final `Add` keeps no zero, and the
loop left each visited denom's first index entry at the global factor, whether it moved
an entry there or appended one. A second sync over a settled position then reads each
snapshot at the global factor `c` and computes `((s Quo c) Mul c) - s`. Each of the two
roundings is at most half a unit; the first is scaled by `c/10^18` on the way back, and
below `10^18` that stays under one unit (`quo_mul_self_near`), so `TruncateInt` gives
zero for every stored amount `s`, of either sign. It credits nothing, sets each entry to
the value it holds, and `Add` of nothing returns the balance (`syncPosition_of_settled`).

It may still panic: where a held denom has no global factor the first sync appended an
entry at zero, and the second divides by it; and an amount past `sdk.Int`'s range
overflows `Quo`. Otherwise it returns (`syncPosition_of_settled_ok`). A panic is
reverted, so as calls of a run, two syncs leave the ledger as one does
(`sync_twice_as_once`). -/
namespace KavaHard.Keeper
open KavaHard.Sdk KavaHard.Types Coins

/-! ### Rounding at a ratio of one -/

/-- `big.Int.Quo` truncates toward zero: the quotient times the divisor is within the
divisor of the dividend, on either sign. -/
theorem tdiv_mul_near (x : Int) {c : Int} (hc : 0 < c) : x - c < x.tdiv c * c ∧ x.tdiv c * c < x + c := by
  rcases le_or_lt 0 x with hx | hx
  · rw [Int.tdiv_eq_ediv hx hc.le]
    have h1 := Int.ediv_mul_le x hc.ne'
    have h2 := Int.lt_ediv_add_one_mul_self x hc
    constructor <;> linarith only [h1, h2, hc]
  · have h := Int.neg_tdiv (-x) c
    rw [neg_neg, Int.tdiv_eq_ediv (a := -x) (by omega) hc.le] at h
    rw [h]
    have h1 := Int.ediv_mul_le (-x) hc.ne'
    have h2 := Int.lt_ediv_add_one_mul_self (-x) hc
    constructor <;> linarith only [h1, h2, hc]

/-- A truncation of less than one unit is zero, on either sign. -/
theorem tdiv_eq_zero_of_natAbs_lt {x P : Int} (h : x.natAbs < P.natAbs) : x.tdiv P = 0 := by
  rw [← Int.natAbs_eq_zero, Int.natAbs_tdiv]
  exact Nat.div_eq_of_lt h

/-- `Quo` then `Mul` by one factor `c < P²` come back within one unit `P` of `s·P`, for
any `s`: `2P²(m - sP)` is the rounding of `Mul` times `P`, that of `Quo` times `c`, and
that of `big.Int.Quo` twice, which add up to less than `2P³`. -/
theorem quo_mul_self_near {s c P : Int} (hP : 3 ≤ P) (hc : 0 < c) (hcP : c < P * P) {q m : Int}
    (hq1 : 2 * (q * P) ≤ 2 * (s * P * P * P).tdiv c + P) (hq2 : 2 * (s * P * P * P).tdiv c ≤ 2 * (q * P) + P)
    (hm1 : 2 * (m * P) ≤ 2 * (q * c) + P) (hm2 : 2 * (q * c) ≤ 2 * (m * P) + P) :
    -P < m - s * P ∧ m - s * P < P := by
  obtain ⟨ht1, ht2⟩ := tdiv_mul_near (s * P * P * P) hc
  generalize (s * P * P * P).tdiv c = T at *
  have hP0 : 0 < P := by omega
  have e1 := mul_le_mul_of_nonneg_left hq1 hc.le
  have e2 := mul_le_mul_of_nonneg_left hq2 hc.le
  have e3 := mul_le_mul_of_nonneg_left hm1 hP0.le
  have e4 := mul_le_mul_of_nonneg_left hm2 hP0.le
  have e5 : c * P < P * P * P := mul_lt_mul_of_pos_right hcP hP0
  have e6 : 3 * (P * P) ≤ P * (P * P) := mul_le_mul_of_nonneg_right hP (by positivity)
  have hP2 : 0 < 2 * (P * P) := by positivity
  constructor
  · exact lt_of_mul_lt_mul_left (a := 2 * (P * P)) (by linarith only [e2, e4, e5, e6, ht1, hcP]) hP2.le
  · exact lt_of_mul_lt_mul_left (a := 2 * (P * P)) (by linarith only [e1, e3, e5, e6, ht2, hcP]) hP2.le

/-- `Quo` by a factor `c ≥ P` of an amount below `B` in magnitude gives at most
`(B - 1)·P` in magnitude, rounding included. -/
theorem quo_self_bound {s c P B q : Int} (hP : 0 < P) (hc : P ≤ c) (hsB : -B < s ∧ s < B)
    (hq1 : 2 * (q * P) ≤ 2 * (s * P * P * P).tdiv c + P) (hq2 : 2 * (s * P * P * P).tdiv c ≤ 2 * (q * P) + P) :
    -((B - 1) * P) ≤ q ∧ q ≤ (B - 1) * P := by
  obtain ⟨ht1, ht2⟩ := tdiv_mul_near (s * P * P * P) (hP.trans_le hc)
  generalize (s * P * P * P).tdiv c = T at *
  have hB : 0 ≤ B - 1 := by omega
  have hPPP : 0 ≤ P * P * P := by positivity
  have e1 : s * (P * P * P) ≤ (B - 1) * (P * P * P) := mul_le_mul_of_nonneg_right (by omega) hPPP
  have e2 : -(B - 1) * (P * P * P) ≤ s * (P * P * P) := mul_le_mul_of_nonneg_right (by omega) hPPP
  have e3 : (B - 1) * (P * P) * P ≤ (B - 1) * (P * P) * c :=
    mul_le_mul_of_nonneg_left hc (mul_nonneg hB (by positivity))
  have hT1 : T < (B - 1) * (P * P) + 1 := lt_of_mul_lt_mul_right (a := c) (by linarith only [ht2, e1, e3]) (by omega)
  have hT2 : -((B - 1) * (P * P)) - 1 < T := lt_of_mul_lt_mul_right (a := c) (by linarith only [ht1, e2, e3]) (by omega)
  have hq3 : q < (B - 1) * P + 1 :=
    lt_of_mul_lt_mul_right (a := P) (by linarith only [hq1, hP, show T ≤ (B - 1) * (P * P) by omega]) hP.le
  have hq4 : -((B - 1) * P) - 1 < q :=
    lt_of_mul_lt_mul_right (a := P) (by linarith only [hq2, hP, show -((B - 1) * (P * P)) ≤ T by omega]) hP.le
  omega

/-- Interest from a snapshot equal to the global factor is zero, whenever it is
computed. -/
theorem accruedInterest_self {s : Int} {c : Dec} {interest : Int}
    (hc : (precisionReuse : Int) ≤ c.i) (hcP : c.i < precisionReuse * precisionReuse)
    (h : accruedInterest (Dec.newDecFromInt s) c c = .ok interest) : interest = 0 := by
  obtain ⟨q, hq, h⟩ := bind_eq_ok.mp h
  obtain ⟨m, hm, h⟩ := bind_eq_ok.mp h
  obtain ⟨d, hd, h⟩ := bind_eq_ok.mp h
  obtain ⟨-, hq⟩ := Dec.quo_ok hq
  rw [Dec.truncateInt_ok h, Dec.sub_ok hd]
  obtain ⟨hq1, hq2⟩ := chop_spec (((Dec.newDecFromInt s).i * precisionReuse * precisionReuse).tdiv c.i)
  obtain ⟨hm1, hm2⟩ := chop_spec (q.i * c.i)
  rw [← hq] at hq1 hq2
  rw [← Dec.mul_ok hm] at hm1 hm2
  have hP3 : (3 : Int) ≤ precisionReuse := by norm_num [precisionReuse]
  simp only [Dec.newDecFromInt] at hq1 hq2 ⊢
  generalize ((precisionReuse : Nat) : Int) = P at *
  obtain ⟨h1, h2⟩ := quo_mul_self_near hP3 (by omega) hcP hq1 hq2 hm1 hm2
  exact tdiv_eq_zero_of_natAbs_lt (by omega)

/-- Below `2^255` the interest from a snapshot equal to the global factor is computed
without a panic, and it is zero. -/
theorem accruedInterest_self_ok {s : Int} {c : Dec} (hs : s.natAbs < 2 ^ maxBitLen)
    (hc : (precisionReuse : Int) ≤ c.i) (hcP : c.i < precisionReuse * precisionReuse) :
    accruedInterest (Dec.newDecFromInt s) c c = .ok 0 := by
  have hP3 : (3 : Int) ≤ precisionReuse := by norm_num [precisionReuse]
  have hBP : (2 : Int) ^ maxBitLen * precisionReuse < 2 ^ maxDecBitLen := by
    norm_num [maxBitLen, maxDecBitLen, precisionReuse]
  have hP315 : (precisionReuse : Int) < 2 ^ maxDecBitLen := by norm_num [maxDecBitLen, precisionReuse]
  have hsB : -(2 : Int) ^ maxBitLen < s ∧ s < 2 ^ maxBitLen := by simp only [maxBitLen] at hs ⊢; omega
  have hc0 : c.i ≠ 0 := by omega
  simp only [accruedInterest, Dec.newDecFromInt, Dec.quo, Dec.mul, Dec.sub, Dec.truncateInt, hc0, if_false]
  obtain ⟨hq1, hq2⟩ := chop_spec ((s * precisionReuse * precisionReuse * precisionReuse).tdiv c.i)
  generalize hqdef : chopPrecisionAndRound ((s * precisionReuse * precisionReuse * precisionReuse).tdiv c.i) = q at *
  obtain ⟨hm1, hm2⟩ := chop_spec (q * c.i)
  generalize hmdef : chopPrecisionAndRound (q * c.i) = m at *
  generalize ((precisionReuse : Nat) : Int) = P at *
  generalize (2 : Int) ^ maxBitLen = B at *
  have hP0 : 0 < P := by omega
  obtain ⟨hd1, hd2⟩ := quo_mul_self_near hP3 (by omega) hcP hq1 hq2 hm1 hm2
  obtain ⟨hq3, hq4⟩ := quo_self_bound hP0 hc hsB hq1 hq2
  have hsP1 : s * P ≤ (B - 1) * P := mul_le_mul_of_nonneg_right (by omega) hP0.le
  have hsP2 : -(B - 1) * P ≤ s * P := mul_le_mul_of_nonneg_right (by omega) hP0.le
  have hq : -(B * P) < q ∧ q < B * P := ⟨by linarith only [hq3, hP0], by linarith only [hq4, hP0]⟩
  have hm : -(B * P) < m ∧ m < B * P := ⟨by linarith only [hd1, hsP2], by linarith only [hd2, hsP1]⟩
  have hqr : q.natAbs < 2 ^ maxDecBitLen := by simp only [maxDecBitLen] at hBP ⊢; omega
  have hmr : m.natAbs < 2 ^ maxDecBitLen := by simp only [maxDecBitLen] at hBP ⊢; omega
  have hxr : (m - s * P).natAbs < 2 ^ maxDecBitLen := by simp only [maxDecBitLen] at hP315 ⊢; omega
  rw [Dec.checked_eq hqr, ok_bind]
  dsimp only
  rw [hmdef, Dec.checked_eq hmr, ok_bind]
  dsimp only
  rw [Dec.checked_eq hxr, ok_bind]
  dsimp only
  rw [tdiv_eq_zero_of_natAbs_lt (by omega)]
  rfl

/-! ### The loop over a settled index -/

/-- Every stored global supply factor is at least `1.0` and below `10^18`. -/
def FactorsInRange (factors : String → Option Dec) : Prop :=
  ∀ denom f, factors denom = some f → (precisionReuse : Int) ≤ f.i ∧ f.i < precisionReuse * precisionReuse

/-- The interest a sync computes from a snapshot at the global factor is zero: a factor
in range gives zero, and a missing one, read as zero, panics. -/
theorem accruedInterest_resync {factors : String → Option Dec} (hfr : FactorsInRange factors) {denom : String}
    {s interest : Int}
    (h : accruedInterest (Dec.newDecFromInt s) ((factors denom).getD Dec.zeroDec)
      ((factors denom).getD Dec.zeroDec) = .ok interest) : interest = 0 := by
  cases hf : factors denom with
  | none => rw [hf, Option.getD_none, accruedInterest_zero] at h; cases h
  | some f =>
    rw [hf, Option.getD_some] at h
    exact accruedInterest_self (hfr denom f hf).1 (hfr denom f hf).2 h

/-- What a loop that returns leaves: each visited denom's first entry at its global
factor (zero where none is stored), the other entries as they were, and a running total
that gained only coins of visited denoms. -/
theorem syncIndex_settles (factors : String → Option Dec) (amount : Coins) :
    ∀ (coins : Coins) (index : List InterestFactor) (tni : Coins) (r : List InterestFactor × Coins),
      syncIndex factors amount coins index tni = .ok r →
      (∀ denom, findFactor denom r.1 = if denom ∈ coins.map (·.denom)
        then some ((factors denom).getD Dec.zeroDec) else findFactor denom index) ∧
      ∀ c ∈ r.2, (∃ x ∈ tni, x.denom = c.denom) ∨ c.denom ∈ coins.map (·.denom)
  | [], index, tni, r, h => by
    cases h
    exact ⟨fun _ => rfl, fun c hc => .inl ⟨c, hc, rfl⟩⟩
  | coin :: rest, index, tni, r, h => by
    rw [syncIndex] at h
    cases hf : findFactor coin.denom index with
    | none =>
      rw [hf] at h
      obtain ⟨hfind, hden⟩ := syncIndex_settles factors amount rest _ tni r h
      refine ⟨findFactor_after_visit factors (by simp [findFactor_append, hf, findFactor_cons])
        (fun _ hd => findFactor_append_other hd _ _) hfind, fun c hc => ?_⟩
      exact (hden c hc).imp_right (List.mem_cons_of_mem _)
    | some u =>
      rw [hf] at h
      obtain ⟨_, -, h⟩ := bind_eq_ok.mp h
      obtain ⟨earned, hearned, h⟩ := bind_eq_ok.mp h
      obtain ⟨tni', htni, h⟩ := bind_eq_ok.mp h
      obtain ⟨hfind, hden⟩ := syncIndex_settles factors amount rest _ tni' r h
      refine ⟨findFactor_after_visit factors (by simp [findFactor_setFactor, hf])
        (fun _ hd => findFactor_setFactor_other hd _ _) hfind, fun c hc => ?_⟩
      rcases hden c hc with ⟨x, hx, hxc⟩ | h
      · have hdenom : earned.denom = coin.denom := by
          unfold newCoin at hearned
          split at hearned <;> cases hearned
          rfl
        rcases (mem_safeAdd _ _ _ htni x hx).denom_from with ⟨y, hy, hyx⟩ | ⟨y, hy, hyx⟩
        · exact .inl ⟨y, hy, hyx.trans hxc⟩
        · obtain rfl := List.mem_singleton.mp hy
          exact .inr (by rw [← hxc, ← hyx, hdenom]; exact List.mem_cons_self _ _)
      · exact .inr (List.mem_cons_of_mem _ h)

/-- A visit that finds the denom's first entry at its global factor and computes zero
interest leaves the index and an empty running total as they were. -/
theorem syncIndex_cons_of_zero {factors : String → Option Dec} {amount : Coins} {coin : Coin} {rest : Coins}
    {index : List InterestFactor}
    (hf : findFactor coin.denom index = some ((factors coin.denom).getD Dec.zeroDec))
    (hi : accruedInterest (Dec.newDecFromInt (amount.amountOf coin.denom)) ((factors coin.denom).getD Dec.zeroDec)
      ((factors coin.denom).getD Dec.zeroDec) = .ok 0) :
    syncIndex factors amount (coin :: rest) index [] = syncIndex factors amount rest index [] := by
  rw [syncIndex, hf]
  simp only [hi, ok_bind, newCoin, lt_irrefl, if_false, setFactor_of_findFactor hf]
  rfl

/-- The loop over coins whose first entries are all at their global factors, when it
returns, credits nothing and leaves the index. -/
theorem syncIndex_settled {factors : String → Option Dec} (hfr : FactorsInRange factors) (amount : Coins) :
    ∀ (coins : Coins) (index : List InterestFactor) (r : List InterestFactor × Coins),
      (∀ c ∈ coins, findFactor c.denom index = some ((factors c.denom).getD Dec.zeroDec)) →
      syncIndex factors amount coins index [] = .ok r → r = (index, [])
  | [], _, _, _, h => by cases h; rfl
  | coin :: rest, index, r, hset, h => by
    have hf := hset coin (List.mem_cons_self _ _)
    have hi : ∃ i, accruedInterest (Dec.newDecFromInt (amount.amountOf coin.denom))
        ((factors coin.denom).getD Dec.zeroDec) ((factors coin.denom).getD Dec.zeroDec) = .ok i := by
      rw [syncIndex, hf] at h
      obtain ⟨i, hi, -⟩ := bind_eq_ok.mp h
      exact ⟨i, hi⟩
    obtain ⟨i, hi⟩ := hi
    obtain rfl := accruedInterest_resync hfr hi
    rw [syncIndex_cons_of_zero hf hi] at h
    exact syncIndex_settled hfr amount rest index r (fun c hc => hset c (List.mem_cons_of_mem _ hc)) h

/-- The same loop returns when every coin has a global factor and `AmountOf` reads an
amount below `2^255`. -/
theorem syncIndex_settled_ok {factors : String → Option Dec} (hfr : FactorsInRange factors) (amount : Coins) :
    ∀ (coins : Coins) (index : List InterestFactor),
      (∀ c ∈ coins, findFactor c.denom index = some ((factors c.denom).getD Dec.zeroDec) ∧
        (factors c.denom).isSome ∧ (amount.amountOf c.denom).natAbs < 2 ^ maxBitLen) →
      syncIndex factors amount coins index [] = .ok (index, [])
  | [], _, _ => rfl
  | coin :: rest, index, h => by
    obtain ⟨hf, hsome, hs⟩ := h coin (List.mem_cons_self _ _)
    obtain ⟨f, hff⟩ := Option.isSome_iff_exists.mp hsome
    have hi : accruedInterest (Dec.newDecFromInt (amount.amountOf coin.denom))
        ((factors coin.denom).getD Dec.zeroDec) ((factors coin.denom).getD Dec.zeroDec) = .ok 0 := by
      rw [hff, Option.getD_some]
      exact accruedInterest_self_ok hs (hfr _ f hff).1 (hfr _ f hff).2
    rw [syncIndex_cons_of_zero hf hi]
    exact syncIndex_settled_ok hfr amount rest index fun c hc => h c (List.mem_cons_of_mem _ hc)

/-! ### Positions -/

/-- A position as a sync that returned leaves it at `factors`: no zero coin, and each
coin's first index entry at its global factor. -/
def Settled (factors : String → Option Dec) (position : Position) : Prop :=
  ∀ coin ∈ position.amount, coin.amount ≠ 0 ∧
    findFactor coin.denom position.index = some ((factors coin.denom).getD Dec.zeroDec)

/-- A sync that returns leaves the position settled: the final `Add` keeps no zero, and
each of its coins is of a denom the loop visited. -/
theorem syncPosition_settled {factors : String → Option Dec} {position synced : Position} {interest : Coins}
    (h : syncPosition factors position = .ok (synced, interest)) : Settled factors synced := by
  obtain ⟨hloop, hadd⟩ := syncPosition_ok h
  obtain ⟨hfind, hden⟩ := syncIndex_settles factors _ _ _ _ _ hloop
  intro coin hc
  have hsum := mem_safeAdd _ _ _ hadd coin hc
  have hheld : coin.denom ∈ position.amount.map (·.denom) := by
    rcases hsum.denom_from with ⟨x, hx, hxc⟩ | ⟨y, hy, hyc⟩
    · rw [← hxc]
      exact List.mem_map_of_mem _ hx
    · rcases hden y hy with ⟨x, hx, -⟩ | h
      · cases hx
      · rwa [← hyc]
  exact ⟨hsum.1, (hfind coin.denom).trans (if_pos hheld)⟩

/-- A sync of a settled position, when it returns, credits nothing and returns the
position as it was. -/
theorem syncPosition_of_settled {factors : String → Option Dec} (hfr : FactorsInRange factors)
    {position synced : Position} {interest : Coins} (hset : Settled factors position)
    (h : syncPosition factors position = .ok (synced, interest)) : synced = position ∧ interest = [] := by
  obtain ⟨hloop, hadd⟩ := syncPosition_ok h
  obtain ⟨hindex, rfl⟩ := Prod.mk.inj (syncIndex_settled hfr _ _ _ _ (fun c hc => (hset c hc).2) hloop)
  rw [Coins.add, safeAdd_nil_right, removeZeroCoins_eq_self fun c hc => (hset c hc).1] at hadd
  obtain ⟨amount, index⟩ := synced
  cases Except.ok.inj hadd
  cases hindex
  exact ⟨rfl, rfl⟩

/-- It returns when every coin has a global factor and an amount below `2^255`. -/
theorem syncPosition_of_settled_ok {factors : String → Option Dec} (hfr : FactorsInRange factors)
    {position : Position} (hset : Settled factors position)
    (hok : ∀ coin ∈ position.amount, (factors coin.denom).isSome ∧ coin.amount.natAbs < 2 ^ maxBitLen) :
    syncPosition factors position = .ok (position, []) := by
  have hread : ∀ denom, (position.amount.amountOf denom).natAbs < 2 ^ maxBitLen := fun denom => by
    unfold amountOf
    rcases amountOfSearch_mem position.amount.length position.amount with h | ⟨c, hc, h⟩
    · rw [h]
      exact Nat.two_pow_pos _
    · rw [h]
      exact (hok c hc).2
  have hloop := syncIndex_settled_ok hfr position.amount position.amount position.index fun c hc =>
    ⟨(hset c hc).2, (hok c hc).1, hread c.denom⟩
  simp only [syncPosition, hloop, bind, Except.bind, Coins.add, safeAdd_nil_right,
    removeZeroCoins_eq_self fun c hc => (hset c hc).1]
  rfl

/-! ### Two syncs -/

variable {Addr : Type} [DecidableEq Addr]

/-- After a supply sync that returned, the account's record is settled at the global
factors. -/
theorem syncSupplyInterest_settled {addr : Addr} {s s₁ : State Addr} {deposit : Deposit}
    (h : syncSupplyInterest addr s = .ok () s₁) (hdep : s₁.deposits addr = some deposit) :
    Settled s.supplyInterestFactors deposit := by
  rcases syncSupplyInterest_ok h with ⟨hnone, rfl⟩ | ⟨_, synced, _, -, hsync, rfl⟩
  · rw [hnone] at hdep
    cases hdep
  · simp only [setDeposit, Function.update_same, Option.some.injEq] at hdep
    exact hdep ▸ syncPosition_settled hsync

/-- After a supply sync that returned, a second one that returns writes nothing. -/
theorem syncSupplyInterest_resync {addr : Addr} {s s₁ s₂ : State Addr}
    (hfr : FactorsInRange s.supplyInterestFactors)
    (h₁ : syncSupplyInterest addr s = .ok () s₁) (h₂ : syncSupplyInterest addr s₁ = .ok () s₂) : s₂ = s₁ := by
  rcases syncSupplyInterest_ok h₂ with ⟨-, rfl⟩ | ⟨_, _, _, hdep, hsync, rfl⟩
  · rfl
  rw [(syncSupplyInterest_touches h₁).supplyInterestFactors] at hsync
  obtain ⟨rfl, rfl⟩ := syncPosition_of_settled hfr (syncSupplyInterest_settled h₁ hdep) hsync
  simp [setDeposit, ← hdep]

/-- With every stored supply factor in `[1, 10^18)`, two supply syncs of an account as
calls of a run leave the ledger as one does. The second call's sync of the record the
first stored returns that record and credits no coin, or panics; it panics only when a
denom of the record has no global factor or an amount is past `2^255`. -/
theorem sync_twice_as_once (env : Env) (s : State Addr) (addr : Addr)
    (hfr : FactorsInRange s.supplyInterestFactors) :
    run env s [.syncSupplyInterest addr, .syncSupplyInterest addr] = run env s [.syncSupplyInterest addr] ∧
      ∀ s₁ deposit, syncSupplyInterest addr s = .ok () s₁ → s₁.deposits addr = some deposit →
        syncPosition s₁.supplyInterestFactors deposit = .ok (deposit, []) ∨
          (∃ msg, syncPosition s₁.supplyInterestFactors deposit = .error msg) ∧
            ∃ coin ∈ deposit.amount,
              s.supplyInterestFactors coin.denom = none ∨ 2 ^ maxBitLen ≤ coin.amount.natAbs := by
  refine ⟨?_, fun s₁ deposit h₁ hdep => ?_⟩
  · show (syncSupplyInterest addr).after ((syncSupplyInterest addr).after s) = (syncSupplyInterest addr).after s
    rcases syncSupplyInterest_after addr s with h | h
    · rw [h, h]
    · rcases syncSupplyInterest_after addr ((syncSupplyInterest addr).after s) with h' | h'
      · exact h'
      · exact syncSupplyInterest_resync hfr h h'
  have hset := syncSupplyInterest_settled h₁ hdep
  rw [(syncSupplyInterest_touches h₁).supplyInterestFactors]
  by_cases hok : ∀ coin ∈ deposit.amount,
      (s.supplyInterestFactors coin.denom).isSome ∧ coin.amount.natAbs < 2 ^ maxBitLen
  · exact .inl (syncPosition_of_settled_ok hfr hset hok)
  cases hsp : syncPosition s.supplyInterestFactors deposit with
  | ok r =>
    obtain ⟨synced, interest⟩ := r
    obtain ⟨rfl, rfl⟩ := syncPosition_of_settled hfr hset hsp
    exact .inl rfl
  | error msg =>
    push_neg at hok
    obtain ⟨coin, hc, hbad⟩ := hok
    refine .inr ⟨⟨msg, rfl⟩, coin, hc, ?_⟩
    by_cases hsome : (s.supplyInterestFactors coin.denom).isSome
    · exact .inr (hbad hsome)
    · exact .inl (Option.not_isSome_iff_eq_none.mp hsome)

/-- After the supply factor of `tenthBorrowed` doubles, the first sync credits account 0
a hundred ukava, and the second changes nothing. -/
theorem sync_twice_as_once_doubled :
    (run ukavaEnv {tenthBorrowed with supplyInterestFactors := fun _ => some ⟨2000000000000000000⟩}
        [.syncSupplyInterest 0]).deposits 0 = some ⟨[⟨"ukava", 200⟩], [⟨"ukava", ⟨2000000000000000000⟩⟩]⟩ ∧
      FactorsInRange (fun _ => some ⟨2000000000000000000⟩) ∧
      run ukavaEnv {tenthBorrowed with supplyInterestFactors := fun _ => some ⟨2000000000000000000⟩}
          [.syncSupplyInterest 0, .syncSupplyInterest 0] =
        run ukavaEnv {tenthBorrowed with supplyInterestFactors := fun _ => some ⟨2000000000000000000⟩}
          [.syncSupplyInterest 0] ∧
        ∀ s₁ deposit, syncSupplyInterest 0 {tenthBorrowed with supplyInterestFactors := fun _ => some ⟨2000000000000000000⟩} =
            .ok () s₁ → s₁.deposits 0 = some deposit →
          syncPosition s₁.supplyInterestFactors deposit = .ok (deposit, []) ∨
            (∃ msg, syncPosition s₁.supplyInterestFactors deposit = .error msg) ∧
              ∃ coin ∈ deposit.amount, (fun _ => some (⟨2000000000000000000⟩ : Dec)) coin.denom = none ∨
                2 ^ maxBitLen ≤ coin.amount.natAbs :=
  have hfr : FactorsInRange (fun _ => some (⟨2000000000000000000⟩ : Dec)) := fun _ _ h => by
    cases h
    norm_num [precisionReuse]
  ⟨by decide, hfr, sync_twice_as_once ukavaEnv _ 0 hfr⟩

/- A held denom with no global factor and no entry: the first sync appends an entry at
zero, and the second divides by it. -/
example :
    syncPosition (fun _ => none) ⟨[⟨"usdx", 10⟩], []⟩ = .ok (⟨[⟨"usdx", 10⟩], [⟨"usdx", Dec.zeroDec⟩]⟩, []) ∧
      syncPosition (fun _ => none) ⟨[⟨"usdx", 10⟩], [⟨"usdx", Dec.zeroDec⟩]⟩ = .error "division by zero" :=
  ⟨rfl, rfl⟩

end KavaHard.Keeper
