import KavaHard.Proofs.Admission

/-! What each call returns.

Deposit checks its coins after it has created their factors and synced the caller
(lines 15-34), so a refusal leaves what the capture and sync wrote. A Deposit of a
denom no schedule names never returns: it fails with the capture's error, or with
`ErrInvalidDepositDenom` naming the first such denom (`deposit_refuses_unlisted`). A
Deposit the balance does not cover fails in the transfer, which replaces the bank's
insufficient-funds error by one naming the first coin the balance holds less of
(`depositTransfer_uncovered`).

Withdraw refuses, after its sync, an account with no record (`ErrDepositNotFound`, line
180) and coins of which the synced record holds less in some denom
(`ErrNegativeBorrowedCoins`, line 190), whatever the LTV check would say
(`withdraw_refusals`).

A first Deposit, by an account with neither a deposit nor a borrow record, of listed
valid coins that the balance covers and the module account has room for, returns: its
capture reads a zero standing, its syncs find nothing, and its LTV update moves nothing.
It writes exactly the record of the coins indexed at their factors, the balance less
the coins and the module account plus them (`first_deposit`). -/
namespace KavaHard.Keeper
open KavaHard.Sdk KavaHard.Types Coins Method

variable {Addr : Type} [DecidableEq Addr]

/-! ### Calls after their capture -/

/-- A Deposit whose capture and sync returned is its commit from there. -/
theorem deposit_of_captureAndSync {env : Env} {depositor : Addr} {coins : Coins} {s sA : State Addr}
    {standing : Dec × Bool} (hc : captureAndSync env depositor (initSupplyInterestFactors env coins s) = .ok standing sA) :
    deposit env depositor coins s = depositCommit env depositor coins standing.1 standing.2 sA := by
  rw [deposit, modify_bind]
  show EStateM.bind _ _ _ = _
  unfold EStateM.bind
  rw [hc]

/-- A Withdraw whose capture and sync returned is its commit from there. -/
theorem withdraw_of_captureAndSync {env : Env} {depositor : Addr} {coins : Coins} {s s₁ : State Addr}
    {standing : Dec × Bool} (hc : captureAndSync env depositor s = .ok standing s₁) :
    withdraw env depositor coins s = withdrawCommit env depositor coins standing.1 standing.2 s₁ := by
  show EStateM.bind _ _ _ = _
  unfold EStateM.bind
  rw [hc]

/-- A capture and sync leaves an account without a record without one. -/
theorem captureAndSync_deposits_none {env : Env} {addr : Addr} {s s₁ : State Addr} {standing : Dec × Bool}
    (hc : captureAndSync env addr s = .ok standing s₁) (hnone : s.deposits addr = none) :
    s₁.deposits addr = none := by
  obtain ⟨-, s₂, hb, hsup⟩ := captureAndSync_ok hc
  obtain ⟨_, rfl, -⟩ := syncBorrowInterest_ok hb
  rcases syncSupplyInterest_ok hsup with ⟨-, rfl⟩ | ⟨_, _, _, hd, -, -⟩
  · exact hnone
  · rw [hnone] at hd
    cases hd

/-! ### Deposit -/

/-- A Deposit of a denom no schedule names fails, after its capture and sync, on the
first such coin, naming its denom. -/
theorem deposit_refuses_unlisted (env : Env) (depositor : Addr) (coins : Coins) (s : State Addr) {coin : Coin}
    (hfirst : coins.find? (fun c => !hasSchedule env.params c.denom) = some coin) :
    deposit env depositor coins s =
      match captureAndSync env depositor (initSupplyInterestFactors env coins s) with
      | .ok _ sA => .error (.invalidDepositDenom coin.denom) sA
      | .error e sA => .error e sA := by
  have hval : (validateDeposit env.params coins : Except (Err Addr) Unit) = .error (.invalidDepositDenom coin.denom) := by
    rw [validateDeposit_eq, hfirst]
  cases hc : captureAndSync env depositor (initSupplyInterestFactors env coins s) with
  | ok standing sA =>
    rw [deposit_of_captureAndSync hc, depositCommit]
    exact liftErr_bind_error.mpr (.inl ⟨hval, rfl⟩)
  | error e sA =>
    rw [deposit, modify_bind]
    exact bind_error.mpr (.inl hc)

/- Ten ukava where no schedule names ukava. -/
example : deposit ⟨defaultParams, fun _ => none⟩ 0 [⟨"ukava", 10⟩] (genesis fun _ : Nat => [⟨"ukava", 100⟩]) =
    .error (.invalidDepositDenom "ukava") (genesis fun _ : Nat => [⟨"ukava", 100⟩]) := rfl

/-! ### An uncovered Deposit -/

/-- Lines 45-52 on a valid balance and coins of `sdk.Int` amounts: the first coin the
balance holds less of. -/
theorem exceededCoin_eq_find {accCoins : Coins} (hacc : accCoins.isValid = true)
    (hbits : ∀ c ∈ accCoins, c.amount < 2 ^ maxBitLen) :
    ∀ coins : Coins, (∀ c ∈ coins, 0 < c.amount ∧ c.amount < 2 ^ maxBitLen) →
      exceededCoin accCoins coins = .ok (coins.find? fun c => accCoins.sumOf c.denom < c.amount)
  | [], _ => rfl
  | coin :: rest, hcoins => by
    have hcoin := hcoins coin (List.mem_cons_self _ _)
    obtain ⟨diff, isNegative, hsub, hneg⟩ := safeSub_of_valid hacc
      ((isValid_iff [coin]).mpr ⟨by simpa using hcoin.1, List.pairwise_singleton _ _⟩)
      fun c hc => (List.mem_append.mp hc).elim (hbits c) fun hc => List.mem_singleton.mp hc ▸ hcoin.2
    -- SafeSub of the single coin goes negative only in the coin's own denom.
    replace hneg : isNegative = decide (accCoins.sumOf coin.denom < coin.amount) := by
      rw [Bool.eq_iff_iff, decide_eq_true_iff, hneg]
      refine ⟨fun ⟨denom, hlt⟩ => ?_, fun hlt => ⟨coin.denom, by simpa using hlt⟩⟩
      by_cases hd : coin.denom = denom
      · subst hd
        simpa using hlt
      · have := sumOf_nonneg (fun c hc => (((isValid_iff _).mp hacc).1 c hc).le) denom
        simp [hd] at hlt
        omega
    rw [exceededCoin, newCoins_single hcoin.1, ok_bind, hsub, ok_bind]
    simp only [List.find?_cons, ← hneg]
    cases isNegative
    · exact exceededCoin_eq_find hacc hbits rest fun c hc => hcoins c (List.mem_cons_of_mem _ hc)
    · rfl

/-- Deposit's transfer from a valid balance that holds less than valid coins of some
denom, amounts below `2^255`: it fails naming the first such coin and what the balance
holds of its denom, and writes nothing. -/
theorem depositTransfer_uncovered {depositor : Addr} {coins : Coins} {s : State Addr} {coin : Coin}
    (hbal : (s.balances depositor).isValid = true) (hv : coins.isValid = true)
    (hbits : ∀ c ∈ s.balances depositor ++ coins, c.amount < 2 ^ maxBitLen)
    (hfirst : coins.find? (fun c => (s.balances depositor).sumOf c.denom < c.amount) = some coin) :
    depositTransfer depositor coins s =
      .error (.borrowExceedsAvailableBalance coin ((s.balances depositor).sumOf coin.denom)) s := by
  obtain ⟨hposc, hsc⟩ := (isValid_iff _).mp hv
  obtain ⟨diff, hasNeg, hsub, hneg⟩ := safeSub_of_valid hbal hv hbits
  have hlt : (s.balances depositor).sumOf coin.denom < coins.sumOf coin.denom := by
    rw [← amount_eq_sumOf hsc (List.mem_of_find?_eq_some hfirst)]
    simpa using List.find?_some hfirst
  obtain rfl := hneg.mpr ⟨coin.denom, hlt⟩
  have hsend : sendCoinsFromAccountToModule depositor coins s =
      .error (.insufficientFunds (s.balances depositor) coins) s := by
    simp [sendCoinsFromAccountToModule, moveCoins, hv, hsub]
  unfold depositTransfer
  rw [hsend]
  dsimp only
  rw [exceededCoin_eq_find hbal (fun c hc => hbits c (List.mem_append_left _ hc)) coins
    (fun c hc => ⟨hposc c hc, hbits c (List.mem_append_right _ hc)⟩), hfirst]
  simp only [amountOf_eq_sumOf ((isValid_iff _).mp hbal).2]

/-- Ten ukava from a balance of five. -/
theorem depositTransfer_uncovered_ukava :
    depositTransfer 0 [⟨"ukava", 10⟩] (genesis fun _ : Nat => [⟨"ukava", 5⟩]) =
      .error (.borrowExceedsAvailableBalance ⟨"ukava", 10⟩ 5) (genesis fun _ : Nat => [⟨"ukava", 5⟩]) :=
  depositTransfer_uncovered rfl rfl (by simp [genesis, maxBitLen]) rfl

/-! ### Withdraw -/

/-- After a capture and sync that returned, a Withdraw by an account with no record fails
with `ErrDepositNotFound`, and one of coins of which the synced record holds less in some
denom fails with `ErrNegativeBorrowedCoins`; each leaves what the capture and sync wrote. -/
theorem withdraw_refusals (env : Env) (s : State Addr) (depositor : Addr) (coins : Coins) {standing : Dec × Bool}
    {s₁ : State Addr} (hc : captureAndSync env depositor s = .ok standing s₁) :
    (s.deposits depositor = none → withdraw env depositor coins s = .error (.depositNotFound depositor) s₁) ∧
      ∀ d, s₁.deposits depositor = some d → d.amount.isValid = true → coins.isValid = true →
        (∀ c ∈ d.amount ++ coins, c.amount < 2 ^ maxBitLen) → (∃ denom, d.amount.sumOf denom < coins.sumOf denom) →
        withdraw env depositor coins s = .error .negativeBorrowedCoins s₁ := by
  rw [withdraw_of_captureAndSync hc]
  refine ⟨fun hnone => ?_, fun d hd hvd hvc hbits hlt => ?_⟩
  · rw [withdrawCommit, getDeposit_bind, captureAndSync_deposits_none hc hnone]
    rfl
  · obtain ⟨diff, hasNeg, hsub, hneg⟩ := safeSub_of_valid hvd hvc hbits
    obtain rfl := hneg.mpr hlt
    rw [withdrawCommit, getDeposit_bind, hd]
    simp only
    rw [getBorrow_bind, hsub]
    rfl

/-- Two hundred ukava from a record of a hundred. -/
theorem withdraw_refusals_overdraw :
    ∃ s₁, withdraw ukavaEnv 0 [⟨"ukava", 200⟩] tenthBorrowed = .error .negativeBorrowedCoins s₁ :=
  ⟨_, (withdraw_refusals ukavaEnv tenthBorrowed 0 [⟨"ukava", 200⟩] (by rfl)).2
    ⟨[⟨"ukava", 100⟩], [⟨"ukava", Dec.oneDec⟩]⟩ (by rfl) rfl rfl (by simp [maxBitLen]) ⟨"ukava", by decide⟩⟩

/-! ### A first Deposit -/

/-- An account with neither record: the capture reads a zero standing, and both syncs
find nothing. -/
theorem captureAndSync_fresh (env : Env) {addr : Addr} {s : State Addr} (hd : s.deposits addr = none)
    (hb : s.borrows addr = none) : captureAndSync env addr s = .ok (Dec.zeroDec, false) s := by
  simp [captureAndSync, getStoreLTV, syncBorrowInterest, syncSupplyInterest, hd, hb, bind, EStateM.bind, pure,
    EStateM.pure]

/-- Without a borrow the LTV update reads a zero standing, and moves no key. -/
theorem ignoreError_updateItemInLtvIndex_fresh (env : Env) {addr : Addr} {s : State Addr}
    (hb : s.borrows addr = none) : ignoreError (updateItemInLtvIndex env Dec.zeroDec false addr) s = .ok () s := by
  simp [ignoreError, updateItemInLtvIndex, getStoreLTV, hb, reindex, bind, EStateM.bind, modify, modifyGet,
    MonadStateOf.modifyGet, EStateM.modifyGet, Dec.zeroDec]

omit [DecidableEq Addr] in
/-- The bank's transfer of valid coins that a valid balance covers into a valid account
with room for them: the balance less the coins, the account plus them. -/
theorem moveCoins_covered {fromBal toBal amt : Coins} (hv : amt.isValid = true) (hfrom : fromBal.isValid = true)
    (hto : toBal.isValid = true) (hcover : ∀ denom, amt.sumOf denom ≤ fromBal.sumOf denom)
    (hbits : ∀ c ∈ fromBal ++ amt, c.amount < 2 ^ maxBitLen)
    (hroom : ∀ denom, toBal.sumOf denom + amt.sumOf denom < 2 ^ maxBitLen) :
    ∃ newFrom newTo, fromBal.safeSub amt = .ok (newFrom, false) ∧ toBal.add amt = .ok newTo ∧
      (moveCoins fromBal toBal amt : Except (Err Addr) _) = .ok (newFrom, newTo) := by
  obtain ⟨hposa, hsa⟩ := (isValid_iff _).mp hv
  obtain ⟨hpost, hst⟩ := (isValid_iff _).mp hto
  obtain ⟨diff, hasNeg, hsub, hneg⟩ := safeSub_of_valid hfrom hv hbits
  obtain rfl : hasNeg = false := Bool.eq_false_iff.mpr fun h =>
    let ⟨denom, hlt⟩ := hneg.mp h
    absurd (hcover denom) (not_le.mpr hlt)
  obtain ⟨sum, hadd⟩ := safeAdd_ok toBal amt fun x hx y hy hxy => by
    have hx' := amount_eq_sumOf hst hx
    have hy' := amount_eq_sumOf hsa hy
    have hr := hroom x.denom
    have := hpost x hx
    have := hposa y hy
    rw [Bool.eq_false_iff, ne_eq, bitLenExceeds_iff]
    rw [← hxy] at hy'
    simp only [maxBitLen] at hr ⊢
    omega
  exact ⟨diff, sum, hsub, hadd, by simp [moveCoins, hv, hsub, Coins.add, hadd]⟩

/-- A first Deposit, by an account with neither record, of listed valid coins that a
valid balance covers and a valid module account has room for, returns: it writes the
record of the coins, each indexed at its factor, and moves the coins. -/
theorem first_deposit (env : Env) (s : State Addr) (depositor : Addr) (coins : Coins)
    (hdep : s.deposits depositor = none) (hbor : s.borrows depositor = none)
    (hlisted : ∀ c ∈ coins, hasSchedule env.params c.denom = true) (hv : coins.isValid = true)
    (hbal : (s.balances depositor).isValid = true) (hpool : s.pool.isValid = true)
    (hcover : ∀ denom, coins.sumOf denom ≤ (s.balances depositor).sumOf denom)
    (hbits : ∀ c ∈ s.balances depositor ++ coins, c.amount < 2 ^ maxBitLen)
    (hroom : ∀ denom, s.pool.sumOf denom + coins.sumOf denom < 2 ^ maxBitLen) :
    ∃ bal pool, (s.balances depositor).safeSub coins = .ok (bal, false) ∧ s.pool.add coins = .ok pool ∧
      deposit env depositor coins s = .ok ()
        (setDeposit depositor ⟨coins, coins.map fun c =>
            ⟨c.denom, ((initSupplyInterestFactors env coins s).supplyInterestFactors c.denom).getD Dec.zeroDec⟩⟩
          {initSupplyInterestFactors env coins s with
            balances := Function.update s.balances depositor bal, pool := pool}) := by
  obtain ⟨factors, hinit⟩ := initSupplyInterestFactors_frame env coins s
  obtain ⟨bal, pool, hsub, hadd, hm⟩ := @moveCoins_covered Addr _ _ _ hv hbal hpool hcover hbits hroom
  refine ⟨bal, pool, hsub, hadd, ?_⟩
  have hval : (validateDeposit env.params coins : Except (Err Addr) Unit) = .ok () := by
    rw [validateDeposit_eq, List.find?_eq_none.mpr fun c hc => by simp [hlisted c hc]]
  rw [deposit_of_captureAndSync (captureAndSync_fresh env (by rw [hinit]; exact hdep) (by rw [hinit]; exact hbor)),
    depositCommit, hinit]
  have hsend : sendCoinsFromAccountToModule depositor coins {s with supplyInterestFactors := factors} = .ok ()
      {s with supplyInterestFactors := factors, balances := Function.update s.balances depositor bal, pool := pool} := by
    simp [sendCoinsFromAccountToModule, hm]
  refine liftErr_bind_ok.mpr ⟨(), hval, bind_ok.mpr ⟨(), _, by rw [depositTransfer, hsend], ?_⟩⟩
  rw [get_bind]
  refine liftErr_bind_ok.mpr ⟨_, panicErr_ok.mpr (by rw [show _ = none from hdep]; rfl), ?_⟩
  rw [modify_bind]
  exact ignoreError_updateItemInLtvIndex_fresh env hbor

/-- Ten ukava from a balance of a hundred: the record holds them at the new factor of one. -/
theorem first_deposit_ukava :
    ∃ s', deposit ukavaEnv 0 [⟨"ukava", 10⟩] (genesis fun _ : Nat => [⟨"ukava", 100⟩]) = .ok () s' ∧
      s'.deposits 0 = some ⟨[⟨"ukava", 10⟩], [⟨"ukava", Dec.oneDec⟩]⟩ :=
  let ⟨_, _, _, _, h⟩ := first_deposit ukavaEnv (genesis fun _ : Nat => [⟨"ukava", 100⟩]) 0 [⟨"ukava", 10⟩]
    rfl rfl (by decide) rfl rfl rfl (fun d => by by_cases h : "ukava" = d <;> simp [h, genesis])
    (by simp [genesis, maxBitLen]) (fun d => by by_cases h : "ukava" = d <;> simp [h, genesis, maxBitLen])
  ⟨_, h, rfl⟩

end KavaHard.Keeper
