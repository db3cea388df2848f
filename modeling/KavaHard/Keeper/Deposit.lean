import KavaHard.Keeper.Interest

/-! `Deposit` and `Withdraw` (`keeper/deposit.go`).

Both start alike (`captureAndSync`): read the account's LTV standing from its stored
records, then sync its borrow and its deposit. Deposit first creates the global
supply factor, at one, of each new denom that has a money market. Then Deposit
validates the denoms against the liquidity provider schedules, moves the coins into
the module account, and stores the merged amount with an index extended by the denoms
the account did not hold (`depositedPosition`). Withdraw takes the coins off the
synced amount (`SafeSub`), checks the proposal against the LTV limit, moves the coins
out, and deletes the record when the withdrawal equals it, or stores the difference.
Each ends by updating the LTV index from the captured standing, and drops the error
that update returns; Withdraw's delete path returns before it. -/
namespace KavaHard.Keeper
open KavaHard.Sdk KavaHard.Types

variable {Addr : Type} [DecidableEq Addr]

/-- An SDK computation inside a method: its panic becomes the method's. -/
def panics {α : Type} (x : Except String α) : Method Addr α := liftErr (panicErr x)

/-- Lines 16-24: the global supply factor of each new denom with a money market is set
to one. -/
def initSupplyInterestFactors (env : Env) : Coins → State Addr → State Addr
  | [], s => s
  | coin :: rest, s =>
    initSupplyInterestFactors env rest <|
      if (s.supplyInterestFactors coin.denom).isNone && (getMoneyMarket env coin.denom).isSome then
        {s with supplyInterestFactors :=
          Function.update s.supplyInterestFactors coin.denom (some Dec.oneDec)}
      else s

/-- Lines 27-34 (and 170-176 of Withdraw): the standing from the stored records, then
both sides synced. -/
def captureAndSync (env : Env) (addr : Addr) : Method Addr (Dec × Bool) := do
  let standing ← getStoreLTV env addr
  syncBorrowInterest addr
  syncSupplyInterest addr
  pure standing

/-- `ValidateDeposit`: every denom needs a liquidity provider schedule. -/
def validateDeposit (params : Params) : Coins → Except (Err Addr) Unit
  | [] => .ok ()
  | depCoin :: rest =>
    if params.liquidityProviderSchedules.any (·.depositDenom = depCoin.denom) then
      validateDeposit params rest
    else .error (.invalidDepositDenom depCoin.denom)

/-- Lines 45-52: the first coin that the spendable balance does not cover. -/
def exceededCoin (accCoins : Coins) : Coins → Except String (Option Coin)
  | [] => .ok none
  | coin :: rest => do
    let single ← newCoins [coin]
    let (_, isNegative) ← accCoins.safeSub single
    if isNegative then pure (some coin) else exceededCoin accCoins rest

/-- Lines 41-57: the transfer into the module account, with an uncovered amount
reported against the first coin it does not cover. -/
def depositTransfer (depositor : Addr) (coins : Coins) : Method Addr Unit := fun s =>
  match sendCoinsFromAccountToModule depositor coins s with
  | .error (.insufficientFunds spendable amt) s' =>
    let accCoins := s'.balances depositor
    match exceededCoin accCoins coins with
    | .ok (some coin) => .error (.borrowExceedsAvailableBalance coin (accCoins.amountOf coin.denom)) s'
    | .ok none => .error (.insufficientFunds spendable amt) s'
    | .error msg => .error (.panic msg) s'
  | r => r

/-- Lines 64-71: an index entry at the global factor for each coin whose denom the
current amount lacks; a factor not stored reads as zero. -/
def missingFactors (factors : String → Option Dec) (amount : Coins) :
    Coins → Except String (List InterestFactor)
  | [] => .ok []
  | coin :: rest => do
    let single ← newCoins [coin]
    let tail ← missingFactors factors amount rest
    pure (if single.denomsSubsetOf amount then tail
      else ⟨coin.denom, (factors coin.denom).getD Dec.zeroDec⟩ :: tail)

/-- Lines 59-93: the deposit after `coins` are added, the new entries before the old. -/
def depositedPosition (factors : String → Option Dec) (currDeposit : Option Deposit)
    (coins : Coins) : Except String Deposit :=
  match currDeposit with
  | some currDeposit => do
    let newFactors ← missingFactors factors currDeposit.amount coins
    let amount ← currDeposit.amount.add coins
    pure ⟨amount, newFactors ++ currDeposit.index⟩
  | none => pure ⟨coins, coins.map fun coin => ⟨coin.denom, (factors coin.denom).getD Dec.zeroDec⟩⟩

/-- Lines 36-95. -/
def depositCommit (env : Env) (depositor : Addr) (coins : Coins) (prevLtv : Dec)
    (shouldRemoveIndex : Bool) : Method Addr Unit := do
  liftErr (validateDeposit env.params coins)
  depositTransfer depositor coins
  let s ← get
  let deposit ← panics (depositedPosition s.supplyInterestFactors (s.deposits depositor) coins)
  modify (setDeposit depositor deposit)
  ignoreError (updateItemInLtvIndex env prevLtv shouldRemoveIndex depositor)

/-- `Keeper.Deposit`. -/
def deposit (env : Env) (depositor : Addr) (coins : Coins) : Method Addr Unit := do
  modify (initSupplyInterestFactors env coins)
  let (prevLtv, shouldRemoveIndex) ← captureAndSync env depositor
  depositCommit env depositor coins prevLtv shouldRemoveIndex

/-- Lines 178-232. -/
def withdrawCommit (env : Env) (depositor : Addr) (coins : Coins) (prevLtv : Dec)
    (shouldRemoveIndex : Bool) : Method Addr Unit := do
  let some deposit ← getDeposit depositor | throw (.depositNotFound depositor)
  let borrow := (← getBorrow depositor).getD ⟨[], []⟩
  let (proposedDepositAmount, isNegative) ← panics (deposit.amount.safeSub coins)
  if isNegative then throw .negativeBorrowedCoins
  let valid ← liftErr (isWithinValidLtvRange env proposedDepositAmount borrow.amount)
  if !valid then throw .invalidWithdrawAmount
  sendCoinsFromModuleToAccount depositor coins
  if ← panics (deposit.amount.isEqual coins) then
    modify (deleteDeposit depositor)
  else
    let amount ← panics (deposit.amount.sub coins)
    modify (setDeposit depositor {deposit with amount := amount})
    ignoreError (updateItemInLtvIndex env prevLtv shouldRemoveIndex depositor)

/-- `Keeper.Withdraw`. -/
def withdraw (env : Env) (depositor : Addr) (coins : Coins) : Method Addr Unit := do
  let (prevLtv, shouldRemoveIndex) ← captureAndSync env depositor
  withdrawCommit env depositor coins prevLtv shouldRemoveIndex

/-! ### What each call can do -/

open Method

theorem captureAndSync_ok {env : Env} {addr : Addr} {s s' : State Addr} {standing : Dec × Bool}
    (h : captureAndSync env addr s = .ok standing s') :
    getStoreLTV env addr s = .ok standing s ∧
      ∃ s₁, syncBorrowInterest addr s = .ok () s₁ ∧ syncSupplyInterest addr s₁ = .ok () s' := by
  obtain ⟨standing', s₀, hg, h⟩ := bind_ok.mp h
  obtain ⟨_, s₁, hb, h⟩ := bind_ok.mp h
  obtain ⟨_, s₂, hsup, h⟩ := bind_ok.mp h
  cases h
  rcases getStoreLTV_result env addr s with ⟨_, hg'⟩ | ⟨_, hg'⟩ <;> rw [hg'] at hg <;> cases hg
  exact ⟨hg', s₁, hb, hsup⟩

theorem captureAndSync_touches {env : Env} {addr : Addr} {s s' : State Addr} {standing : Dec × Bool}
    (h : captureAndSync env addr s = .ok standing s') : Touches addr s s' := by
  obtain ⟨-, s₁, hb, hsup⟩ := captureAndSync_ok h
  exact (syncBorrowInterest_touches hb).trans (syncSupplyInterest_touches hsup)

omit [DecidableEq Addr] in
/-- Deposit's first lines write the supply factors and nothing else. -/
theorem initSupplyInterestFactors_frame (env : Env) :
    ∀ (coins : Coins) (s : State Addr),
      ∃ factors, initSupplyInterestFactors env coins s = {s with supplyInterestFactors := factors}
  | [], s => ⟨s.supplyInterestFactors, rfl⟩
  | coin :: rest, s => by
    obtain ⟨factors, h⟩ := initSupplyInterestFactors_frame env rest
      (if (s.supplyInterestFactors coin.denom).isNone && (getMoneyMarket env coin.denom).isSome then
        {s with supplyInterestFactors :=
          Function.update s.supplyInterestFactors coin.denom (some Dec.oneDec)}
      else s)
    refine ⟨factors, ?_⟩
    rw [initSupplyInterestFactors, h]
    split <;> rfl

/-- The capture fails on the stored records, leaving them, or a sync panics. -/
theorem captureAndSync_error {env : Env} {addr : Addr} {s s' : State Addr} {e : Err Addr}
    (h : captureAndSync env addr s = .error e s') : (∃ msg, e = .panic msg) ∨ s' = s := by
  rcases bind_error.mp h with hg | ⟨_, s₀, hg, h⟩
  · rcases getStoreLTV_result env addr s with ⟨_, hg'⟩ | ⟨_, hg'⟩ <;> rw [hg'] at hg <;> cases hg
    exact .inr rfl
  rcases bind_error.mp h with hb | ⟨_, s₁, -, h⟩
  · exact .inl (syncBorrowInterest_error hb).1
  rcases bind_error.mp h with hsup | ⟨_, _, -, h⟩
  · exact .inl (syncSupplyInterest_error hsup).1
  cases h

theorem depositTransfer_ok {depositor : Addr} {coins : Coins} {s s' : State Addr}
    (h : depositTransfer depositor coins s = .ok () s') :
    sendCoinsFromAccountToModule depositor coins s = .ok () s' := by
  unfold depositTransfer at h
  split at h
  · dsimp only at h
    split at h <;> cases h
  · exact h

theorem depositTransfer_error {depositor : Addr} {coins : Coins} {s s' : State Addr} {e : Err Addr}
    (h : depositTransfer depositor coins s = .error e s') : s' = s := by
  unfold depositTransfer at h
  split at h
  · rename_i hs
    dsimp only at h
    split at h <;> cases h <;> exact (sendCoinsFromAccountToModule_error hs).2
  · exact (sendCoinsFromAccountToModule_error h).2


theorem depositCommit_ok {env : Env} {depositor : Addr} {coins : Coins} {prevLtv : Dec}
    {shouldRemoveIndex : Bool} {s s' : State Addr}
    (h : depositCommit env depositor coins prevLtv shouldRemoveIndex s = .ok () s') :
    (validateDeposit env.params coins : Except (Err Addr) _) = .ok () ∧
      ∃ bal pool deposit, (moveCoins (s.balances depositor) s.pool coins : Except (Err Addr) _) = .ok (bal, pool) ∧
        depositedPosition s.supplyInterestFactors (s.deposits depositor) coins = .ok deposit ∧
        ignoreError (updateItemInLtvIndex env prevLtv shouldRemoveIndex depositor)
          (setDeposit depositor deposit
            {s with balances := Function.update s.balances depositor bal, pool := pool}) = .ok () s' := by
  obtain ⟨_, hv, h⟩ := liftErr_bind_ok.mp h
  obtain ⟨_, s₂, ht, h⟩ := bind_ok.mp h
  obtain ⟨bal, pool, hm, rfl⟩ := sendCoinsFromAccountToModule_ok (depositTransfer_ok ht)
  rw [get_bind] at h
  obtain ⟨deposit, hd, h⟩ := liftErr_bind_ok.mp h
  rw [modify_bind] at h
  exact ⟨hv, bal, pool, deposit, hm, panicErr_ok.mp hd, h⟩

/-- A deposit commit that fails without panicking wrote nothing. -/
theorem depositCommit_error {env : Env} {depositor : Addr} {coins : Coins} {prevLtv : Dec}
    {shouldRemoveIndex : Bool} {s s' : State Addr} {e : Err Addr}
    (h : depositCommit env depositor coins prevLtv shouldRemoveIndex s = .error e s') :
    (∃ msg, e = .panic msg) ∨ s' = s := by
  rcases liftErr_bind_error.mp h with ⟨-, rfl⟩ | ⟨_, -, h⟩
  · exact .inr rfl
  rcases bind_error.mp h with ht | ⟨_, s₂, ht, h⟩
  · exact .inr (depositTransfer_error ht)
  rw [get_bind] at h
  rcases liftErr_bind_error.mp h with ⟨hd, -⟩ | ⟨_, -, h⟩
  · exact .inl (panicErr_error hd)
  rw [modify_bind] at h
  exact .inl (ignoreError_updateItemInLtvIndex_error h)
theorem withdrawCommit_ok {env : Env} {depositor : Addr} {coins : Coins} {prevLtv : Dec}
    {shouldRemoveIndex : Bool} {s s' : State Addr}
    (h : withdrawCommit env depositor coins prevLtv shouldRemoveIndex s = .ok () s') :
    ∃ deposit proposed pool bal, s.deposits depositor = some deposit ∧
      deposit.amount.safeSub coins = .ok (proposed, false) ∧
      (isWithinValidLtvRange env proposed ((s.borrows depositor).getD ⟨[], []⟩).amount :
        Except (Err Addr) _) = .ok true ∧
      (moveCoins s.pool (s.balances depositor) coins : Except (Err Addr) _) = .ok (pool, bal) ∧
      ((deposit.amount.isEqual coins = .ok true ∧
          s' = deleteDeposit depositor {s with balances := Function.update s.balances depositor bal, pool := pool}) ∨
        (deposit.amount.isEqual coins = .ok false ∧ ∃ amount, deposit.amount.sub coins = .ok amount ∧
          ignoreError (updateItemInLtvIndex env prevLtv shouldRemoveIndex depositor)
            (setDeposit depositor {deposit with amount := amount}
              {s with balances := Function.update s.balances depositor bal, pool := pool}) = .ok () s')) := by
  unfold withdrawCommit at h
  rw [getDeposit_bind] at h
  cases hdep : s.deposits depositor with
  | none => simp only [hdep] at h; cases h
  | some deposit =>
    simp only [hdep] at h
    rw [getBorrow_bind] at h
    obtain ⟨⟨proposed, isNegative⟩, hsub, h⟩ := liftErr_bind_ok.mp h
    cases isNegative
    · simp only [Bool.false_eq_true, ↓reduceIte, pure_bind] at h
      obtain ⟨valid, hvalid, h⟩ := liftErr_bind_ok.mp h
      cases valid
      · simp only [Bool.not_false, ↓reduceIte, throw_bind] at h
        cases h
      · simp only [Bool.not_true, Bool.false_eq_true, ↓reduceIte, pure_bind] at h
        obtain ⟨_, s₂, hsend, h⟩ := bind_ok.mp h
        obtain ⟨pool, bal, hm, rfl⟩ := sendCoinsFromModuleToAccount_ok hsend
        obtain ⟨eq, heq, h⟩ := liftErr_bind_ok.mp h
        refine ⟨deposit, proposed, pool, bal, rfl, panicErr_ok.mp hsub, hvalid, hm, ?_⟩
        cases eq
        · simp only [Bool.false_eq_true, ↓reduceIte] at h
          obtain ⟨amount, hamount, h⟩ := liftErr_bind_ok.mp h
          rw [modify_bind] at h
          exact .inr ⟨panicErr_ok.mp heq, amount, panicErr_ok.mp hamount, h⟩
        · simp only [↓reduceIte, modify_apply, EStateM.Result.ok.injEq, true_and] at h
          exact .inl ⟨panicErr_ok.mp heq, h.symm⟩
    · simp only [↓reduceIte, throw_bind] at h
      cases h
/-- A withdraw commit that fails without panicking wrote nothing. -/
theorem withdrawCommit_error {env : Env} {depositor : Addr} {coins : Coins} {prevLtv : Dec}
    {shouldRemoveIndex : Bool} {s s' : State Addr} {e : Err Addr}
    (h : withdrawCommit env depositor coins prevLtv shouldRemoveIndex s = .error e s') :
    (∃ msg, e = .panic msg) ∨ s' = s := by
  unfold withdrawCommit at h
  rw [getDeposit_bind] at h
  cases hdep : s.deposits depositor with
  | none => simp only [hdep] at h; cases h; exact .inr rfl
  | some deposit =>
    simp only [hdep] at h
    rw [getBorrow_bind] at h
    rcases liftErr_bind_error.mp h with ⟨hsub, -⟩ | ⟨⟨proposed, isNegative⟩, -, h⟩
    · exact .inl (panicErr_error hsub)
    cases isNegative
    · simp only [Bool.false_eq_true, ↓reduceIte, pure_bind] at h
      rcases liftErr_bind_error.mp h with ⟨-, rfl⟩ | ⟨valid, -, h⟩
      · exact .inr rfl
      cases valid
      · simp only [Bool.not_false, ↓reduceIte, throw_bind] at h
        cases h
        exact .inr rfl
      · simp only [Bool.not_true, Bool.false_eq_true, ↓reduceIte, pure_bind] at h
        rcases bind_error.mp h with hsend | ⟨_, s₂, -, h⟩
        · exact .inr (sendCoinsFromModuleToAccount_error hsend).2
        rcases liftErr_bind_error.mp h with ⟨heq, -⟩ | ⟨eq, -, h⟩
        · exact .inl (panicErr_error heq)
        cases eq
        · simp only [Bool.false_eq_true, ↓reduceIte] at h
          rcases liftErr_bind_error.mp h with ⟨hamount, -⟩ | ⟨_, -, h⟩
          · exact .inl (panicErr_error hamount)
          rw [modify_bind] at h
          exact .inl (ignoreError_updateItemInLtvIndex_error h)
        · simp only [↓reduceIte, modify_apply] at h
          cases h
    · simp only [↓reduceIte, throw_bind] at h
      cases h
      exact .inr rfl
theorem deposit_ok {env : Env} {depositor : Addr} {coins : Coins} {s s' : State Addr}
    (h : deposit env depositor coins s = .ok () s') :
    ∃ prevLtv shouldRemoveIndex s₁,
      captureAndSync env depositor (initSupplyInterestFactors env coins s) =
        .ok (prevLtv, shouldRemoveIndex) s₁ ∧
      depositCommit env depositor coins prevLtv shouldRemoveIndex s₁ = .ok () s' := by
  rw [deposit, modify_bind] at h
  obtain ⟨⟨prevLtv, shouldRemoveIndex⟩, s₁, hc, h⟩ := bind_ok.mp h
  exact ⟨prevLtv, shouldRemoveIndex, s₁, hc, h⟩

/-- A failed Deposit panicked, or left the factors it created and the caller synced. -/
theorem deposit_error {env : Env} {depositor : Addr} {coins : Coins} {s s' : State Addr}
    {e : Err Addr} (h : deposit env depositor coins s = .error e s') :
    (∃ msg, e = .panic msg) ∨ s' = initSupplyInterestFactors env coins s ∨
      ∃ standing, captureAndSync env depositor (initSupplyInterestFactors env coins s) = .ok standing s' := by
  rw [deposit, modify_bind] at h
  rcases bind_error.mp h with hc | ⟨standing, s₁, hc, h⟩
  · exact (captureAndSync_error hc).imp_right .inl
  · rcases depositCommit_error h with hp | rfl
    · exact .inl hp
    · exact .inr (.inr ⟨standing, hc⟩)

theorem withdraw_ok {env : Env} {depositor : Addr} {coins : Coins} {s s' : State Addr}
    (h : withdraw env depositor coins s = .ok () s') :
    ∃ prevLtv shouldRemoveIndex s₁,
      captureAndSync env depositor s = .ok (prevLtv, shouldRemoveIndex) s₁ ∧
      withdrawCommit env depositor coins prevLtv shouldRemoveIndex s₁ = .ok () s' := by
  obtain ⟨⟨prevLtv, shouldRemoveIndex⟩, s₁, hc, h⟩ := bind_ok.mp h
  exact ⟨prevLtv, shouldRemoveIndex, s₁, hc, h⟩

/-- A failed Withdraw panicked, or left the caller synced. -/
theorem withdraw_error {env : Env} {depositor : Addr} {coins : Coins} {s s' : State Addr}
    {e : Err Addr} (h : withdraw env depositor coins s = .error e s') :
    (∃ msg, e = .panic msg) ∨ s' = s ∨ ∃ standing, captureAndSync env depositor s = .ok standing s' := by
  rcases bind_error.mp h with hc | ⟨standing, s₁, hc, h⟩
  · exact (captureAndSync_error hc).imp_right .inl
  · rcases withdrawCommit_error h with hp | rfl
    · exact .inl hp
    · exact .inr (.inr ⟨standing, hc⟩)

/-- `GetTotalDeposited`: the module account's balance of a denom. -/
def getTotalDeposited (s : State Addr) (depositDenom : String) : Int := s.pool.amountOf depositDenom

end KavaHard.Keeper
