import KavaHard.Keeper.Run
import Mathlib.Algebra.BigOperators.Group.Finset

/-! Conservation of coins.

Over the accounts of a finite address space, two quantities of each denom never
change along a run. `poolSurplus` is the module account's holding less what the
deposit records hold, plus the interest the supply syncs have credited to them: a
deposit moves coins into both the pool and a record, a withdrawal out of both, and a
sync raises a record by exactly what it credits. `coinSupply` is the module account's
holding plus all the accounts' balances: the bank moves coins and never mints them.
`deposit_moves_coins` and `withdraw_moves_coins` say what one successful call moves:
exactly its coins, into or out of the pool and the synced record. `conservation`
collects the three. Holdings are read with `sumOf`, on every list. -/
namespace KavaHard.Keeper
open KavaHard.Sdk KavaHard.Types

variable {Addr : Type}

/-- What a deposit record holds of `denom`; no record holds nothing. -/
def heldOf (deposit : Option Deposit) (denom : String) : Int :=
  (deposit.map fun deposit => deposit.amount.sumOf denom).getD 0

@[simp] theorem heldOf_none (denom : String) : heldOf none denom = 0 := rfl

@[simp] theorem heldOf_some (deposit : Deposit) (denom : String) :
    heldOf (some deposit) denom = deposit.amount.sumOf denom := rfl

/-! ### One call -/

theorem moveCoins_sumOf {fromBal toBal amt newFrom newTo : Coins}
    (h : (moveCoins fromBal toBal amt : Except (Err Addr) _) = .ok (newFrom, newTo)) (denom : String) :
    newFrom.sumOf denom = fromBal.sumOf denom - amt.sumOf denom ∧
      newTo.sumOf denom = toBal.sumOf denom + amt.sumOf denom := by
  obtain ⟨-, hsub, hadd⟩ := moveCoins_ok h
  exact ⟨Coins.sumOf_safeSub denom hsub, Coins.sumOf_safeAdd denom _ _ _ hadd⟩

/-- A deposit's new amount holds the old record's amount and the coins. -/
theorem sumOf_depositedPosition {factors : String → Option Dec} {currDeposit : Option Deposit}
    {coins : Coins} {deposit : Deposit}
    (h : depositedPosition factors currDeposit coins = .ok deposit) (denom : String) :
    deposit.amount.sumOf denom = heldOf currDeposit denom + coins.sumOf denom := by
  unfold depositedPosition at h
  cases currDeposit with
  | none => cases h; simp
  | some currDeposit =>
    obtain ⟨_, -, h⟩ := bind_eq_ok.mp h
    obtain ⟨amount, ha, h⟩ := bind_eq_ok.mp h
    cases h
    exact Coins.sumOf_safeAdd denom _ _ _ ha

variable [DecidableEq Addr]

/-! ### What one call moves -/

section Calls

variable {env : Env} {depositor : Addr} {coins : Coins} {s s' : State Addr}

/-- A successful Deposit moves exactly its coins out of the depositor's balance, into
the pool and into the synced record. -/
theorem deposit_moves_coins (h : deposit env depositor coins s = .ok () s') :
    ∃ standing s₁, captureAndSync env depositor (initSupplyInterestFactors env coins s) = .ok standing s₁ ∧
      ∀ denom, s'.pool.sumOf denom = s.pool.sumOf denom + coins.sumOf denom ∧
        (s'.balances depositor).sumOf denom = (s.balances depositor).sumOf denom - coins.sumOf denom ∧
        heldOf (s'.deposits depositor) denom = heldOf (s₁.deposits depositor) denom + coins.sumOf denom := by
  obtain ⟨prevLtv, shouldRemoveIndex, s₁, hc, hd⟩ := deposit_ok h
  obtain ⟨-, bal, pool, deposit, hm, hdp, h⟩ := depositCommit_ok hd
  obtain ⟨index, rfl⟩ := ignoreError_updateItemInLtvIndex_frame h
  obtain ⟨factors, hinit⟩ := initSupplyInterestFactors_frame env coins s
  have ht := captureAndSync_touches hc
  rw [hinit] at ht
  refine ⟨_, s₁, hc, fun denom => ?_⟩
  obtain ⟨hbal, hpool⟩ := moveCoins_sumOf hm denom
  simp only [setDeposit, Function.update_same, heldOf_some, sumOf_depositedPosition hdp, hpool, hbal,
    ht.pool, ht.balances, and_self]

/-- A successful Withdraw moves exactly its coins out of the pool and out of the synced
record, into the depositor's balance; a deleted record holds nothing. -/
theorem withdraw_moves_coins (h : withdraw env depositor coins s = .ok () s') :
    ∃ standing s₁, captureAndSync env depositor s = .ok standing s₁ ∧
      ∀ denom, s'.pool.sumOf denom = s.pool.sumOf denom - coins.sumOf denom ∧
        (s'.balances depositor).sumOf denom = (s.balances depositor).sumOf denom + coins.sumOf denom ∧
        heldOf (s'.deposits depositor) denom = heldOf (s₁.deposits depositor) denom - coins.sumOf denom := by
  obtain ⟨prevLtv, shouldRemoveIndex, s₁, hc, hw⟩ := withdraw_ok h
  obtain ⟨deposit, -, pool, bal, hdep, -, -, hm, hcommit⟩ := withdrawCommit_ok hw
  have ht := captureAndSync_touches hc
  refine ⟨_, s₁, hc, fun denom => ?_⟩
  obtain ⟨hpool, hbal⟩ := moveCoins_sumOf hm denom
  rcases hcommit with ⟨heq, rfl⟩ | ⟨-, amount, hamount, h⟩
  · simp only [deleteDeposit, Function.update_same, heldOf_none, hdep, heldOf_some, hpool, hbal,
      ht.pool, ht.balances, Coins.sumOf_of_isEqual denom heq, sub_self, and_self]
  · obtain ⟨index, rfl⟩ := ignoreError_updateItemInLtvIndex_frame h
    obtain ⟨_, hsub, rfl⟩ := Coins.sub_ok hamount
    simp only [setDeposit, Function.update_same, heldOf_some, hdep, hpool, hbal, ht.pool, ht.balances,
      Coins.sumOf_safeSub denom hsub, and_self]

end Calls


/-! ### The two quantities -/

variable [Fintype Addr]

/-- What the deposit records hold of `denom`, over all accounts. -/
def totalDeposited (deposits : Addr → Option Deposit) (denom : String) : Int :=
  ∑ addr, heldOf (deposits addr) denom

/-- The pool's holding of `denom` less the records', plus the interest credited. -/
def poolSurplus (s : State Addr) (denom : String) : Int :=
  s.pool.sumOf denom - totalDeposited s.deposits denom + s.creditedSupplyInterest denom

/-- The pool's and all accounts' holdings of `denom`. -/
def coinSupply (s : State Addr) (denom : String) : Int :=
  s.pool.sumOf denom + ∑ addr, (s.balances addr).sumOf denom

/-- Writing one entry of a table moves its sum by the difference. -/
theorem sum_update {β : Type} (f : Addr → β) (addr : Addr) (v : β) (g : β → Int) :
    ∑ x, g (Function.update f addr v x) = ∑ x, g (f x) - g (f addr) + g v := by
  simp only [Function.apply_update (fun _ => g)]
  rw [Finset.sum_update_of_mem (Finset.mem_univ addr), ← Finset.add_sum_erase _ _ (Finset.mem_univ addr),
    Finset.sdiff_singleton_eq_erase]
  omega

theorem totalDeposited_update (deposits : Addr → Option Deposit) (addr : Addr) (deposit : Option Deposit)
    (denom : String) :
    totalDeposited (Function.update deposits addr deposit) denom =
      totalDeposited deposits denom - heldOf (deposits addr) denom + heldOf deposit denom :=
  sum_update deposits addr deposit (heldOf · denom)

theorem sum_balances_update (balances : Addr → Coins) (addr : Addr) (bal : Coins) (denom : String) :
    ∑ x, (Function.update balances addr bal x).sumOf denom =
      ∑ x, (balances x).sumOf denom - (balances addr).sumOf denom + bal.sumOf denom :=
  sum_update balances addr bal (Coins.sumOf · denom)

/-! ### Each piece of a call keeps them -/

section Pieces

variable {env : Env} {denom : String} {s s' : State Addr}

theorem conserved_of_touches {addr : Addr} (h : Touches addr s s')
    (hheld : heldOf (s'.deposits addr) denom - heldOf (s.deposits addr) denom =
      s'.creditedSupplyInterest denom - s.creditedSupplyInterest denom) :
    poolSurplus s' denom = poolSurplus s denom ∧ coinSupply s' denom = coinSupply s denom := by
  have hdeposits : s'.deposits = Function.update s.deposits addr (s'.deposits addr) := by
    funext other
    by_cases ho : other = addr
    · subst ho; simp
    · simp [ho, h.deposits other ho]
  refine ⟨?_, by simp only [coinSupply, h.pool, h.balances]⟩
  rw [poolSurplus, poolSurplus, hdeposits, totalDeposited_update, h.pool]
  omega

theorem conserved_syncSupplyInterest {addr : Addr} (h : syncSupplyInterest addr s = .ok () s') :
    poolSurplus s' denom = poolSurplus s denom ∧ coinSupply s' denom = coinSupply s denom := by
  refine conserved_of_touches (syncSupplyInterest_touches h) ?_
  rcases syncSupplyInterest_ok h with ⟨-, rfl⟩ | ⟨deposit, synced, interest, hdep, hsync, rfl⟩
  · simp
  · simp [setDeposit, hdep, sumOf_syncPosition hsync]

theorem conserved_syncBorrowInterest {addr : Addr} (h : syncBorrowInterest addr s = .ok () s') :
    poolSurplus s' denom = poolSurplus s denom ∧ coinSupply s' denom = coinSupply s denom := by
  obtain ⟨_, rfl, -⟩ := syncBorrowInterest_ok h
  exact ⟨rfl, rfl⟩

theorem conserved_depositCommit {depositor : Addr} {coins : Coins} {prevLtv : Dec}
    {shouldRemoveIndex : Bool}
    (h : depositCommit env depositor coins prevLtv shouldRemoveIndex s = .ok () s') :
    poolSurplus s' denom = poolSurplus s denom ∧ coinSupply s' denom = coinSupply s denom := by
  obtain ⟨-, bal, pool, deposit, hm, hd, h⟩ := depositCommit_ok h
  obtain ⟨index, rfl⟩ := ignoreError_updateItemInLtvIndex_frame h
  obtain ⟨hbal, hpool⟩ := moveCoins_sumOf hm denom
  simp only [poolSurplus, coinSupply, setDeposit, totalDeposited_update, sum_balances_update,
    Function.update_same, heldOf_some, sumOf_depositedPosition hd, hbal, hpool]
  omega

theorem conserved_withdrawCommit {depositor : Addr} {coins : Coins} {prevLtv : Dec}
    {shouldRemoveIndex : Bool}
    (h : withdrawCommit env depositor coins prevLtv shouldRemoveIndex s = .ok () s') :
    poolSurplus s' denom = poolSurplus s denom ∧ coinSupply s' denom = coinSupply s denom := by
  obtain ⟨deposit, -, pool, bal, hdep, -, -, hm, hcommit⟩ := withdrawCommit_ok h
  obtain ⟨hpool, hbal⟩ := moveCoins_sumOf hm denom
  rcases hcommit with ⟨heq, rfl⟩ | ⟨-, amount, hamount, h⟩
  · have hsame := Coins.sumOf_of_isEqual denom heq
    simp only [poolSurplus, coinSupply, deleteDeposit, totalDeposited_update, sum_balances_update,
      Function.update_same, heldOf_none, heldOf_some, hdep, hbal, hpool]
    omega
  · obtain ⟨index, rfl⟩ := ignoreError_updateItemInLtvIndex_frame h
    obtain ⟨_, hsub, rfl⟩ := Coins.sub_ok hamount
    have hdiff := Coins.sumOf_safeSub denom hsub
    simp only [poolSurplus, coinSupply, setDeposit, totalDeposited_update, sum_balances_update,
      Function.update_same, heldOf_some, hdep, hbal, hpool, hdiff]
    omega

omit [DecidableEq Addr] in
theorem conserved_trans {s₀ : State Addr}
    (h : poolSurplus s' denom = poolSurplus s denom ∧ coinSupply s' denom = coinSupply s denom)
    (hs : poolSurplus s denom = poolSurplus s₀ denom ∧ coinSupply s denom = coinSupply s₀ denom) :
    poolSurplus s' denom = poolSurplus s₀ denom ∧ coinSupply s' denom = coinSupply s₀ denom :=
  ⟨h.1.trans hs.1, h.2.trans hs.2⟩

end Pieces

/-- The two quantities of `denom`, held at their values in `s₀`. -/
def conserved (env : Env) (s₀ : State Addr) (denom : String) : @Invariant Addr _ env where
  Inv s := poolSurplus s denom = poolSurplus s₀ denom ∧ coinSupply s denom = coinSupply s₀ denom
  Rule _ := True
  init coins s h := by
    obtain ⟨_, hs⟩ := initSupplyInterestFactors_frame env coins s
    rw [hs]
    exact h
  syncBorrow _ _ _ h hs := conserved_trans (conserved_syncBorrowInterest hs) h
  syncSupply _ _ _ h hs := conserved_trans (conserved_syncSupplyInterest hs) h
  depositCommit _ _ _ _ _ _ _ h hs := conserved_trans (conserved_depositCommit hs) h
  withdrawCommit _ _ _ _ _ _ _ h hs := conserved_trans (conserved_withdrawCommit hs) h
  accrueSupply _ _ _ h := h
  accrueBorrow _ _ _ h := h

theorem conserved_run (env : Env) (s : State Addr) (ops : List (Op Addr)) (denom : String) :
    poolSurplus (run env s ops) denom = poolSurplus s denom ∧
      coinSupply (run env s ops) denom = coinSupply s denom :=
  (conserved env s denom).run ops s (fun _ _ => trivial) ⟨rfl, rfl⟩


/-- Over every run of calls, each succeeding or failing, and of factor increases, the
pool's surplus over the records (net of credited interest) and the coin supply of every
denom stay fixed; one successful Deposit or Withdraw moves exactly its coins. -/
theorem conservation (env : Env) :
    (∀ (s : State Addr) (ops : List (Op Addr)) (denom : String),
      poolSurplus (run env s ops) denom = poolSurplus s denom ∧
        coinSupply (run env s ops) denom = coinSupply s denom) ∧
    (∀ (depositor : Addr) (coins : Coins) (s s' : State Addr), deposit env depositor coins s = .ok () s' →
      ∃ standing s₁, captureAndSync env depositor (initSupplyInterestFactors env coins s) = .ok standing s₁ ∧
        ∀ denom, s'.pool.sumOf denom = s.pool.sumOf denom + coins.sumOf denom ∧
          (s'.balances depositor).sumOf denom = (s.balances depositor).sumOf denom - coins.sumOf denom ∧
          heldOf (s'.deposits depositor) denom = heldOf (s₁.deposits depositor) denom + coins.sumOf denom) ∧
    (∀ (depositor : Addr) (coins : Coins) (s s' : State Addr), withdraw env depositor coins s = .ok () s' →
      ∃ standing s₁, captureAndSync env depositor s = .ok standing s₁ ∧
        ∀ denom, s'.pool.sumOf denom = s.pool.sumOf denom - coins.sumOf denom ∧
          (s'.balances depositor).sumOf denom = (s.balances depositor).sumOf denom + coins.sumOf denom ∧
          heldOf (s'.deposits depositor) denom = heldOf (s₁.deposits depositor) denom - coins.sumOf denom) :=
  ⟨conserved_run env, fun _ _ _ _ => deposit_moves_coins, fun _ _ _ _ => withdraw_moves_coins⟩

end KavaHard.Keeper
