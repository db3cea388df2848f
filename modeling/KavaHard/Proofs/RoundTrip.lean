import KavaHard.Proofs.Settlement
import KavaHard.Proofs.LtvIndex

/-! A Withdraw of the coins just deposited.

A Deposit that returns moves its coins from the depositor's balance into the module
account and adds them to the record its own sync left, and it leaves that record settled
(`Settlement.lean`). A Withdraw of the same coins right after syncs nothing, takes the
coins off the record and moves them back. On valid sets `Add` and `SafeSub` of one set
undo each other (`add_safeSub_cancel`, `safeSub_add_cancel`), so the depositor's balance,
the module account and the record's amount come back as lists, and the record is deleted
exactly when the Deposit created it (`withdraw_undoes_deposit`). What does not come back:
the global factors the Deposit created, the index entries it put in front, and the LTV
index it moved. -/
namespace KavaHard.Keeper
open KavaHard.Sdk KavaHard.Types Coins

variable {Addr : Type} [DecidableEq Addr]

/-- A Withdraw's proposal on a Deposit's record of the same coins: the coins alone on a new
record, which `IsEqual` finds equal to them, or exactly the amount of the record the
Deposit added to, which it does not. -/
theorem depositedPosition_safeSub {factors : String → Option Dec} {current : Option Deposit}
    {coins proposed : Coins} {deposit : Deposit}
    (hcur : ∀ p, current = some p → p.amount.isValid = true ∧ p.amount ≠ []) (hv : coins.isValid = true)
    (hd : depositedPosition factors current coins = .ok deposit)
    (hsub : deposit.amount.safeSub coins = .ok (proposed, false)) :
    (current = none ∧ deposit.amount.isEqual coins = .ok true) ∨
      ∃ p, current = some p ∧ proposed = p.amount ∧ deposit.amount.isEqual coins ≠ .ok true := by
  cases current with
  | none =>
    cases hd
    exact .inl ⟨rfl, isEqual_self ((isValid_iff _).mp hv).2⟩
  | some p =>
    obtain ⟨newFactors, -, hd⟩ := bind_eq_ok.mp hd
    obtain ⟨amount, hadd, hd⟩ := bind_eq_ok.mp hd
    cases hd
    obtain ⟨hvp, hne⟩ := hcur p rfl
    refine .inr ⟨p, rfl, add_safeSub_cancel hvp hv hadd hsub, fun heq => ?_⟩
    refine ne_nil_of_sumOf_le hvp hne (fun denom => ?_) rfl
    have := sumOf_of_isEqual denom heq
    rw [sumOf_safeAdd denom _ _ _ hadd] at this
    simp only [sumOf_nil]
    omega

/-- From factors in range and valid records, balance and module account, a Withdraw of
the coins a Deposit that returned has just added gives the depositor's balance and the
module account back as they were, and the record back as the Deposit's own sync left it:
deleted when the Deposit created it, and otherwise holding the same amount. -/
theorem withdraw_undoes_deposit (env : Env) (s s₁ s₂ : State Addr) (depositor : Addr) (coins : Coins)
    (hfr : FactorsInRange s.supplyInterestFactors) (hrec : RecordsValid s)
    (hbal : (s.balances depositor).isValid = true) (hpool : s.pool.isValid = true)
    (hd : deposit env depositor coins s = .ok () s₁) (hw : withdraw env depositor coins s₁ = .ok () s₂) :
    s₂.balances depositor = s.balances depositor ∧ s₂.pool = s.pool ∧
      ∃ standing sA, captureAndSync env depositor (initSupplyInterestFactors env coins s) = .ok standing sA ∧
        (s₂.deposits depositor).map Position.amount = (sA.deposits depositor).map Position.amount := by
  obtain ⟨_, _, sA, hc, hdc⟩ := deposit_ok hd
  -- The Deposit leaves its record settled, so the Withdraw's own sync writes no record.
  have hset := depositCommit_settled (captureAndSync_settled hc) hdc
  have hfr₁ := factorsInRange_deposit hfr hc hdc
  obtain ⟨_, _, sB, hc', hwc⟩ := withdraw_ok hw
  obtain ⟨-, hdB, -⟩ := captureAndSync_of_settled hfr₁ hset hc'
  have htB := captureAndSync_touches hc'
  -- What the Deposit moved.
  obtain ⟨-, bal₁, pool₁, D, hm₁, hD, hu⟩ := depositCommit_ok hdc
  obtain ⟨_, rfl⟩ := ignoreError_updateItemInLtvIndex_frame hu
  obtain ⟨hcv, hsub₁, hadd₁⟩ := moveCoins_ok hm₁
  have htA := captureAndSync_touches hc
  obtain ⟨_, hf⟩ := initSupplyInterestFactors_frame env coins s
  rw [htA.balances, hf] at hsub₁
  rw [htA.pool, hf] at hadd₁
  have hrecA : RecordsValid sA := (recordsValid env).capture ((recordsValid env).init coins s hrec) hc
  -- What the Withdraw moved.
  obtain ⟨D', proposed, pool₂, bal₂, hD', hsub, -, hm₂, hcommit⟩ := withdrawCommit_ok hwc
  rw [hdB] at hD'
  simp only [setDeposit, Function.update_same, Option.some.injEq] at hD'
  subst hD'
  rw [htB.pool, htB.balances] at hm₂
  simp only [setDeposit, Function.update_same] at hm₂
  obtain ⟨-, hsub₂, hadd₂⟩ := moveCoins_ok hm₂
  have hbal₂ : bal₂ = s.balances depositor := safeSub_add_cancel hbal hcv hsub₁ hadd₂
  have hpool₂ : pool₂ = s.pool := add_safeSub_cancel hpool hcv hadd₁ hsub₂
  subst hbal₂ hpool₂
  rcases depositedPosition_safeSub (hrecA depositor) hcv hD hsub with ⟨hnone, htrue⟩ | ⟨p, hp, rfl, hne⟩
  · -- The Deposit created the record: `IsEqual` finds the coins, and the record is deleted.
    rcases hcommit with ⟨-, rfl⟩ | ⟨heq, -⟩
    · refine ⟨?_, ?_, _, sA, hc, ?_⟩ <;> simp [deleteDeposit, hnone]
    · rw [htrue] at heq
      cases heq
  · -- The Deposit added to a record: the Withdraw stores its proposal, the old amount.
    rcases hcommit with ⟨heq, -⟩ | ⟨-, amount, hamount, hset'⟩
    · exact absurd heq hne
    obtain ⟨_, rfl⟩ := ignoreError_updateItemInLtvIndex_frame hset'
    obtain ⟨_, hsubA, -⟩ := Coins.sub_ok hamount
    rw [hsub] at hsubA
    obtain rfl := (Prod.mk.inj (Except.ok.inj hsubA)).1
    refine ⟨?_, ?_, _, sA, hc, ?_⟩ <;> simp [setDeposit, hp]

/-- Ten ukava deposited and withdrawn from a balance of a hundred. -/
theorem withdraw_undoes_deposit_ukava :
    (run ukavaEnv (genesis fun _ : Nat => [⟨"ukava", 100⟩]) [.deposit 0 [⟨"ukava", 10⟩], .withdraw 0 [⟨"ukava", 10⟩]]).balances 0 =
        (genesis fun _ : Nat => [⟨"ukava", 100⟩]).balances 0 ∧
      (run ukavaEnv (genesis fun _ : Nat => [⟨"ukava", 100⟩]) [.deposit 0 [⟨"ukava", 10⟩], .withdraw 0 [⟨"ukava", 10⟩]]).pool =
        (genesis fun _ : Nat => [⟨"ukava", 100⟩]).pool ∧
      ∃ standing sA, captureAndSync ukavaEnv 0
          (initSupplyInterestFactors ukavaEnv [⟨"ukava", 10⟩] (genesis fun _ : Nat => [⟨"ukava", 100⟩])) =
            .ok standing sA ∧
        ((run ukavaEnv (genesis fun _ : Nat => [⟨"ukava", 100⟩])
            [.deposit 0 [⟨"ukava", 10⟩], .withdraw 0 [⟨"ukava", 10⟩]]).deposits 0).map Position.amount =
          (sA.deposits 0).map Position.amount :=
  withdraw_undoes_deposit ukavaEnv _ _ _ 0 [⟨"ukava", 10⟩] (fun _ _ h => (by cases h))
    (fun _ _ h => (by cases h)) rfl rfl rfl rfl

end KavaHard.Keeper
