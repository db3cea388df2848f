import KavaHard.Proofs.Conservation
import KavaHard.Sdk.ValidCoins

/-! What the module account holds.

`GetTotalDeposited` reads the module account with `AmountOf`, a binary search that is
right on a sorted list. The bank keeps the account a valid set: it adds only a valid set
to it, and takes one off only when no amount comes out negative (`poolValid`). From
genesis, where the account and the records are empty, conservation then says what
`GetTotalDeposited` returns after any run, each call succeeding or failing and the
factors rising in between (`getTotalDeposited_from_genesis`): what the deposit records
hold, less the interest the syncs have credited to them. That interest is in the records
and not in the account. -/
namespace KavaHard.Keeper
open KavaHard.Sdk KavaHard.Types Coins

variable {Addr : Type} [DecidableEq Addr]

/-- The module account stays a valid set. -/
def poolValid (env : Env) : @Invariant Addr _ env where
  Inv s := s.pool.isValid = true
  Rule _ := True
  init coins s h := by
    obtain ⟨_, hs⟩ := initSupplyInterestFactors_frame env coins s
    rw [hs]
    exact h
  syncBorrow _ _ _ h hs := by dsimp only; rw [(syncBorrowInterest_touches hs).pool]; exact h
  syncSupply _ _ _ h hs := by dsimp only; rw [(syncSupplyInterest_touches hs).pool]; exact h
  depositCommit _ _ _ _ _ _ _ h hs := by
    obtain ⟨-, bal, pool, deposit, hm, -, hu⟩ := depositCommit_ok hs
    obtain ⟨_, rfl⟩ := ignoreError_updateItemInLtvIndex_frame hu
    obtain ⟨hv, -, hadd⟩ := moveCoins_ok hm
    exact (safeAdd_valid h hv hadd).1
  withdrawCommit _ _ _ _ _ _ _ h hs := by
    obtain ⟨deposit, -, pool, bal, -, -, -, hm, hcommit⟩ := withdrawCommit_ok hs
    obtain ⟨hv, hsub, -⟩ := moveCoins_ok hm
    have hpool := safeSub_valid ((isValid_iff _).mp h).2 ((isValid_iff _).mp hv).2 hsub
    rcases hcommit with ⟨-, rfl⟩ | ⟨-, amount, -, hset⟩
    · exact hpool
    · obtain ⟨_, rfl⟩ := ignoreError_updateItemInLtvIndex_frame hset
      exact hpool
  accrueSupply _ _ _ h := h
  accrueBorrow _ _ _ h := h

variable [Fintype Addr]

/-- From genesis, after every run, `GetTotalDeposited` returns what the deposit records
hold of the denom less the interest the syncs have credited to them. -/
theorem getTotalDeposited_from_genesis (env : Env) (balances : Addr → Coins) (ops : List (Op Addr))
    (denom : String) :
    getTotalDeposited (run env (genesis balances) ops) denom =
      totalDeposited (run env (genesis balances) ops).deposits denom -
        (run env (genesis balances) ops).creditedSupplyInterest denom := by
  have hvalid := (poolValid env).run ops (genesis balances) (fun _ _ => trivial) rfl
  have hsurplus := (conserved_run env (genesis balances) ops denom).1
  have h0 : poolSurplus (genesis balances) denom = 0 := by simp [poolSurplus, totalDeposited, genesis]
  rw [getTotalDeposited, amountOf_eq_sumOf ((isValid_iff _).mp hvalid).2]
  unfold poolSurplus at hsurplus h0
  omega

end KavaHard.Keeper
