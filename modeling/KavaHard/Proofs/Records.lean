import KavaHard.Keeper.Run
import KavaHard.Proofs.Sync

/-! Valid deposit records, and what `Withdraw` commits.

Every record the keeper stores holds a valid, non-empty amount (`RecordsValid`), over
every run in which no `Deposit` is of the empty set: the bank refuses an invalid set,
so a first deposit stores a valid one; `Add` keeps sets sorted and positive; a sync
adds non-negative interest; and `Withdraw` deletes a record it would empty
(`records_stay_valid`).

After the caller's sync a record holds no zero amount, and on such a record the
`IsEqual` and `Sub` of lines 216 and 227 only read the `SafeSub` proposal of line 188,
whatever order the record is in: `withdrawCommit` is `withdrawCommitByProposal`, which
deletes the record when the proposal is empty and stores the proposal otherwise. So a
successful `Withdraw`, from any state, leaves the records the LTV check approved
(`withdraw_commits_proposal`). -/
namespace KavaHard.Keeper
open KavaHard.Sdk KavaHard.Types Coins Method

variable {Addr : Type} [DecidableEq Addr]

/-! ### Valid records -/

/-- Every stored deposit holds a valid, non-empty amount. -/
def RecordsValid (s : State Addr) : Prop :=
  ∀ addr deposit, s.deposits addr = some deposit → deposit.amount.isValid = true ∧ deposit.amount ≠ []

theorem recordsValid_setDeposit {s : State Addr} (hs : RecordsValid s) {addr : Addr} {deposit : Deposit}
    (hv : deposit.amount.isValid = true) (hne : deposit.amount ≠ []) :
    RecordsValid (setDeposit addr deposit s) := by
  intro a d h
  by_cases ha : a = addr
  · subst ha
    simp only [setDeposit, Function.update_same, Option.some.injEq] at h
    subst h
    exact ⟨hv, hne⟩
  · exact hs a d (by simpa [setDeposit, Function.update_noteq ha] using h)

theorem recordsValid_deleteDeposit {s : State Addr} (hs : RecordsValid s) (addr : Addr) :
    RecordsValid (deleteDeposit addr s) := by
  intro a d h
  by_cases ha : a = addr
  · subst ha
    simp [deleteDeposit] at h
  · exact hs a d (by simpa [deleteDeposit, Function.update_noteq ha] using h)

/-- After the caller's sync its record, if any, holds no zero amount. -/
theorem captureAndSync_zeroFree {env : Env} {addr : Addr} {s s' : State Addr} {standing : Dec × Bool}
    (h : captureAndSync env addr s = .ok standing s') :
    ∀ deposit, s'.deposits addr = some deposit → ∀ x ∈ deposit.amount, x.amount ≠ 0 := by
  obtain ⟨-, s₁, -, hsup⟩ := captureAndSync_ok h
  rcases syncSupplyInterest_ok hsup with ⟨hnone, rfl⟩ | ⟨deposit, synced, interest, -, hsync, rfl⟩
  · intro d hd
    rw [hnone] at hd
    cases hd
  · intro d hd x hx
    simp only [setDeposit, Function.update_same, Option.some.injEq] at hd
    subst hd
    exact (mem_safeAdd _ _ _ (syncPosition_ok hsync).2 x hx).1

theorem recordsValid_syncSupplyInterest {addr : Addr} {s s' : State Addr} (hs : RecordsValid s)
    (h : syncSupplyInterest addr s = .ok () s') : RecordsValid s' := by
  rcases syncSupplyInterest_ok h with ⟨-, rfl⟩ | ⟨deposit, synced, interest, hdep, hsync, rfl⟩
  · exact hs
  · obtain ⟨hv, hne⟩ := hs addr deposit hdep
    exact recordsValid_setDeposit hs (syncPosition_valid hv hsync)
      (ne_nil_of_sumOf_le hv hne (sumOf_le_syncPosition ((isValid_iff _).mp hv).2 hsync))

/-- The record a deposit of a valid non-empty set writes is valid and non-empty. -/
theorem depositedPosition_valid {factors : String → Option Dec} {current : Option Deposit}
    {coins : Coins} {deposit : Deposit} (hcur : ∀ d, current = some d → d.amount.isValid = true)
    (hv : coins.isValid = true) (hne : coins ≠ [])
    (h : depositedPosition factors current coins = .ok deposit) :
    deposit.amount.isValid = true ∧ deposit.amount ≠ [] := by
  cases current with
  | none =>
    cases h
    exact ⟨hv, hne⟩
  | some current =>
    obtain ⟨_, -, h⟩ := bind_eq_ok.mp h
    obtain ⟨amount, ha, h⟩ := bind_eq_ok.mp h
    cases h
    obtain ⟨hva, hle⟩ := safeAdd_valid (hcur _ rfl) hv ha
    exact ⟨hva, ne_nil_of_sumOf_le hv hne hle⟩

/-- Deposit's new entries are for denoms of the coins. -/
theorem missingFactors_denoms {factors : String → Option Dec} {amount : Coins} :
    ∀ {coins : Coins} {newFactors : List InterestFactor}, missingFactors factors amount coins = .ok newFactors →
      ∀ e ∈ newFactors, ∃ c ∈ coins, c.denom = e.denom
  | [], _, h, e, he => by
    cases h
    cases he
  | coin :: rest, _, h, e, he => by
    rw [missingFactors] at h
    obtain ⟨_, -, h⟩ := bind_eq_ok.mp h
    obtain ⟨tail, htail, h⟩ := bind_eq_ok.mp h
    cases h
    have ih : ∀ e ∈ tail, ∃ c ∈ coin :: rest, c.denom = e.denom := fun e he =>
      (missingFactors_denoms htail e he).imp fun _ ⟨hx, hxd⟩ => ⟨List.mem_cons_of_mem _ hx, hxd⟩
    split at he
    · exact ih e he
    · rcases List.mem_cons.mp he with rfl | he
      · exact ⟨coin, List.mem_cons_self _ _, rfl⟩
      · exact ih e he

theorem recordsValid_depositCommit {env : Env} {depositor : Addr} {coins : Coins} {prevLtv : Dec}
    {shouldRemoveIndex : Bool} {s s' : State Addr} (hne : coins ≠ []) (hs : RecordsValid s)
    (h : depositCommit env depositor coins prevLtv shouldRemoveIndex s = .ok () s') : RecordsValid s' := by
  obtain ⟨-, bal, pool, deposit, hm, hd, h⟩ := depositCommit_ok h
  obtain ⟨_, rfl⟩ := ignoreError_updateItemInLtvIndex_frame h
  obtain ⟨hva, hnea⟩ := depositedPosition_valid (fun d hd' => (hs depositor d hd').1) (moveCoins_ok hm).1 hne hd
  exact recordsValid_setDeposit (s := {s with balances := _, pool := pool}) hs hva hnea

/-! ### What `Withdraw` commits -/

/-- `Sub` after a `SafeSub` that found no negative amount returns its difference. -/
theorem sub_of_safeSub {coins coinsB diff : Coins} (h : coins.safeSub coinsB = .ok (diff, false)) :
    coins.sub coinsB = .ok diff := by
  simp [Coins.sub, h, bind, Except.bind, pure, Except.pure]

/-- A successful withdraw commit approved its proposal, and stored it in the record or,
when it is empty, deleted the record. -/
theorem withdrawCommit_proposal {env : Env} {depositor : Addr} {coins : Coins} {prevLtv : Dec}
    {shouldRemoveIndex : Bool} {s s' : State Addr}
    (hz : ∀ deposit, s.deposits depositor = some deposit → ∀ x ∈ deposit.amount, x.amount ≠ 0)
    (h : withdrawCommit env depositor coins prevLtv shouldRemoveIndex s = .ok () s') :
    ∃ deposit proposed, s.deposits depositor = some deposit ∧
      deposit.amount.safeSub coins = .ok (proposed, false) ∧
      (isWithinValidLtvRange env proposed ((s.borrows depositor).getD ⟨[], []⟩).amount :
        Except (Err Addr) _) = .ok true ∧
      s'.borrows depositor = s.borrows depositor ∧
      s'.deposits depositor = if proposed = [] then none else some {deposit with amount := proposed} := by
  obtain ⟨deposit, proposed, pool, bal, hdep, hsub, hltv, hm, hcommit⟩ := withdrawCommit_ok h
  refine ⟨deposit, proposed, hdep, hsub, hltv, ?_⟩
  have heq := isEqual_of_safeSub (hz deposit hdep) (moveCoins_ok hm).1 hsub
  rcases hcommit with ⟨htrue, rfl⟩ | ⟨hfalse, amount, hamount, hset⟩
  · have : proposed = [] := List.isEmpty_iff.mp (Except.ok.inj (heq.symm.trans htrue))
    simp [deleteDeposit, this]
  · have : proposed ≠ [] := fun he => by simp [he] at heq; rw [heq] at hfalse; cases hfalse
    obtain rfl : amount = proposed := Except.ok.inj (hamount.symm.trans (sub_of_safeSub hsub))
    obtain ⟨_, rfl⟩ := ignoreError_updateItemInLtvIndex_frame hset
    simp [setDeposit, this]

theorem recordsValid_withdrawCommit {env : Env} {depositor : Addr} {coins : Coins} {prevLtv : Dec}
    {shouldRemoveIndex : Bool} {s s' : State Addr} (hs : RecordsValid s)
    (h : withdrawCommit env depositor coins prevLtv shouldRemoveIndex s = .ok () s') : RecordsValid s' := by
  obtain ⟨deposit, proposed, pool, bal, hdep, hsub, -, hm, hcommit⟩ := withdrawCommit_ok h
  have hvd := (hs depositor deposit hdep).1
  have heq := isEqual_of_safeSub (fun x hx => (((isValid_iff _).mp hvd).1 x hx).ne') (moveCoins_ok hm).1 hsub
  rcases hcommit with ⟨-, rfl⟩ | ⟨hfalse, amount, hamount, hset⟩
  · exact recordsValid_deleteDeposit (s := {s with balances := _, pool := pool}) hs depositor
  · have : proposed ≠ [] := fun he => by simp [he] at heq; rw [heq] at hfalse; cases hfalse
    obtain rfl : amount = proposed := Except.ok.inj (hamount.symm.trans (sub_of_safeSub hsub))
    obtain ⟨_, rfl⟩ := ignoreError_updateItemInLtvIndex_frame hset
    exact recordsValid_setDeposit (s := {s with balances := _, pool := pool}) hs
      (safeSub_valid ((isValid_iff _).mp hvd).2 ((isValid_iff _).mp (moveCoins_ok hm).1).2 hsub) this

/-- Valid records, as an invariant of the ledger over runs with no deposit of the empty set. -/
def recordsValid (env : Env) : @Invariant Addr _ env where
  Inv := RecordsValid
  Rule op := ∀ depositor coins, op = .deposit depositor coins → coins ≠ []
  init coins s hs := by
    obtain ⟨_, h⟩ := initSupplyInterestFactors_frame env coins s
    rw [h]
    exact hs
  syncBorrow _ _ _ hs h := by
    obtain ⟨_, rfl, -⟩ := syncBorrowInterest_ok h
    exact hs
  syncSupply _ _ _ hs h := recordsValid_syncSupplyInterest hs h
  depositCommit depositor coins _ _ _ _ hr hs h := recordsValid_depositCommit (hr depositor coins rfl) hs h
  withdrawCommit _ _ _ _ _ _ _ hs h := recordsValid_withdrawCommit hs h
  accrueSupply _ _ _ hs := hs
  accrueBorrow _ _ _ hs := hs

/-- The withdraw commit as its proposal reads: the record is deleted when the proposal
is empty and holds the proposal otherwise; no `IsEqual` and no `Sub`. -/
def withdrawCommitByProposal (env : Env) (depositor : Addr) (coins : Coins) (prevLtv : Dec)
    (shouldRemoveIndex : Bool) : Method Addr Unit := do
  let some deposit ← getDeposit depositor | throw (.depositNotFound depositor)
  let borrow := (← getBorrow depositor).getD ⟨[], []⟩
  let (proposedDepositAmount, isNegative) ← panics (deposit.amount.safeSub coins)
  if isNegative then throw .negativeBorrowedCoins
  let valid ← liftErr (isWithinValidLtvRange env proposedDepositAmount borrow.amount)
  if !valid then throw .invalidWithdrawAmount
  sendCoinsFromModuleToAccount depositor coins
  if proposedDepositAmount.isEmpty then
    modify (deleteDeposit depositor)
  else
    modify (setDeposit depositor {deposit with amount := proposedDepositAmount})
    ignoreError (updateItemInLtvIndex env prevLtv shouldRemoveIndex depositor)

/-- `Withdraw` with its commit read by the proposal. -/
def withdrawByProposal (env : Env) (depositor : Addr) (coins : Coins) : Method Addr Unit := do
  let (prevLtv, shouldRemoveIndex) ← captureAndSync env depositor
  withdrawCommitByProposal env depositor coins prevLtv shouldRemoveIndex

omit [DecidableEq Addr] in
theorem panics_ok {α : Type} {x : Except String α} {a : α} {s s' : State Addr} :
    (panics x : Method Addr α) s = .ok a s' ↔ x = .ok a ∧ s' = s := by
  cases x <;> simp [panics, liftErr, panicErr, Except.mapError, eq_comm]

/-- On a record with no zero amount, the commit of lines 216-230 is the commit by
proposal. -/
theorem withdrawCommit_eq_byProposal {env : Env} {depositor : Addr} {coins : Coins} {prevLtv : Dec}
    {shouldRemoveIndex : Bool} {s : State Addr}
    (hz : ∀ deposit, s.deposits depositor = some deposit → ∀ x ∈ deposit.amount, x.amount ≠ 0) :
    withdrawCommit env depositor coins prevLtv shouldRemoveIndex s =
      withdrawCommitByProposal env depositor coins prevLtv shouldRemoveIndex s := by
  unfold withdrawCommit withdrawCommitByProposal
  rw [getDeposit_bind, getDeposit_bind]
  cases hdep : s.deposits depositor with
  | none => rfl
  | some deposit =>
    simp only [getBorrow_bind]
    refine bind_congr fun ⟨proposed, isNegative⟩ s₁ h₁ => ?_
    obtain ⟨hsub, rfl⟩ := panics_ok.mp h₁
    cases isNegative
    · refine bind_congr fun _ _ h => ?_
      cases h
      refine bind_congr fun valid s₂ _ => ?_
      cases valid
      · rfl
      · refine bind_congr fun _ _ h => ?_
        cases h
        refine bind_congr fun _ s₃ h₃ => ?_
        obtain ⟨_, _, hm, -⟩ := sendCoinsFromModuleToAccount_ok h₃
        simp only [isEqual_of_safeSub (hz deposit hdep) (moveCoins_ok hm).1 hsub, sub_of_safeSub hsub]
        cases proposed.isEmpty <;> rfl
    · rfl

/-! ### Over runs -/

/-- Over every run with no deposit of the empty set, from valid records, every record
stays valid and non-empty, and `Withdraw` is its commit by proposal: it deletes the
record exactly when the proposal is empty, and its `IsEqual` and `Sub` never panic. -/
theorem records_stay_valid (env : Env) (s : State Addr) (ops : List (Op Addr))
    (hops : ∀ depositor coins, Op.deposit depositor coins ∈ ops → coins ≠ []) (hs : RecordsValid s) :
    RecordsValid (run env s ops) ∧
      ∀ depositor coins, withdraw env depositor coins (run env s ops) =
        withdrawByProposal env depositor coins (run env s ops) := by
  have hrun := (recordsValid env).run ops s (fun op hop depositor coins he => hops depositor coins (he ▸ hop)) hs
  exact ⟨hrun, fun depositor coins => bind_congr fun ⟨_, _⟩ _ hc =>
    withdrawCommit_eq_byProposal (captureAndSync_zeroFree hc)⟩

/-- From genesis under the ukava market, a Deposit and a partial Withdraw that both
return. -/
theorem records_stay_valid_ukava :
    (run ukavaEnv (genesis fun _ : Nat => [⟨"ukava", 100⟩])
        [.deposit 0 [⟨"ukava", 10⟩], .withdraw 0 [⟨"ukava", 4⟩]]).deposits 0 =
        some ⟨[⟨"ukava", 6⟩], [⟨"ukava", Dec.oneDec⟩]⟩ ∧
      RecordsValid (run ukavaEnv (genesis fun _ : Nat => [⟨"ukava", 100⟩])
        [.deposit 0 [⟨"ukava", 10⟩], .withdraw 0 [⟨"ukava", 4⟩]]) ∧
      ∀ depositor coins,
        withdraw ukavaEnv depositor coins (run ukavaEnv (genesis fun _ : Nat => [⟨"ukava", 100⟩])
            [.deposit 0 [⟨"ukava", 10⟩], .withdraw 0 [⟨"ukava", 4⟩]]) =
          withdrawByProposal ukavaEnv depositor coins (run ukavaEnv (genesis fun _ : Nat => [⟨"ukava", 100⟩])
            [.deposit 0 [⟨"ukava", 10⟩], .withdraw 0 [⟨"ukava", 4⟩]]) :=
  ⟨by decide, records_stay_valid _ _ _ (by simp) fun _ _ h => by cases h⟩

/-- A successful `Withdraw` stores exactly the proposal the LTV check approved, deleting
the record when the proposal is empty, and keeps the synced borrow that was checked. -/
theorem withdraw_ok_proposal {env : Env} {depositor : Addr} {coins : Coins} {s s' : State Addr}
    (h : withdraw env depositor coins s = .ok () s') :
    ∃ standing s₁ deposit proposed, captureAndSync env depositor s = .ok standing s₁ ∧
      s₁.deposits depositor = some deposit ∧ deposit.amount.safeSub coins = .ok (proposed, false) ∧
      (isWithinValidLtvRange env proposed ((s₁.borrows depositor).getD ⟨[], []⟩).amount :
        Except (Err Addr) _) = .ok true ∧
      s'.borrows depositor = s₁.borrows depositor ∧
      (s'.deposits depositor).map Position.amount = (if proposed = [] then none else some proposed) ∧
      (isWithinValidLtvRange env ((s'.deposits depositor).elim [] Position.amount)
        ((s'.borrows depositor).getD ⟨[], []⟩).amount : Except (Err Addr) _) = .ok true := by
  obtain ⟨_, _, s₁, hc, hw⟩ := withdraw_ok h
  obtain ⟨deposit, proposed, hdep, hsub, hltv, hb, hrec⟩ :=
    withdrawCommit_proposal (captureAndSync_zeroFree hc) hw
  have hamt : (s'.deposits depositor).map Position.amount = if proposed = [] then none else some proposed := by
    rw [hrec]
    split_ifs <;> rfl
  have hstored : (s'.deposits depositor).elim [] Position.amount = proposed := by
    cases hd : s'.deposits depositor <;> rw [hd] at hamt <;> split_ifs at hamt <;> simp_all
  exact ⟨_, s₁, deposit, proposed, hc, hdep, hsub, hltv, hb, hamt, by rw [hstored, hb]; exact hltv⟩

/-- From any state, a successful `Withdraw` stores exactly the proposal the LTV check
approved, deleting the record when the proposal is empty, and keeps the synced borrow
that was checked; so the records it leaves pass the check, and a `Withdraw` whose
proposal the check rejects fails. -/
theorem withdraw_commits_proposal (env : Env) (depositor : Addr) (coins : Coins) (s : State Addr) :
    (∀ s', withdraw env depositor coins s = .ok () s' →
      ∃ standing s₁ deposit proposed, captureAndSync env depositor s = .ok standing s₁ ∧
        s₁.deposits depositor = some deposit ∧ deposit.amount.safeSub coins = .ok (proposed, false) ∧
        (isWithinValidLtvRange env proposed ((s₁.borrows depositor).getD ⟨[], []⟩).amount :
          Except (Err Addr) _) = .ok true ∧
        s'.borrows depositor = s₁.borrows depositor ∧
        (s'.deposits depositor).map Position.amount = (if proposed = [] then none else some proposed) ∧
        (isWithinValidLtvRange env ((s'.deposits depositor).elim [] Position.amount)
          ((s'.borrows depositor).getD ⟨[], []⟩).amount : Except (Err Addr) _) = .ok true) ∧
    ∀ standing s₁ deposit proposed, captureAndSync env depositor s = .ok standing s₁ →
      s₁.deposits depositor = some deposit → deposit.amount.safeSub coins = .ok (proposed, false) →
      (isWithinValidLtvRange env proposed ((s₁.borrows depositor).getD ⟨[], []⟩).amount :
        Except (Err Addr) _) ≠ .ok true →
      ∃ e s', withdraw env depositor coins s = .error e s' := by
  refine ⟨fun _ => withdraw_ok_proposal, fun standing s₁ deposit proposed hc hdep hsub hrej => ?_⟩
  cases hw : withdraw env depositor coins s with
  | ok _ s' =>
    obtain ⟨_, _, _, _, hc', hdep', hsub', hltv', -⟩ := withdraw_ok_proposal hw
    rw [hc] at hc'
    cases hc'
    rw [hdep] at hdep'
    cases hdep'
    rw [hsub] at hsub'
    cases hsub'
    exact absurd hltv' hrej
  | error e s' => exact ⟨e, s', rfl⟩

end KavaHard.Keeper
