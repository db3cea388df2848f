import KavaHard.Keeper.Run

/-! What a call leaves alone.

A commit writes the caller's deposit record, the caller's balance, the pool and the
LTV index, and nothing else (`CommitFrame`); a sync writes the caller's records
(`Touches`). So a call on one account leaves every other account's records as they
were (`step_deposits_other`), and its balance too: over any run, calls on other
accounts and the accruals never change an account's records or balance, whether they
succeed or fail (`accounts_isolated`). No call changes a stored supply factor: Deposit only
creates the factor of a new denom, at `1.0`, and the accrual only raises one
(`factorsKept`).

A `Deposit` or `Withdraw` that returns an error is not atomic: Deposit has created
factors, and both have synced the caller's records, before the check that fails
(`failed_deposit_creates_factor`). What such a call can leave is exactly that
(`failed_call_frame`). -/
namespace KavaHard.Keeper
open KavaHard.Sdk KavaHard.Types Method

variable {Addr : Type} [DecidableEq Addr]

/-! ### Commits -/

/-- `s'` is `s` with at most `addr`'s deposit record and balance, the pool and the LTV
index rewritten: what a commit may write. -/
structure CommitFrame (addr : Addr) (s s' : State Addr) : Prop where
  supplyInterestFactors : s'.supplyInterestFactors = s.supplyInterestFactors
  borrowInterestFactors : s'.borrowInterestFactors = s.borrowInterestFactors
  deposits : ∀ other, other ≠ addr → s'.deposits other = s.deposits other
  borrows : s'.borrows = s.borrows
  balances : ∀ other, other ≠ addr → s'.balances other = s.balances other
  creditedSupplyInterest : s'.creditedSupplyInterest = s.creditedSupplyInterest

theorem commitFrame_set (addr : Addr) (s : State Addr) (deposit : Option Deposit) (bal pool : Coins)
    (index : Dec × Addr → Bool) :
    CommitFrame addr s {s with
      deposits := Function.update s.deposits addr deposit, balances := Function.update s.balances addr bal,
      pool := pool, ltvIndex := index} :=
  ⟨rfl, rfl, fun _ ho => Function.update_noteq ho _ _, rfl, fun _ ho => Function.update_noteq ho _ _, rfl⟩

theorem depositCommit_frame {env : Env} {depositor : Addr} {coins : Coins} {prevLtv : Dec}
    {shouldRemoveIndex : Bool} {s s' : State Addr}
    (h : depositCommit env depositor coins prevLtv shouldRemoveIndex s = .ok () s') :
    CommitFrame depositor s s' := by
  obtain ⟨-, bal, pool, deposit, -, -, h⟩ := depositCommit_ok h
  obtain ⟨index, rfl⟩ := ignoreError_updateItemInLtvIndex_frame h
  exact commitFrame_set depositor s (some deposit) bal pool index

theorem withdrawCommit_frame {env : Env} {depositor : Addr} {coins : Coins} {prevLtv : Dec}
    {shouldRemoveIndex : Bool} {s s' : State Addr}
    (h : withdrawCommit env depositor coins prevLtv shouldRemoveIndex s = .ok () s') :
    CommitFrame depositor s s' := by
  obtain ⟨deposit, -, pool, bal, -, -, -, -, hcommit⟩ := withdrawCommit_ok h
  rcases hcommit with ⟨-, rfl⟩ | ⟨-, amount, -, hset⟩
  · exact commitFrame_set depositor s none bal pool s.ltvIndex
  · obtain ⟨index, rfl⟩ := ignoreError_updateItemInLtvIndex_frame hset
    exact commitFrame_set depositor s (some {deposit with amount := amount}) bal pool index

/-! ### Other accounts -/

/-- The account whose records a call reads and writes; none for an accrual. -/
def Op.account : Op Addr → Option Addr
  | .deposit depositor _ | .withdraw depositor _ => some depositor
  | .syncSupplyInterest addr => some addr
  | .accrueSupplyInterest _ _ | .accrueBorrowInterest _ _ => none

/-- `s'` keeps `addr`'s deposit record, borrow record and balance from `s`. -/
structure Isolated (addr : Addr) (s s' : State Addr) : Prop where
  deposits : s'.deposits addr = s.deposits addr
  borrows : s'.borrows addr = s.borrows addr
  balances : s'.balances addr = s.balances addr

omit [DecidableEq Addr] in
theorem Isolated.refl (addr : Addr) (s : State Addr) : Isolated addr s s := ⟨rfl, rfl, rfl⟩

omit [DecidableEq Addr] in
theorem Isolated.trans {addr : Addr} {s₁ s₂ s₃ : State Addr} (h₁ : Isolated addr s₁ s₂)
    (h₂ : Isolated addr s₂ s₃) : Isolated addr s₁ s₃ :=
  ⟨h₂.deposits.trans h₁.deposits, h₂.borrows.trans h₁.borrows, h₂.balances.trans h₁.balances⟩

omit [DecidableEq Addr] in
theorem Touches.isolated {other addr : Addr} {s s' : State Addr} (h : Touches other s s') (hne : addr ≠ other) :
    Isolated addr s s' :=
  ⟨h.deposits addr hne, h.borrows addr hne, congrFun h.balances addr⟩

omit [DecidableEq Addr] in
theorem CommitFrame.isolated {other addr : Addr} {s s' : State Addr} (h : CommitFrame other s s')
    (hne : addr ≠ other) : Isolated addr s s' :=
  ⟨h.deposits addr hne, congrFun h.borrows addr, h.balances addr hne⟩

omit [DecidableEq Addr] in
theorem isolated_init (env : Env) (coins : Coins) (s : State Addr) (addr : Addr) :
    Isolated addr s (initSupplyInterestFactors env coins s) := by
  obtain ⟨_, h⟩ := initSupplyInterestFactors_frame env coins s
  rw [h]
  exact ⟨rfl, rfl, rfl⟩

/-- A call on another account, or an accrual, keeps `addr`'s records and balance. -/
theorem step_isolated (env : Env) (s : State Addr) {op : Op Addr} {addr : Addr}
    (hop : op.account ≠ some addr) : Isolated addr s (step env s op) := by
  cases op with
  | deposit depositor coins =>
    have hne : addr ≠ depositor := fun h => hop (h ▸ rfl)
    have hinit := isolated_init env coins s addr
    show Isolated addr s ((deposit env depositor coins).after s)
    rcases deposit_after env depositor coins s with h | h | ⟨_, _, _, hc, h | h⟩
    · rw [h]; exact .refl addr s
    · rw [h]; exact hinit
    · rw [h]; exact hinit.trans ((captureAndSync_touches hc).isolated hne)
    · exact (hinit.trans ((captureAndSync_touches hc).isolated hne)).trans ((depositCommit_frame h).isolated hne)
  | withdraw depositor coins =>
    have hne : addr ≠ depositor := fun h => hop (h ▸ rfl)
    show Isolated addr s ((withdraw env depositor coins).after s)
    rcases withdraw_after env depositor coins s with h | ⟨_, _, _, hc, h | h⟩
    · rw [h]; exact .refl addr s
    · rw [h]; exact (captureAndSync_touches hc).isolated hne
    · exact ((captureAndSync_touches hc).isolated hne).trans ((withdrawCommit_frame h).isolated hne)
  | syncSupplyInterest other =>
    have hne : addr ≠ other := fun h => hop (h ▸ rfl)
    show Isolated addr s ((syncSupplyInterest other).after s)
    rcases syncSupplyInterest_after other s with h | h
    · rw [h]; exact .refl addr s
    · exact (syncSupplyInterest_touches h).isolated hne
  | accrueSupplyInterest _ _ | accrueBorrowInterest _ _ => exact ⟨rfl, rfl, rfl⟩

/-- A call on another account leaves `addr`'s deposit record. -/
theorem step_deposits_other (env : Env) (s : State Addr) {op : Op Addr} {addr : Addr}
    (hop : op.account ≠ some addr) : (step env s op).deposits addr = s.deposits addr :=
  (step_isolated env s hop).deposits

/-- Calls on other accounts and the accruals, each succeeding or failing, never change an
account's deposit record, borrow record or balance. -/
theorem accounts_isolated (env : Env) (s : State Addr) (addr : Addr) (ops : List (Op Addr))
    (hops : ∀ op ∈ ops, op.account ≠ some addr) :
    (run env s ops).deposits addr = s.deposits addr ∧ (run env s ops).borrows addr = s.borrows addr ∧
      (run env s ops).balances addr = s.balances addr := by
  have h := run_invariant env (fun op => op.account ≠ some addr) (Isolated addr s)
    (fun s₁ _ hop h₁ => h₁.trans (step_isolated env s₁ hop)) ops s hops (.refl addr s)
  exact ⟨h.deposits, h.borrows, h.balances⟩

/-- Account 0 has deposited; account 1 deposits and withdraws, each returning, and the
supply factor doubles. -/
theorem accounts_isolated_ukava :
    (run ukavaEnv (genesis fun _ : Nat => [⟨"ukava", 100⟩]) [.deposit 0 [⟨"ukava", 10⟩]]).deposits 0 =
        some ⟨[⟨"ukava", 10⟩], [⟨"ukava", Dec.oneDec⟩]⟩ ∧
      (run ukavaEnv (run ukavaEnv (genesis fun _ : Nat => [⟨"ukava", 100⟩]) [.deposit 0 [⟨"ukava", 10⟩]])
        [.deposit 1 [⟨"ukava", 10⟩], .withdraw 1 [⟨"ukava", 5⟩], .accrueSupplyInterest "ukava" ⟨2000000000000000000⟩]).deposits 1 =
        some ⟨[⟨"ukava", 5⟩], [⟨"ukava", Dec.oneDec⟩]⟩ ∧
      (run ukavaEnv (run ukavaEnv (genesis fun _ : Nat => [⟨"ukava", 100⟩]) [.deposit 0 [⟨"ukava", 10⟩]])
          [.deposit 1 [⟨"ukava", 10⟩], .withdraw 1 [⟨"ukava", 5⟩], .accrueSupplyInterest "ukava" ⟨2000000000000000000⟩]).deposits 0 =
          (run ukavaEnv (genesis fun _ : Nat => [⟨"ukava", 100⟩]) [.deposit 0 [⟨"ukava", 10⟩]]).deposits 0 ∧
        (run ukavaEnv (run ukavaEnv (genesis fun _ : Nat => [⟨"ukava", 100⟩]) [.deposit 0 [⟨"ukava", 10⟩]])
          [.deposit 1 [⟨"ukava", 10⟩], .withdraw 1 [⟨"ukava", 5⟩], .accrueSupplyInterest "ukava" ⟨2000000000000000000⟩]).borrows 0 =
          (run ukavaEnv (genesis fun _ : Nat => [⟨"ukava", 100⟩]) [.deposit 0 [⟨"ukava", 10⟩]]).borrows 0 ∧
        (run ukavaEnv (run ukavaEnv (genesis fun _ : Nat => [⟨"ukava", 100⟩]) [.deposit 0 [⟨"ukava", 10⟩]])
          [.deposit 1 [⟨"ukava", 10⟩], .withdraw 1 [⟨"ukava", 5⟩], .accrueSupplyInterest "ukava" ⟨2000000000000000000⟩]).balances 0 =
          (run ukavaEnv (genesis fun _ : Nat => [⟨"ukava", 100⟩]) [.deposit 0 [⟨"ukava", 10⟩]]).balances 0 :=
  ⟨by decide, by decide, accounts_isolated _ _ 0 _ (by decide)⟩

/-! ### The supply factors -/

/-- One factor of `s'` is that of `s`, or a new one at `1.0`. -/
def FactorStep (factor factor' : Option Dec) : Prop :=
  factor' = factor ∨ (factor = none ∧ factor' = some Dec.oneDec)

theorem FactorStep.trans {a b c : Option Dec} (h₁ : FactorStep a b) (h₂ : FactorStep b c) : FactorStep a c := by
  rcases h₁ with rfl | ⟨ha, rfl⟩ <;> rcases h₂ with rfl | ⟨hb, rfl⟩
  · exact .inl rfl
  · exact .inr ⟨hb, rfl⟩
  · exact .inr ⟨ha, rfl⟩
  · cases hb

omit [DecidableEq Addr] in
/-- Deposit's first lines change no stored factor, and create new ones at `1.0`. -/
theorem initSupplyInterestFactors_factor (env : Env) :
    ∀ (coins : Coins) (s : State Addr) (denom : String),
      FactorStep (s.supplyInterestFactors denom) ((initSupplyInterestFactors env coins s).supplyInterestFactors denom)
  | [], _, _ => .inl rfl
  | coin :: rest, s, denom => by
    refine FactorStep.trans ?_ (initSupplyInterestFactors_factor env rest _ denom)
    split
    · rename_i hnew
      by_cases hd : denom = coin.denom
      · subst hd
        simp only [Bool.and_eq_true, Option.isNone_iff_eq_none] at hnew
        exact .inr ⟨hnew.1, Function.update_same _ _ _⟩
      · exact .inl (Function.update_noteq hd _ _)
    · exact .inl rfl

/-- Every factor stored in `factors` is stored in `s`, at least as high. -/
def FactorsKept (factors : String → Option Dec) (s : State Addr) : Prop :=
  ∀ denom g, factors denom = some g → ∃ g', s.supplyInterestFactors denom = some g' ∧ g.i ≤ g'.i

omit [DecidableEq Addr] in
theorem FactorsKept.of_eq {factors : String → Option Dec} {s s' : State Addr} (hs : FactorsKept factors s)
    (h : s'.supplyInterestFactors = s.supplyInterestFactors) : FactorsKept factors s' := by
  intro denom g hg
  rw [h]
  exact hs denom g hg

omit [DecidableEq Addr] in
/-- The accrual only raises a factor. -/
theorem factorsKept_accrue {factors : String → Option Dec} {s : State Addr} (hs : FactorsKept factors s)
    (denom : String) (factor : Dec) :
    FactorsKept factors {s with supplyInterestFactors := accrue s.supplyInterestFactors denom factor} := by
  intro d g hg
  obtain ⟨g', hg', hle⟩ := hs d g hg
  show ∃ g'', accrue s.supplyInterestFactors denom factor d = some g'' ∧ g.i ≤ g''.i
  cases hold : s.supplyInterestFactors denom with
  | none =>
    simp only [accrue, hold]
    exact ⟨g', hg', hle⟩
  | some old =>
    simp only [accrue, hold]
    split_ifs with hup
    · by_cases hd : d = denom
      · subst hd
        obtain rfl := Option.some.inj (hold.symm.trans hg')
        exact ⟨factor, Function.update_same _ _ _, le_trans hle (Dec.le_def.mp hup)⟩
      · exact ⟨g', (Function.update_noteq hd _ _).trans hg', hle⟩
    · exact ⟨g', hg', hle⟩

/-- Kept factors, as an invariant of the ledger. -/
def factorsKept (env : Env) (factors : String → Option Dec) : @Invariant Addr _ env where
  Inv := FactorsKept factors
  Rule _ := True
  init coins s hs denom g hg := by
    obtain ⟨g', hg', hle⟩ := hs denom g hg
    rcases initSupplyInterestFactors_factor env coins s denom with h | ⟨h, -⟩
    · exact ⟨g', h.trans hg', hle⟩
    · rw [h] at hg'
      cases hg'
  syncBorrow _ _ _ hs h := hs.of_eq (syncBorrowInterest_touches h).supplyInterestFactors
  syncSupply _ _ _ hs h := hs.of_eq (syncSupplyInterest_touches h).supplyInterestFactors
  depositCommit _ _ _ _ _ _ _ hs h := hs.of_eq (depositCommit_frame h).supplyInterestFactors
  withdrawCommit _ _ _ _ _ _ _ hs h := hs.of_eq (withdrawCommit_frame h).supplyInterestFactors
  accrueSupply denom factor _ hs := factorsKept_accrue hs denom factor
  accrueBorrow _ _ _ hs := hs

/-! ### Failing calls -/

/-- Insufficient funds: the Deposit fails after creating the factor of its denom. -/
theorem failed_deposit_creates_factor :
    ∃ e s', deposit ⟨⟨true, [⟨"ukava", ⟨false, ⟨0⟩, ⟨0⟩⟩, "kava:usd", 1, ⟨⟨0⟩, ⟨0⟩, ⟨0⟩, ⟨0⟩⟩, ⟨0⟩, 0, ⟨0⟩⟩],
        10, [⟨"ukava"⟩]⟩, fun _ => none⟩ 0 [⟨"ukava", 10⟩] (genesis fun _ : Nat => []) = .error e s' ∧
      (∀ msg, e ≠ .panic msg) ∧ (genesis fun _ : Nat => []).supplyInterestFactors "ukava" = none ∧
      s'.supplyInterestFactors "ukava" = some Dec.oneDec :=
  ⟨_, _, rfl, fun _ h => Err.noConfusion h, rfl, rfl⟩

/-- A `Deposit` or `Withdraw` that returns an error leaves the state its syncs left: at
most the caller's records are synced and, for a Deposit, factors of new denoms created
at `1.0`; balances, the pool, the LTV index, every other account's records and every
stored factor are unchanged. -/
theorem failed_call_frame (env : Env) (depositor : Addr) (coins : Coins) (s s' : State Addr)
    (e : Err Addr) (he : ∀ msg, e ≠ .panic msg) :
    (deposit env depositor coins s = .error e s' →
      (s' = initSupplyInterestFactors env coins s ∨
        ∃ standing, captureAndSync env depositor (initSupplyInterestFactors env coins s) = .ok standing s') ∧
      Touches depositor (initSupplyInterestFactors env coins s) s' ∧
      ∀ denom, FactorStep (s.supplyInterestFactors denom) (s'.supplyInterestFactors denom)) ∧
    (withdraw env depositor coins s = .error e s' →
      (s' = s ∨ ∃ standing, captureAndSync env depositor s = .ok standing s') ∧ Touches depositor s s') := by
  have hsync : ∀ s₀, (s' = s₀ ∨ ∃ standing, captureAndSync env depositor s₀ = .ok standing s') →
      Touches depositor s₀ s' := by
    rintro s₀ (rfl | ⟨_, hc⟩)
    · exact .refl _ _
    · exact captureAndSync_touches hc
  refine ⟨fun h => ?_, fun h => ?_⟩
  · have hcases : s' = initSupplyInterestFactors env coins s ∨
        ∃ standing, captureAndSync env depositor (initSupplyInterestFactors env coins s) = .ok standing s' :=
      (deposit_error h).resolve_left fun ⟨msg, hmsg⟩ => he msg hmsg
    have ht := hsync _ hcases
    exact ⟨hcases, ht, fun denom => by
      rw [ht.supplyInterestFactors]
      exact initSupplyInterestFactors_factor env coins s denom⟩
  · have hcases := (withdraw_error h).resolve_left fun ⟨msg, hmsg⟩ => he msg hmsg
    exact ⟨hcases, hsync _ hcases⟩

/-- The failed Deposit of `failed_deposit_creates_factor`, under the ukava market, and a
Withdraw with no record. -/
theorem failed_call_frame_insufficient_funds :
    (∃ e s', deposit ukavaEnv 0 [⟨"ukava", 10⟩] (genesis fun _ : Nat => []) = .error e s' ∧ (∀ msg, e ≠ .panic msg) ∧
      (s' = initSupplyInterestFactors ukavaEnv [⟨"ukava", 10⟩] (genesis fun _ : Nat => []) ∨
        ∃ standing, captureAndSync ukavaEnv 0 (initSupplyInterestFactors ukavaEnv [⟨"ukava", 10⟩]
          (genesis fun _ : Nat => [])) = .ok standing s') ∧
      Touches 0 (initSupplyInterestFactors ukavaEnv [⟨"ukava", 10⟩] (genesis fun _ : Nat => [])) s' ∧
      ∀ denom, FactorStep ((genesis fun _ : Nat => []).supplyInterestFactors denom) (s'.supplyInterestFactors denom)) ∧
    ∃ e s', withdraw ukavaEnv 0 [⟨"ukava", 10⟩] (genesis fun _ : Nat => []) = .error e s' ∧ (∀ msg, e ≠ .panic msg) ∧
      (s' = genesis (fun _ => []) ∨ ∃ standing, captureAndSync ukavaEnv 0 (genesis fun _ : Nat => []) = .ok standing s') ∧
      Touches 0 (genesis fun _ : Nat => []) s' :=
  ⟨⟨_, _, rfl, fun _ h => Err.noConfusion h,
      (failed_call_frame ukavaEnv 0 [⟨"ukava", 10⟩] _ _ _ fun _ h => Err.noConfusion h).1 rfl⟩,
    ⟨_, _, rfl, fun _ h => Err.noConfusion h,
      (failed_call_frame ukavaEnv 0 [⟨"ukava", 10⟩] _ _ _ fun _ h => Err.noConfusion h).2 rfl⟩⟩

end KavaHard.Keeper
