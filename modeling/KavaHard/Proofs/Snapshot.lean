import KavaHard.Proofs.Frame

/-! Snapshots of zero.

`Deposit` creates the global factor of a new denom only when the denom has a money market
(lines 16-24), but admits every denom with a liquidity provider schedule
(`ValidateDeposit`). A denom with a schedule and no money market has no factor, and the
Deposit stores its index entry at the factor read as zero (line 77). Every later sync of
the account divides by that snapshot and panics (`syncSupplyInterest_zero_snapshot`).
Each Deposit and Withdraw of the account starts with that sync, so no call changes the
record again, and every Withdraw of it fails: the coins are locked
(`zero_snapshot_locks_record`). -/
namespace KavaHard.Keeper
open KavaHard.Sdk KavaHard.Types Method

variable {Addr : Type} [DecidableEq Addr]

/-- A held denom whose first index entry is zero. -/
def ZeroSnapshot (position : Position) : Prop :=
  ∃ coin ∈ position.amount, findFactor coin.denom position.index = some Dec.zeroDec

theorem exists_error_bind {ε α β : Type} {x : Except ε α} {f : α → Except ε β}
    (h : ∀ a, x = .ok a → ∃ e, f a = .error e) : ∃ e, x >>= f = .error e := by
  cases hx : x with
  | error e => exact ⟨e, rfl⟩
  | ok a => exact h a hx

/-- The sync loop fails once it visits a coin whose snapshot is zero: the coins before it
only rewrite the entries of their own denoms. -/
theorem syncIndex_zero_snapshot (factors : String → Option Dec) (amount : Coins) :
    ∀ (coins : Coins) (index : List InterestFactor) (tni : Coins),
      (∃ coin ∈ coins, findFactor coin.denom index = some Dec.zeroDec) →
      ∃ msg, syncIndex factors amount coins index tni = .error msg
  | [], _, _, ⟨_, hc, _⟩ => absurd hc (List.not_mem_nil _)
  | coin :: rest, index, tni, ⟨c, hc, hzero⟩ => by
    rw [syncIndex]
    cases hf : findFactor coin.denom index with
    | none =>
      have hcd : c.denom ≠ coin.denom := fun hcd => by rw [hcd, hf] at hzero; cases hzero
      have hc' : c ∈ rest := (List.mem_cons.mp hc).resolve_left fun h => hcd (h ▸ rfl)
      exact syncIndex_zero_snapshot factors amount rest _ tni
        ⟨c, hc', by rw [findFactor_append_other hcd, hzero]⟩
    | some u =>
      dsimp only
      refine exists_error_bind fun interest hi => ?_
      by_cases hcd : c.denom = coin.denom
      · rw [hcd, hf] at hzero
        cases hzero
        rw [accruedInterest_zero] at hi
        cases hi
      have hc' : c ∈ rest := (List.mem_cons.mp hc).resolve_left fun h => hcd (h ▸ rfl)
      refine exists_error_bind fun _ _ => exists_error_bind fun _ _ => ?_
      exact syncIndex_zero_snapshot factors amount rest _ _
        ⟨c, hc', by rw [findFactor_setFactor_other hcd, hzero]⟩

/-- A supply sync of a record with a zero snapshot panics. -/
theorem syncSupplyInterest_zero_snapshot {addr : Addr} {s : State Addr} {position : Position}
    (hdep : s.deposits addr = some position) (hz : ZeroSnapshot position) :
    ∃ msg, syncSupplyInterest addr s = .error (.panic msg) s := by
  obtain ⟨msg, h⟩ := syncIndex_zero_snapshot s.supplyInterestFactors position.amount position.amount
    position.index [] hz
  refine ⟨msg, ?_⟩
  simp [syncSupplyInterest, hdep, syncPosition, h, bind, Except.bind]

theorem captureAndSync_zero_snapshot {env : Env} {addr : Addr} {s s' : State Addr} {standing : Dec × Bool}
    {position : Position} (hdep : s.deposits addr = some position) (hz : ZeroSnapshot position) :
    captureAndSync env addr s ≠ .ok standing s' := by
  intro h
  obtain ⟨-, s₁, hb, hsup⟩ := captureAndSync_ok h
  obtain ⟨borrows, rfl, -⟩ := syncBorrowInterest_ok hb
  obtain ⟨msg, hmsg⟩ := syncSupplyInterest_zero_snapshot (s := {s with borrows}) hdep hz
  rw [hmsg] at hsup
  cases hsup

/-- No call changes a record with a zero snapshot. -/
theorem zeroSnapshot_step (env : Env) {s : State Addr} {addr : Addr} {position : Position}
    (hdep : s.deposits addr = some position) (hz : ZeroSnapshot position) (op : Op Addr) :
    (step env s op).deposits addr = some position := by
  by_cases hop : op.account = some addr
  swap
  · exact (step_deposits_other env s hop).trans hdep
  have hinit : ∀ coins, (initSupplyInterestFactors env coins s).deposits addr = some position := fun coins => by
    obtain ⟨_, h⟩ := initSupplyInterestFactors_frame env coins s
    rw [h]
    exact hdep
  cases op with
  | deposit depositor coins =>
    obtain rfl : depositor = addr := Option.some.inj hop
    rcases deposit_after env depositor coins s with h | h | ⟨_, _, _, hc, -⟩
    · exact (congrArg (·.deposits depositor) h).trans hdep
    · exact (congrArg (·.deposits depositor) h).trans (hinit coins)
    · exact absurd hc (captureAndSync_zero_snapshot (hinit coins) hz)
  | withdraw depositor coins =>
    obtain rfl : depositor = addr := Option.some.inj hop
    rcases withdraw_after env depositor coins s with h | ⟨_, _, _, hc, -⟩
    · exact (congrArg (·.deposits depositor) h).trans hdep
    · exact absurd hc (captureAndSync_zero_snapshot hdep hz)
  | syncSupplyInterest other =>
    obtain rfl : other = addr := Option.some.inj hop
    obtain ⟨msg, h⟩ := syncSupplyInterest_zero_snapshot hdep hz
    show ((syncSupplyInterest other).after s).deposits other = _
    simp [Method.after, h, hdep]
  | accrueSupplyInterest _ _ => cases hop
  | accrueBorrowInterest _ _ => cases hop

/-- A record with a zero snapshot keeps its coins over every run: it never changes, and
every Withdraw of the account fails. -/
theorem zero_snapshot_locks_record (env : Env) (s : State Addr) (ops : List (Op Addr)) {addr : Addr}
    {position : Position} (hdep : s.deposits addr = some position) (hz : ZeroSnapshot position) :
    (run env s ops).deposits addr = some position ∧
      ∀ coins s', withdraw env addr coins (run env s ops) ≠ .ok () s' := by
  have hrun := run_invariant env (fun _ => True) (fun s => s.deposits addr = some position)
    (fun s op _ h => zeroSnapshot_step env h hz op) ops s (fun _ _ => trivial) hdep
  refine ⟨hrun, fun coins s' hw => ?_⟩
  obtain ⟨_, _, _, hc, -⟩ := withdraw_ok hw
  exact captureAndSync_zero_snapshot hrun hz hc

/-- A liquidity provider schedule for `usdx`, which has no money market. -/
def usdxEnv : Env := ⟨⟨true, [], 10, [⟨"usdx"⟩]⟩, fun _ => none⟩

/-- A deposit of `usdx` creates no factor and stores a zero snapshot; after it, no run
changes the record and no Withdraw of it succeeds. -/
theorem unmarketed_deposit_locked :
    (run usdxEnv (genesis fun _ : Nat => [⟨"usdx", 10⟩]) [.deposit 0 [⟨"usdx", 10⟩]]).deposits 0 =
        some ⟨[⟨"usdx", 10⟩], [⟨"usdx", Dec.zeroDec⟩]⟩ ∧
      (run usdxEnv (genesis fun _ : Nat => [⟨"usdx", 10⟩]) [.deposit 0 [⟨"usdx", 10⟩]]).supplyInterestFactors
        "usdx" = none ∧
      ∀ ops, (run usdxEnv (genesis fun _ : Nat => [⟨"usdx", 10⟩]) ([.deposit 0 [⟨"usdx", 10⟩]] ++ ops)).deposits 0 =
          some ⟨[⟨"usdx", 10⟩], [⟨"usdx", Dec.zeroDec⟩]⟩ ∧
        ∀ coins s', withdraw usdxEnv 0 coins
          (run usdxEnv (genesis fun _ : Nat => [⟨"usdx", 10⟩]) ([.deposit 0 [⟨"usdx", 10⟩]] ++ ops)) ≠ .ok () s' := by
  have hdep : (run usdxEnv (genesis fun _ : Nat => [⟨"usdx", 10⟩]) [.deposit 0 [⟨"usdx", 10⟩]]).deposits 0 =
      some ⟨[⟨"usdx", 10⟩], [⟨"usdx", Dec.zeroDec⟩]⟩ := by decide
  refine ⟨hdep, by decide, fun ops => ?_⟩
  rw [run_append]
  exact zero_snapshot_locks_record usdxEnv _ ops hdep ⟨_, List.mem_singleton_self _, by decide⟩

end KavaHard.Keeper
