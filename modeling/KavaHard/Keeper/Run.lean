import KavaHard.Keeper.Deposit

/-! Runs: the ledger as a state machine.

A run is a list of calls on any accounts, in any order: `Deposit`, `Withdraw` and
`SyncSupplyInterest`, and the periodic accrual, outside this module, that raises a
stored global factor. A call keeps what it wrote when it returns, with or without an
error, as a keeper method does; a call that panics is reverted by the transaction
that made it. `run_invariant` is the induction every run-level theorem uses: a
property that each allowed step keeps holds after any run of allowed steps. -/
namespace KavaHard.Keeper
open KavaHard.Sdk KavaHard.Types

/-- A call on the ledger. -/
inductive Op (Addr : Type) where
  | deposit (depositor : Addr) (coins : Coins)
  | withdraw (depositor : Addr) (coins : Coins)
  | syncSupplyInterest (addr : Addr)
  /-- The periodic accrual raises the global supply factor of a denom. -/
  | accrueSupplyInterest (denom : String) (factor : Dec)
  /-- The periodic accrual raises the global borrow factor of a denom. -/
  | accrueBorrowInterest (denom : String) (factor : Dec)

variable {Addr : Type}

/-- The state a call leaves: its writes if it returns, none if it panics. -/
def Method.after (x : Method Addr Unit) (s : State Addr) : State Addr :=
  match x s with
  | .ok _ s' => s'
  | .error (.panic _) _ => s
  | .error _ s' => s'

theorem after_of_ok {x : Method Addr Unit} {s s' : State Addr} (h : x s = .ok () s') :
    x.after s = s' := by
  simp [Method.after, h]

/-- A call is reverted, returns, or fails without panicking. -/
theorem after_cases (x : Method Addr Unit) (s : State Addr) :
    x.after s = s ∨ x s = .ok () (x.after s) ∨
      ∃ e, (∀ msg, e ≠ .panic msg) ∧ x s = .error e (x.after s) := by
  unfold Method.after
  cases h : x s with
  | ok _ s' => exact .inr (.inl rfl)
  | error e s' => cases e <;> first | exact .inl rfl | exact .inr (.inr ⟨_, fun _ h => Err.noConfusion h, rfl⟩)

/-- A call that fails is reverted, or fails without panicking and keeps its writes. -/
theorem after_of_error {x : Method Addr Unit} {s s' : State Addr} {e : Err Addr} (h : x s = .error e s') :
    x.after s = s ∨ (∀ msg, e ≠ .panic msg) ∧ x.after s = s' := by
  unfold Method.after
  cases e <;> simp [h]

variable [DecidableEq Addr]

/-- Where a Deposit stops: reverted, after creating the factors, after the caller's sync,
or after its commit. -/
theorem deposit_after (env : Env) (depositor : Addr) (coins : Coins) (s : State Addr) :
    (deposit env depositor coins).after s = s ∨
      (deposit env depositor coins).after s = initSupplyInterestFactors env coins s ∨
      ∃ prevLtv shouldRemoveIndex s₁, captureAndSync env depositor (initSupplyInterestFactors env coins s) =
          .ok (prevLtv, shouldRemoveIndex) s₁ ∧
        ((deposit env depositor coins).after s = s₁ ∨
          depositCommit env depositor coins prevLtv shouldRemoveIndex s₁ =
            .ok () ((deposit env depositor coins).after s)) := by
  rcases after_cases (deposit env depositor coins) s with h | h | ⟨e, he, h⟩
  · exact .inl h
  · obtain ⟨prevLtv, shouldRemoveIndex, s₁, hc, hd⟩ := deposit_ok h
    exact .inr (.inr ⟨prevLtv, shouldRemoveIndex, s₁, hc, .inr hd⟩)
  · rcases deposit_error h with ⟨msg, rfl⟩ | h | ⟨⟨prevLtv, shouldRemoveIndex⟩, hc⟩
    · exact absurd rfl (he msg)
    · exact .inr (.inl h)
    · exact .inr (.inr ⟨prevLtv, shouldRemoveIndex, _, hc, .inl rfl⟩)

/-- Where a Withdraw stops: reverted, after the caller's sync, or after its commit. -/
theorem withdraw_after (env : Env) (depositor : Addr) (coins : Coins) (s : State Addr) :
    (withdraw env depositor coins).after s = s ∨
      ∃ prevLtv shouldRemoveIndex s₁, captureAndSync env depositor s = .ok (prevLtv, shouldRemoveIndex) s₁ ∧
        ((withdraw env depositor coins).after s = s₁ ∨
          withdrawCommit env depositor coins prevLtv shouldRemoveIndex s₁ =
            .ok () ((withdraw env depositor coins).after s)) := by
  rcases after_cases (withdraw env depositor coins) s with h | h | ⟨e, he, h⟩
  · exact .inl h
  · obtain ⟨prevLtv, shouldRemoveIndex, s₁, hc, hw⟩ := withdraw_ok h
    exact .inr ⟨prevLtv, shouldRemoveIndex, s₁, hc, .inr hw⟩
  · rcases withdraw_error h with ⟨msg, rfl⟩ | h | ⟨⟨prevLtv, shouldRemoveIndex⟩, hc⟩
    · exact absurd rfl (he msg)
    · exact .inl h
    · exact .inr ⟨prevLtv, shouldRemoveIndex, _, hc, .inl rfl⟩

/-- A supply sync is reverted, or returns. -/
theorem syncSupplyInterest_after (addr : Addr) (s : State Addr) :
    (syncSupplyInterest addr).after s = s ∨
      syncSupplyInterest addr s = .ok () ((syncSupplyInterest addr).after s) := by
  rcases after_cases (syncSupplyInterest addr) s with h | h | ⟨e, he, h⟩
  · exact .inl h
  · exact .inr h
  · obtain ⟨⟨msg, rfl⟩, -⟩ := syncSupplyInterest_error h
    exact absurd rfl (he msg)

/-- A stored factor raised to `factor`; a lower value or a missing factor is ignored. -/
def accrue (factors : String → Option Dec) (denom : String) (factor : Dec) : String → Option Dec :=
  match factors denom with
  | some old => if old ≤ factor then Function.update factors denom (some factor) else factors
  | none => factors

def step (env : Env) (s : State Addr) : Op Addr → State Addr
  | .deposit depositor coins => (deposit env depositor coins).after s
  | .withdraw depositor coins => (withdraw env depositor coins).after s
  | .syncSupplyInterest addr => (syncSupplyInterest addr).after s
  | .accrueSupplyInterest denom factor =>
    {s with supplyInterestFactors := accrue s.supplyInterestFactors denom factor}
  | .accrueBorrowInterest denom factor =>
    {s with borrowInterestFactors := accrue s.borrowInterestFactors denom factor}

def run (env : Env) : State Addr → List (Op Addr) → State Addr
  | s, [] => s
  | s, op :: ops => run env (step env s op) ops

/-- The ledger before any call: no factor, record or index entry; the accounts hold
`balances`. -/
def genesis (balances : Addr → Coins) : State Addr :=
  ⟨fun _ => none, fun _ => none, fun _ => none, fun _ => none, fun _ => false, balances, [],
    fun _ => 0⟩

/-- One money market, for `ukava`, priced at one, and its liquidity schedule. -/
def ukavaEnv : Env :=
  ⟨⟨true, [⟨"ukava", ⟨false, ⟨0⟩, ⟨0⟩⟩, "kava:usd", 1, ⟨⟨0⟩, ⟨0⟩, ⟨0⟩, ⟨0⟩⟩, ⟨0⟩, 0, ⟨0⟩⟩], 10, [⟨"ukava"⟩]⟩,
    fun _ => some Dec.oneDec⟩

/-- Every account has deposited 100 ukava and borrowed 10, at factors of one, and holds 10
more; the index holds account 0 at its LTV of 0.1. -/
def tenthBorrowed : State Nat :=
  ⟨fun _ => some Dec.oneDec, fun _ => some Dec.oneDec, fun _ => some ⟨[⟨"ukava", 100⟩], [⟨"ukava", Dec.oneDec⟩]⟩,
    fun _ => some ⟨[⟨"ukava", 10⟩], [⟨"ukava", Dec.oneDec⟩]⟩, fun k => decide (k = (⟨100000000000000000⟩, 0)),
    fun _ => [⟨"ukava", 10⟩], [], fun _ => 0⟩

theorem run_append (env : Env) (s : State Addr) (ops ops' : List (Op Addr)) :
    run env s (ops ++ ops') = run env (run env s ops) ops' := by
  induction ops generalizing s with
  | nil => rfl
  | cons op ops ih => exact ih _

/-- What every allowed step keeps holds after every run of allowed steps. -/
theorem run_invariant (env : Env) (Allowed : Op Addr → Prop) (Inv : State Addr → Prop)
    (hstep : ∀ s op, Allowed op → Inv s → Inv (step env s op)) :
    ∀ (ops : List (Op Addr)) (s : State Addr), (∀ op ∈ ops, Allowed op) → Inv s →
      Inv (run env s ops)
  | [], _, _, h => h
  | op :: ops, s, hops, h =>
    run_invariant env Allowed Inv hstep ops _ (fun o ho => hops o (List.mem_cons_of_mem _ ho))
      (hstep s op (hops op (List.mem_cons_self _ _)) h)

/-! ### Invariants -/

/-- What an invariant of the ledger owes: each piece of each call keeps it. -/
structure Invariant (env : Env) where
  Inv : State Addr → Prop
  /-- A condition on calls the invariant may assume. -/
  Rule : Op Addr → Prop
  init : ∀ coins s, Inv s → Inv (initSupplyInterestFactors env coins s)
  syncBorrow : ∀ addr s s', Inv s → syncBorrowInterest addr s = .ok () s' → Inv s'
  syncSupply : ∀ addr s s', Inv s → syncSupplyInterest addr s = .ok () s' → Inv s'
  depositCommit : ∀ depositor coins prevLtv shouldRemoveIndex s s', Rule (.deposit depositor coins) →
    Inv s → depositCommit env depositor coins prevLtv shouldRemoveIndex s = .ok () s' → Inv s'
  withdrawCommit : ∀ depositor coins prevLtv shouldRemoveIndex s s', Rule (.withdraw depositor coins) →
    Inv s → withdrawCommit env depositor coins prevLtv shouldRemoveIndex s = .ok () s' → Inv s'
  accrueSupply : ∀ denom factor s, Inv s →
    Inv {s with supplyInterestFactors := accrue s.supplyInterestFactors denom factor}
  accrueBorrow : ∀ denom factor s, Inv s →
    Inv {s with borrowInterestFactors := accrue s.borrowInterestFactors denom factor}

namespace Invariant

variable {env : Env} (I : @Invariant Addr _ env)

theorem capture {addr : Addr} {s s' : State Addr} {standing : Dec × Bool} (hs : I.Inv s)
    (h : captureAndSync env addr s = .ok standing s') : I.Inv s' := by
  obtain ⟨-, s₁, hb, hsup⟩ := captureAndSync_ok h
  exact I.syncSupply _ _ _ (I.syncBorrow _ _ _ hs hb) hsup

theorem step_deposit {depositor : Addr} {coins : Coins} {s : State Addr}
    (hr : I.Rule (.deposit depositor coins)) (hs : I.Inv s) :
    I.Inv ((deposit env depositor coins).after s) := by
  have hinit := I.init coins s hs
  rcases deposit_after env depositor coins s with h | h | ⟨_, _, _, hc, h | h⟩
  · rw [h]; exact hs
  · rw [h]; exact hinit
  · rw [h]; exact I.capture hinit hc
  · exact I.depositCommit _ _ _ _ _ _ hr (I.capture hinit hc) h

theorem step_withdraw {depositor : Addr} {coins : Coins} {s : State Addr}
    (hr : I.Rule (.withdraw depositor coins)) (hs : I.Inv s) :
    I.Inv ((withdraw env depositor coins).after s) := by
  rcases withdraw_after env depositor coins s with h | ⟨_, _, _, hc, h | h⟩
  · rw [h]; exact hs
  · rw [h]; exact I.capture hs hc
  · exact I.withdrawCommit _ _ _ _ _ _ hr (I.capture hs hc) h

theorem step {s : State Addr} {op : Op Addr} (hr : I.Rule op) (hs : I.Inv s) :
    I.Inv (Keeper.step env s op) := by
  cases op with
  | deposit depositor coins => exact I.step_deposit hr hs
  | withdraw depositor coins => exact I.step_withdraw hr hs
  | syncSupplyInterest addr =>
    show I.Inv ((syncSupplyInterest addr).after s)
    rcases syncSupplyInterest_after addr s with h | h
    · rw [h]; exact hs
    · exact I.syncSupply _ _ _ hs h
  | accrueSupplyInterest denom factor => exact I.accrueSupply _ _ _ hs
  | accrueBorrowInterest denom factor => exact I.accrueBorrow _ _ _ hs

/-- The invariant holds after every run of calls that keep its rule. -/
theorem run (ops : List (Op Addr)) (s : State Addr) (hops : ∀ op ∈ ops, I.Rule op)
    (hs : I.Inv s) : I.Inv (Keeper.run env s ops) :=
  run_invariant env I.Rule I.Inv (fun _ _ hr hs => I.step hr hs) ops s hops hs

end Invariant

end KavaHard.Keeper
