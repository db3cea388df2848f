import KavaHard.Proofs.Frame

/-! The map model of the deposit records.

Kept as the spec would keep it, an account's deposit is a finite map from each denom it
holds to the amount held and the global factor at which it last synced. A sync credits
each held denom with the interest of line 154 and moves it to the global factor; a
Deposit adds the coins and starts each newly held denom at the global factor; a Withdraw
needs coins the map covers, subtracts them, drops the denoms that reach zero and deletes
an emptied map.

A step of the model is labelled with whether the keeper's call returned (`LedgerStep`).
A call that returns takes the model's whole step. A call can also fail for reasons that
are not in the records: a missing schedule, the account's balance, the LTV limit, a
price. The model then keeps what the keeper keeps: nothing when the call panics or fails
before it writes, and otherwise the factors a Deposit created and the caller's sync. The
accruals are the only other writers of the factors. -/
namespace KavaHard.Keeper
open KavaHard.Sdk KavaHard.Types

/-- An account's map: for each denom held, the amount and the global factor at which it
last synced. -/
abbrev Holding := String → Option (Int × Dec)

/-- One denom of a sync at `factors`: a held amount earns the interest of line 154, which
must not be negative, and moves to the global factor. -/
def SyncsAt (factors : String → Option Dec) (denom : String) :
    Option (Int × Dec) → Option (Int × Dec) → Prop
  | none, entry' => entry' = none
  | some (amount, snapshot), entry' => ∃ interest,
    accruedInterest (Dec.newDecFromInt amount) snapshot ((factors denom).getD Dec.zeroDec) = .ok interest ∧
      0 ≤ interest ∧ entry' = some (amount + interest, (factors denom).getD Dec.zeroDec)

/-- The map model's sync of one account at `factors`; an account with no map keeps none. -/
def SyncsTo (factors : String → Option Dec) : Option Holding → Option Holding → Prop
  | none, held' => held' = none
  | some h, held' => ∃ h', held' = some h' ∧ ∀ denom, SyncsAt factors denom (h denom) (h' denom)

/-- The map model's deposit into a synced map: the coins are added, and a denom newly held
starts at the global factor. -/
def depositHolding (factors : String → Option Dec) (held : Option Holding) (coins : Coins) : Holding :=
  fun denom =>
    match held.bind (· denom) with
    | some (amount, snapshot) => some (amount + coins.sumOf denom, snapshot)
    | none =>
      if coins.sumOf denom = 0 then none else some (coins.sumOf denom, (factors denom).getD Dec.zeroDec)

/-- The map model's withdraw from a synced map: the coins come off, and a denom that
reaches zero is dropped. -/
def withdrawHolding (h : Holding) (coins : Coins) : Holding := fun denom =>
  (h denom).bind fun (amount, snapshot) =>
    if amount = coins.sumOf denom then none else some (amount - coins.sumOf denom, snapshot)

/-- A withdraw of `coins` from the synced map `held` leaves `held'`: the map covers the
coins, and a map left empty is deleted. -/
def WithdrawsTo (held : Option Holding) (coins : Coins) (held' : Option Holding) : Prop :=
  ∃ h, held = some h ∧ (∀ denom, coins.sumOf denom ≤ ((h denom).map Prod.fst).getD 0) ∧
    ((held' = none ∧ ∀ denom, withdrawHolding h coins denom = none) ∨
      (held' = some (withdrawHolding h coins) ∧ ∃ denom, withdrawHolding h coins denom ≠ none))

/-- The map model's state: the global supply factors and each account's map. -/
structure Ledger (Addr : Type) where
  supplyInterestFactors : String → Option Dec
  holdings : Addr → Option Holding

variable {Addr : Type} [DecidableEq Addr]

/-- One call in the map model, labelled with whether the keeper's call returned. -/
inductive LedgerStep : Ledger Addr → Op Addr → Bool → Ledger Addr → Prop
  /-- A call that fails may leave the state as it was: a panic is reverted, and a call may
  fail before it writes. -/
  | reverted (σ : Ledger Addr) (op : Op Addr) : LedgerStep σ op false σ
  | accrueSupply (σ : Ledger Addr) (denom : String) (factor : Dec) :
    LedgerStep σ (.accrueSupplyInterest denom factor) true
      {σ with supplyInterestFactors := accrue σ.supplyInterestFactors denom factor}
  /-- The borrow factors are not in the map model. -/
  | accrueBorrow (σ : Ledger Addr) (denom : String) (factor : Dec) :
    LedgerStep σ (.accrueBorrowInterest denom factor) true σ
  | sync (σ : Ledger Addr) (addr : Addr) (held' : Option Holding) :
    SyncsTo σ.supplyInterestFactors (σ.holdings addr) held' →
    LedgerStep σ (.syncSupplyInterest addr) true {σ with holdings := Function.update σ.holdings addr held'}
  /-- A Deposit creates the factors of new denoms at one, syncs the map at them and adds
  the coins. -/
  | deposit (σ : Ledger Addr) (depositor : Addr) (coins : Coins) (factors : String → Option Dec)
    (synced : Option Holding) :
    (∀ denom, FactorStep (σ.supplyInterestFactors denom) (factors denom)) →
    SyncsTo factors (σ.holdings depositor) synced →
    LedgerStep σ (.deposit depositor coins) true
      ⟨factors, Function.update σ.holdings depositor (some (depositHolding factors synced coins))⟩
  /-- A Deposit that fails without panicking keeps the factors it created, and the sync if
  it got that far. -/
  | depositStopped (σ : Ledger Addr) (depositor : Addr) (coins : Coins) (factors : String → Option Dec)
    (held' : Option Holding) :
    (∀ denom, FactorStep (σ.supplyInterestFactors denom) (factors denom)) →
    (held' = σ.holdings depositor ∨ SyncsTo factors (σ.holdings depositor) held') →
    LedgerStep σ (.deposit depositor coins) false ⟨factors, Function.update σ.holdings depositor held'⟩
  /-- A Withdraw syncs the map and takes the coins off. -/
  | withdraw (σ : Ledger Addr) (depositor : Addr) (coins : Coins) (synced held' : Option Holding) :
    SyncsTo σ.supplyInterestFactors (σ.holdings depositor) synced → WithdrawsTo synced coins held' →
    LedgerStep σ (.withdraw depositor coins) true {σ with holdings := Function.update σ.holdings depositor held'}
  /-- A Withdraw that fails after the sync keeps it. -/
  | withdrawStopped (σ : Ledger Addr) (depositor : Addr) (coins : Coins) (held' : Option Holding) :
    SyncsTo σ.supplyInterestFactors (σ.holdings depositor) held' →
    LedgerStep σ (.withdraw depositor coins) false {σ with holdings := Function.update σ.holdings depositor held'}

/-- The map model over a list of calls, each with whether it returned. -/
inductive LedgerRun : Ledger Addr → List (Op Addr × Bool) → Ledger Addr → Prop
  | nil (σ : Ledger Addr) : LedgerRun σ [] σ
  | cons {σ σ' σ'' : Ledger Addr} {op : Op Addr} {returned : Bool} {ops : List (Op Addr × Bool)} :
    LedgerStep σ op returned σ' → LedgerRun σ' ops σ'' → LedgerRun σ ((op, returned) :: ops) σ''

end KavaHard.Keeper
