import KavaHard.Types.Params
import KavaHard.Types.Position

/-! The keeper's stores, the monad its methods run in, and what it calls outside
`deposit.go`.

A method is an `EStateM`: like Go, it writes its stores as it goes, and an error
return keeps what was written before it. `panic` stands for a Go panic; a caller
never sees the state it leaves (`Run.lean` reverts it, as the transaction does).

Outside `deposit.go`: the bank (the supply keeper's `SendCoins` between an account
and the module account, atomic, refusing an invalid or an uncovered amount), the
money-market store (holding `params.MoneyMarkets`), and three methods of the keeper
whose code is not in the source: the solvency check and the LTV standing read and
written by Deposit and Withdraw, modelled from the spec. -/
namespace KavaHard.Keeper
open KavaHard.Sdk KavaHard.Types

/-- The errors of the deposit keeper and of what it calls, with the data their
messages name. -/
inductive Err (Addr : Type) where
  | invalidDepositDenom (denom : String)
  | borrowExceedsAvailableBalance (coin : Coin) (available : Int)
  | depositNotFound (depositor : Addr)
  | negativeBorrowedCoins
  | invalidWithdrawAmount
  | insufficientFunds (spendable amt : Coins)
  | invalidCoins (amt : Coins)
  | marketNotFound (denom : String)
  | priceNotFound (marketID : String)
  | panic (msg : String)
  deriving Repr

/-- The text of each error, as `deposit.go` and the bank format it. -/
def Err.message {Addr : Type} [ToString Addr] : Err Addr → String
  | .invalidDepositDenom denom => "liquidity provider denom " ++ denom ++ " not found"
  | .borrowExceedsAvailableBalance coin available =>
    "insufficient funds: the requested deposit amount of " ++ coin.toString ++
      " exceeds the total available account funds of " ++ toString available ++ coin.denom
  | .depositNotFound depositor => "no deposit found for " ++ toString depositor
  | .negativeBorrowedCoins => "negative borrowed coins"
  | .invalidWithdrawAmount => "proposed withdraw outside loan-to-value range"
  | .insufficientFunds spendable amt =>
    "insufficient account funds; " ++ spendable.toString ++ " < " ++ amt.toString
  | .invalidCoins amt => amt.toString
  | .marketNotFound denom => "no money market found for " ++ denom
  | .priceNotFound marketID => "no price found for market " ++ marketID
  | .panic msg => msg

/-- The stores the keeper reads and writes, and the bank balances it moves. -/
structure State (Addr : Type) where
  supplyInterestFactors : String → Option Dec
  borrowInterestFactors : String → Option Dec
  deposits : Addr → Option Deposit
  borrows : Addr → Option Borrow
  /-- The LTV index, as the set of its `(ltv, account)` keys. -/
  ltvIndex : Dec × Addr → Bool
  balances : Addr → Coins
  /-- The hard module account. -/
  pool : Coins
  /-- Not a store: the supply interest `SyncSupplyInterest` has credited so far. -/
  creditedSupplyInterest : String → Int

/-- What the keeper reads and never writes: its parameters and the pricefeed. -/
structure Env where
  params : Params
  /-- The current price of each pricefeed market. -/
  prices : String → Option Dec

/-- A keeper method. -/
abbrev Method (Addr : Type) := EStateM (Err Addr) (State Addr)

variable {Addr : Type} [DecidableEq Addr] {α β : Type}

/-- A panic of the SDK's arithmetic, as an error. -/
def panicErr (x : Except String α) : Except (Err Addr) α := x.mapError .panic

/-- A computation that reads no store. -/
def liftErr (x : Except (Err Addr) α) : Method Addr α := fun s =>
  match x with
  | .ok a => .ok a s
  | .error e => .error e s

/-- A call whose returned error the caller drops; a panic still propagates. -/
def ignoreError (x : Method Addr Unit) : Method Addr Unit := fun s =>
  match x s with
  | .error (.panic msg) s' => .error (.panic msg) s'
  | .error _ s' => .ok () s'
  | .ok () s' => .ok () s'

omit [DecidableEq Addr] in
theorem panicErr_ok {x : Except String α} {a : α} : (panicErr x : Except (Err Addr) α) = .ok a ↔ x = .ok a := by
  cases x <;> simp [panicErr, Except.mapError]

omit [DecidableEq Addr] in
theorem panicErr_error {x : Except String α} {e : Err Addr} :
    panicErr x = .error e → ∃ msg, e = .panic msg := by
  cases x <;> simp [panicErr, Except.mapError]
  exact fun h => ⟨_, h.symm⟩

/-! ### Running a method

A `do` block is read one call at a time: `bind_ok` and `bind_error` split off its
first call, and the other lemmas run the calls that cannot fail. -/

namespace Method

omit [DecidableEq Addr]
variable {s s' : State Addr}

theorem bind_ok {x : Method Addr α} {f : α → Method Addr β} {b : β} :
    (x >>= f) s = .ok b s' ↔ ∃ a s₁, x s = .ok a s₁ ∧ f a s₁ = .ok b s' := by
  show EStateM.bind x f s = _ ↔ _
  unfold EStateM.bind
  cases x s <;> simp [and_assoc]

theorem bind_error {x : Method Addr α} {f : α → Method Addr β} {e : Err Addr} :
    (x >>= f) s = .error e s' ↔ x s = .error e s' ∨ ∃ a s₁, x s = .ok a s₁ ∧ f a s₁ = .error e s' := by
  show EStateM.bind x f s = _ ↔ _
  unfold EStateM.bind
  cases x s <;> simp [and_assoc]

/-- Two blocks with one first call agree when their rests agree after it returns. -/
theorem bind_congr {x : Method Addr α} {f g : α → Method Addr β}
    (h : ∀ a s₁, x s = .ok a s₁ → f a s₁ = g a s₁) : (x >>= f) s = (x >>= g) s := by
  show EStateM.bind x f s = EStateM.bind x g s
  unfold EStateM.bind
  cases hx : x s with
  | ok a s₁ => exact h a s₁ hx
  | error e s₁ => rfl

theorem liftErr_bind_ok {x : Except (Err Addr) α} {f : α → Method Addr β} {b : β} :
    (liftErr x >>= f) s = .ok b s' ↔ ∃ a, x = .ok a ∧ f a s = .ok b s' := by
  show EStateM.bind _ f s = _ ↔ _
  unfold EStateM.bind liftErr
  cases x <;> simp

theorem liftErr_bind_error {x : Except (Err Addr) α} {f : α → Method Addr β} {e : Err Addr} :
    (liftErr x >>= f) s = .error e s' ↔ (x = .error e ∧ s' = s) ∨ ∃ a, x = .ok a ∧ f a s = .error e s' := by
  show EStateM.bind _ f s = _ ↔ _
  unfold EStateM.bind liftErr
  cases x <;> simp [eq_comm]

theorem pure_bind (a : α) (f : α → Method Addr β) (s : State Addr) : (pure a >>= f) s = f a s := rfl

theorem throw_bind (e : Err Addr) (f : α → Method Addr β) (s : State Addr) :
    (throw e >>= f) s = .error e s := rfl

theorem get_bind (f : State Addr → Method Addr α) (s : State Addr) : (get >>= f) s = f s s := rfl

theorem modify_apply (g : State Addr → State Addr) (s : State Addr) :
    (modify g : Method Addr Unit) s = .ok () (g s) := rfl

theorem modify_bind (g : State Addr → State Addr) (f : Unit → Method Addr α) (s : State Addr) :
    (modify g >>= f) s = f () (g s) := rfl

end Method

/-! ### Stores -/

def getDeposit (addr : Addr) : Method Addr (Option Deposit) := fun s => .ok (s.deposits addr) s

def getBorrow (addr : Addr) : Method Addr (Option Borrow) := fun s => .ok (s.borrows addr) s

omit [DecidableEq Addr] in
theorem getDeposit_bind (addr : Addr) (f : Option Deposit → Method Addr α) (s : State Addr) :
    (getDeposit addr >>= f) s = f (s.deposits addr) s := rfl

omit [DecidableEq Addr] in
theorem getBorrow_bind (addr : Addr) (f : Option Borrow → Method Addr α) (s : State Addr) :
    (getBorrow addr >>= f) s = f (s.borrows addr) s := rfl

def setDeposit (addr : Addr) (deposit : Deposit) (s : State Addr) : State Addr :=
  {s with deposits := Function.update s.deposits addr (some deposit)}

def deleteDeposit (addr : Addr) (s : State Addr) : State Addr :=
  {s with deposits := Function.update s.deposits addr none}

/-- `GetMoneyMarket`: the money-market store holds `params.MoneyMarkets`. -/
def getMoneyMarket (env : Env) (denom : String) : Option MoneyMarket :=
  env.params.moneyMarkets.find? (·.denom = denom)

/-! ### The bank -/

/-- `SendCoins` between two balances: `amt` must be a valid set, covered by the
sender's balance, all of which is spendable. -/
def moveCoins (fromBal toBal amt : Coins) : Except (Err Addr) (Coins × Coins) :=
  if !amt.isValid then .error (.invalidCoins amt)
  else match fromBal.safeSub amt with
    | .error msg => .error (.panic msg)
    | .ok (newFrom, hasNeg) =>
      if hasNeg then .error (.insufficientFunds fromBal amt)
      else match toBal.add amt with
        | .error msg => .error (.panic msg)
        | .ok newTo => .ok (newFrom, newTo)

/-- `SendCoinsFromAccountToModule`, into the hard module account. -/
def sendCoinsFromAccountToModule (sender : Addr) (amt : Coins) : Method Addr Unit := fun s =>
  match moveCoins (s.balances sender) s.pool amt with
  | .ok (b, p) => .ok () {s with balances := Function.update s.balances sender b, pool := p}
  | .error e => .error e s

/-- `SendCoinsFromModuleToAccount`, out of the hard module account. -/
def sendCoinsFromModuleToAccount (recipient : Addr) (amt : Coins) : Method Addr Unit := fun s =>
  match moveCoins s.pool (s.balances recipient) amt with
  | .ok (p, b) => .ok () {s with balances := Function.update s.balances recipient b, pool := p}
  | .error e => .error e s

/-! ### Solvency and the LTV index -/

/-- Modelled from the spec (§4.2): the USD value of a balance set, each amount over its
market's conversion factor times the market's price; a denom without a market or a
price fails. -/
def usdValue (env : Env) : Coins → Except (Err Addr) Dec
  | [] => .ok Dec.zeroDec
  | coin :: rest => do
    let some mm := getMoneyMarket env coin.denom | .error (.marketNotFound coin.denom)
    let some price := env.prices mm.spotMarketID | .error (.priceNotFound mm.spotMarketID)
    let value ← panicErr ((Dec.newDecFromInt coin.amount).quo
      (Dec.newDecFromInt mm.conversionFactor) >>= (·.mul price))
    let total ← usdValue env rest
    panicErr (value.add total)

/-- Modelled from the spec (§4.2): the smallest loan-to-value of the deposit's markets. -/
def effectiveLtvLimit (env : Env) (deposit : Coins) : Dec :=
  deposit.foldl (fun limit coin =>
    match getMoneyMarket env coin.denom with
    | some mm => if mm.borrowLimit.loanToValue < limit then mm.borrowLimit.loanToValue else limit
    | none => limit) Dec.oneDec

/-- Modelled from the spec (§4.2): `IsWithinValidLtvRange`, valid when the borrow is
worth nothing or at most the deposit's worth times the effective limit. -/
def isWithinValidLtvRange (env : Env) (deposit borrow : Coins) : Except (Err Addr) Bool := do
  let depositValue ← usdValue env deposit
  let borrowValue ← usdValue env borrow
  if borrowValue.i = 0 then return true
  let borrowable ← panicErr (depositValue.mul (effectiveLtvLimit env deposit))
  return borrowValue ≤ borrowable

/-- Modelled from the spec (§4.3): the borrow's worth over the deposit's, and whether
the account is tracked; a deposit worth nothing is not. -/
def calculateLtv (env : Env) (deposit borrow : Coins) : Except (Err Addr) (Dec × Bool) := do
  let depositValue ← usdValue env deposit
  let borrowValue ← usdValue env borrow
  if depositValue.i = 0 then return (Dec.zeroDec, false)
  let ltv ← panicErr (borrowValue.quo depositValue)
  return (ltv, true)

/-- Modelled from the spec (§4.3): `GetStoreLTV`, the standing of an account from its
stored records; it is tracked only with both a deposit and a borrow. -/
def getStoreLTV (env : Env) (addr : Addr) : Method Addr (Dec × Bool) := fun s =>
  match s.deposits addr, s.borrows addr with
  | some deposit, some borrow => liftErr (calculateLtv env deposit.amount borrow.amount) s
  | _, _ => .ok (Dec.zeroDec, false) s

/-- The index with the captured key removed when told to, and the current key
inserted when its LTV is not zero. -/
def reindex (index : Dec × Addr → Bool) (prevLtv : Dec) (shouldRemoveIndex : Bool) (currLtv : Dec)
    (addr : Addr) : Dec × Addr → Bool :=
  let index := if shouldRemoveIndex then Function.update index (prevLtv, addr) false else index
  if currLtv.i ≠ 0 then Function.update index (currLtv, addr) true else index

/-- Modelled from the spec (§4.3): `UpdateItemInLtvIndex` recomputes the standing and
moves the account's key. -/
def updateItemInLtvIndex (env : Env) (prevLtv : Dec) (shouldRemoveIndex : Bool) (addr : Addr) :
    Method Addr Unit := do
  let (currLtv, _) ← getStoreLTV env addr
  modify fun s => {s with ltvIndex := reindex s.ltvIndex prevLtv shouldRemoveIndex currLtv addr}

/-! ### What each call can do -/

omit [DecidableEq Addr] in
theorem liftErr_result (x : Except (Err Addr) α) (s : State Addr) :
    liftErr x s = match x with | .ok a => .ok a s | .error e => .error e s := rfl

omit [DecidableEq Addr] in
theorem getStoreLTV_result (env : Env) (addr : Addr) (s : State Addr) :
    (∃ standing, getStoreLTV env addr s = .ok standing s) ∨ ∃ e, getStoreLTV env addr s = .error e s := by
  unfold getStoreLTV
  split
  · rw [liftErr_result]
    split <;> simp
  · simp

theorem updateItemInLtvIndex_result (env : Env) (prevLtv : Dec) (shouldRemoveIndex : Bool)
    (addr : Addr) (s : State Addr) :
    (∃ e, updateItemInLtvIndex env prevLtv shouldRemoveIndex addr s = .error e s) ∨
      ∃ currLtv tracked, getStoreLTV env addr s = .ok (currLtv, tracked) s ∧
        updateItemInLtvIndex env prevLtv shouldRemoveIndex addr s =
          .ok () {s with ltvIndex := reindex s.ltvIndex prevLtv shouldRemoveIndex currLtv addr} := by
  rcases getStoreLTV_result env addr s with ⟨⟨currLtv, tracked⟩, h⟩ | ⟨e, h⟩
  · exact .inr ⟨currLtv, tracked, h, by simp [updateItemInLtvIndex, bind, EStateM.bind, h, modify,
      modifyGet, MonadStateOf.modifyGet, EStateM.modifyGet]⟩
  · exact .inl ⟨e, by simp [updateItemInLtvIndex, bind, EStateM.bind, h]⟩

/-- An ignored index update leaves the state, or moves the account's key. -/
theorem ignoreError_updateItemInLtvIndex {env : Env} {prevLtv : Dec} {shouldRemoveIndex : Bool}
    {addr : Addr} {s s' : State Addr}
    (h : ignoreError (updateItemInLtvIndex env prevLtv shouldRemoveIndex addr) s = .ok () s') :
    s' = s ∨ ∃ currLtv tracked, getStoreLTV env addr s = .ok (currLtv, tracked) s ∧
      s' = {s with ltvIndex := reindex s.ltvIndex prevLtv shouldRemoveIndex currLtv addr} := by
  unfold ignoreError at h
  rcases updateItemInLtvIndex_result env prevLtv shouldRemoveIndex addr s with ⟨e, he⟩ | ⟨c, t, hg, he⟩
  · rw [he] at h
    cases e <;> simp_all
  · rw [he] at h
    cases h
    exact .inr ⟨c, t, hg, rfl⟩

/-- An ignored index update writes the LTV index and nothing else. -/
theorem ignoreError_updateItemInLtvIndex_frame {env : Env} {prevLtv : Dec} {shouldRemoveIndex : Bool}
    {addr : Addr} {s s' : State Addr}
    (h : ignoreError (updateItemInLtvIndex env prevLtv shouldRemoveIndex addr) s = .ok () s') :
    ∃ index, s' = {s with ltvIndex := index} := by
  rcases ignoreError_updateItemInLtvIndex h with rfl | ⟨_, _, -, rfl⟩ <;> exact ⟨_, rfl⟩

theorem ignoreError_updateItemInLtvIndex_error {env : Env} {prevLtv : Dec} {shouldRemoveIndex : Bool}
    {addr : Addr} {s s' : State Addr} {e : Err Addr}
    (h : ignoreError (updateItemInLtvIndex env prevLtv shouldRemoveIndex addr) s = .error e s') :
    ∃ msg, e = .panic msg := by
  unfold ignoreError at h
  rcases updateItemInLtvIndex_result env prevLtv shouldRemoveIndex addr s with ⟨e', he⟩ | ⟨c, t, -, he⟩
  · rw [he] at h
    cases e' <;> simp at h
    exact ⟨_, h.1.symm⟩
  · simp [he] at h

omit [DecidableEq Addr] in
/-- A transfer that goes through: `amt` was valid, the sender covered it, and each side
moved by it. -/
theorem moveCoins_ok {fromBal toBal amt newFrom newTo : Coins}
    (h : (moveCoins fromBal toBal amt : Except (Err Addr) _) = .ok (newFrom, newTo)) :
    amt.isValid ∧ fromBal.safeSub amt = .ok (newFrom, false) ∧ toBal.add amt = .ok newTo := by
  unfold moveCoins at h
  split at h
  · cases h
  · split at h
    · cases h
    · rename_i hsub
      split at h
      · cases h
      · split at h
        · cases h
        · cases h
          simp_all

theorem sendCoinsFromAccountToModule_ok {sender : Addr} {amt : Coins} {s s' : State Addr}
    (h : sendCoinsFromAccountToModule sender amt s = .ok () s') :
    ∃ b p, (moveCoins (s.balances sender) s.pool amt : Except (Err Addr) _) = .ok (b, p) ∧
      s' = {s with balances := Function.update s.balances sender b, pool := p} := by
  unfold sendCoinsFromAccountToModule at h
  split at h <;> cases h
  exact ⟨_, _, by assumption, rfl⟩

theorem sendCoinsFromAccountToModule_error {sender : Addr} {amt : Coins} {s s' : State Addr}
    {e : Err Addr} (h : sendCoinsFromAccountToModule sender amt s = .error e s') :
    moveCoins (s.balances sender) s.pool amt = .error e ∧ s' = s := by
  unfold sendCoinsFromAccountToModule at h
  split at h <;> cases h
  exact ⟨by assumption, rfl⟩

theorem sendCoinsFromModuleToAccount_ok {recipient : Addr} {amt : Coins} {s s' : State Addr}
    (h : sendCoinsFromModuleToAccount recipient amt s = .ok () s') :
    ∃ p b, (moveCoins s.pool (s.balances recipient) amt : Except (Err Addr) _) = .ok (p, b) ∧
      s' = {s with balances := Function.update s.balances recipient b, pool := p} := by
  unfold sendCoinsFromModuleToAccount at h
  split at h <;> cases h
  exact ⟨_, _, by assumption, rfl⟩

theorem sendCoinsFromModuleToAccount_error {recipient : Addr} {amt : Coins} {s s' : State Addr}
    {e : Err Addr} (h : sendCoinsFromModuleToAccount recipient amt s = .error e s') :
    moveCoins s.pool (s.balances recipient) amt = .error e ∧ s' = s := by
  unfold sendCoinsFromModuleToAccount at h
  split at h <;> cases h
  exact ⟨by assumption, rfl⟩

end KavaHard.Keeper
