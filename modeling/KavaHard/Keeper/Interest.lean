import KavaHard.Keeper.State

/-! `SyncSupplyInterest`: bringing a position up to the global interest factors.

For each denom of the balance, in order, the loop looks for the first index entry
of that denom. With none, it appends one at the global factor and credits nothing.
Otherwise it credits `(stored Quo snapshot) Mul current - stored`, truncated
(`accruedInterest`), and moves the entry to the current factor. All the interest is
added to the balance at the end. A global factor that is not stored reads as zero.

`SyncBorrowInterest` is not in the source; the spec has it mirror this on the borrow
side, so both run `syncPosition`, each on its own stores. -/
namespace KavaHard.Keeper
open KavaHard.Sdk KavaHard.Types

variable {Addr : Type} [DecidableEq Addr]

/-- The interest earned by `storedAmount` since `userLastInterestFactor` (line 154). -/
def accruedInterest (storedAmount userLastInterestFactor interestFactorValue : Dec) :
    Except String Int := do
  let q ← storedAmount.quo userLastInterestFactor
  let m ← q.mul interestFactorValue
  let interest ← m.sub storedAmount
  interest.truncateInt

/-- A snapshot of zero panics: `Quo` divides by it. -/
theorem accruedInterest_zero (storedAmount interestFactorValue : Dec) :
    accruedInterest storedAmount Dec.zeroDec interestFactorValue = .error "division by zero" := rfl

/-- The loop of `SyncSupplyInterest` over the coins of `amount` still to visit: the
index so far, and the interest credited so far. -/
def syncIndex (factors : String → Option Dec) (amount : Coins) :
    Coins → List InterestFactor → Coins → Except String (List InterestFactor × Coins)
  | [], index, totalNewInterest => .ok (index, totalNewInterest)
  | coin :: rest, index, totalNewInterest =>
    let interestFactorValue := (factors coin.denom).getD Dec.zeroDec
    match findFactor coin.denom index with
    | none => syncIndex factors amount rest (index ++ [⟨coin.denom, interestFactorValue⟩])
      totalNewInterest
    | some userLastInterestFactor => do
      let storedAmount := Dec.newDecFromInt (amount.amountOf coin.denom)
      let interest ← accruedInterest storedAmount userLastInterestFactor interestFactorValue
      let earned ← newCoin coin.denom interest
      let totalNewInterest ← totalNewInterest.add [earned]
      syncIndex factors amount rest (setFactor coin.denom interestFactorValue index) totalNewInterest

/-- A position brought up to `factors`, and the interest credited to it. -/
def syncPosition (factors : String → Option Dec) (position : Position) :
    Except String (Position × Coins) := do
  let (index, totalNewInterest) ← syncIndex factors position.amount position.amount position.index []
  let amount ← position.amount.add totalNewInterest
  pure (⟨amount, index⟩, totalNewInterest)

/-- `SyncSupplyInterest`. -/
def syncSupplyInterest (addr : Addr) : Method Addr Unit := fun s =>
  match s.deposits addr with
  | none => .ok () s
  | some deposit =>
    match syncPosition s.supplyInterestFactors deposit with
    | .error msg => .error (.panic msg) s
    | .ok (deposit, interest) => .ok () {setDeposit addr deposit s with
        creditedSupplyInterest := fun denom => s.creditedSupplyInterest denom + interest.sumOf denom}

/-- Modelled from the spec (§4.1, the borrow side): `SyncBorrowInterest`. -/
def syncBorrowInterest (addr : Addr) : Method Addr Unit := fun s =>
  match s.borrows addr with
  | none => .ok () s
  | some borrow =>
    match syncPosition s.borrowInterestFactors borrow with
    | .error msg => .error (.panic msg) s
    | .ok (borrow, _) => .ok () {s with borrows := Function.update s.borrows addr (some borrow)}

/-! ### What each sync can do -/

theorem syncPosition_ok {factors : String → Option Dec} {position synced : Position} {interest : Coins}
    (h : syncPosition factors position = .ok (synced, interest)) :
    syncIndex factors position.amount position.amount position.index [] = .ok (synced.index, interest) ∧
      position.amount.add interest = .ok synced.amount := by
  obtain ⟨⟨index, tni⟩, hi, h⟩ := bind_eq_ok.mp h
  obtain ⟨amount, ha, h⟩ := bind_eq_ok.mp h
  cases h
  exact ⟨hi, ha⟩

/-- A sync adds the interest it credits to the amount. -/
theorem sumOf_syncPosition {factors : String → Option Dec} {position synced : Position}
    {interest : Coins} (h : syncPosition factors position = .ok (synced, interest)) (denom : String) :
    synced.amount.sumOf denom = position.amount.sumOf denom + interest.sumOf denom :=
  Coins.sumOf_safeAdd denom _ _ _ (syncPosition_ok h).2

/-- A supply sync that returns stored the synced deposit and credited its interest, or
found no deposit. -/
theorem syncSupplyInterest_ok {addr : Addr} {s s' : State Addr}
    (h : syncSupplyInterest addr s = .ok () s') :
    (s.deposits addr = none ∧ s' = s) ∨
      ∃ deposit synced interest, s.deposits addr = some deposit ∧
        syncPosition s.supplyInterestFactors deposit = .ok (synced, interest) ∧
        s' = {setDeposit addr synced s with creditedSupplyInterest :=
          fun denom => s.creditedSupplyInterest denom + interest.sumOf denom} := by
  unfold syncSupplyInterest at h
  split at h
  · cases h
    exact .inl ⟨by assumption, rfl⟩
  · split at h <;> cases h
    exact .inr ⟨_, _, _, by assumption, by assumption, rfl⟩

/-- A supply sync fails only by panicking, and then wrote nothing. -/
theorem syncSupplyInterest_error {addr : Addr} {s s' : State Addr} {e : Err Addr}
    (h : syncSupplyInterest addr s = .error e s') : (∃ msg, e = .panic msg) ∧ s' = s := by
  unfold syncSupplyInterest at h
  split at h
  · cases h
  · split at h <;> cases h
    exact ⟨⟨_, rfl⟩, rfl⟩

theorem syncBorrowInterest_ok {addr : Addr} {s s' : State Addr}
    (h : syncBorrowInterest addr s = .ok () s') :
    ∃ borrows, s' = {s with borrows := borrows} ∧ ∀ other, other ≠ addr → borrows other = s.borrows other := by
  unfold syncBorrowInterest at h
  split at h
  · cases h
    exact ⟨s.borrows, rfl, fun _ _ => rfl⟩
  · split at h <;> cases h
    exact ⟨_, rfl, fun other ho => Function.update_noteq ho _ _⟩

theorem syncBorrowInterest_error {addr : Addr} {s s' : State Addr} {e : Err Addr}
    (h : syncBorrowInterest addr s = .error e s') : (∃ msg, e = .panic msg) ∧ s' = s := by
  unfold syncBorrowInterest at h
  split at h
  · cases h
  · split at h <;> cases h
    exact ⟨⟨_, rfl⟩, rfl⟩

/-- `s'` is `s` with at most `addr`'s records and the credited interest rewritten: what
a sync may write. -/
structure Touches (addr : Addr) (s s' : State Addr) : Prop where
  supplyInterestFactors : s'.supplyInterestFactors = s.supplyInterestFactors
  borrowInterestFactors : s'.borrowInterestFactors = s.borrowInterestFactors
  deposits : ∀ other, other ≠ addr → s'.deposits other = s.deposits other
  borrows : ∀ other, other ≠ addr → s'.borrows other = s.borrows other
  ltvIndex : s'.ltvIndex = s.ltvIndex
  balances : s'.balances = s.balances
  pool : s'.pool = s.pool

omit [DecidableEq Addr] in
theorem Touches.refl (addr : Addr) (s : State Addr) : Touches addr s s :=
  ⟨rfl, rfl, fun _ _ => rfl, fun _ _ => rfl, rfl, rfl, rfl⟩

omit [DecidableEq Addr] in
theorem Touches.trans {addr : Addr} {s₁ s₂ s₃ : State Addr} (h₁ : Touches addr s₁ s₂)
    (h₂ : Touches addr s₂ s₃) : Touches addr s₁ s₃ :=
  ⟨h₂.supplyInterestFactors.trans h₁.supplyInterestFactors,
    h₂.borrowInterestFactors.trans h₁.borrowInterestFactors,
    fun o ho => (h₂.deposits o ho).trans (h₁.deposits o ho),
    fun o ho => (h₂.borrows o ho).trans (h₁.borrows o ho),
    h₂.ltvIndex.trans h₁.ltvIndex, h₂.balances.trans h₁.balances, h₂.pool.trans h₁.pool⟩

theorem syncSupplyInterest_touches {addr : Addr} {s s' : State Addr}
    (h : syncSupplyInterest addr s = .ok () s') : Touches addr s s' := by
  rcases syncSupplyInterest_ok h with ⟨-, rfl⟩ | ⟨_, _, _, -, -, rfl⟩
  · exact .refl _ _
  · exact ⟨rfl, rfl, fun _ ho => Function.update_noteq ho _ _, fun _ _ => rfl, rfl, rfl, rfl⟩

theorem syncBorrowInterest_touches {addr : Addr} {s s' : State Addr}
    (h : syncBorrowInterest addr s = .ok () s') : Touches addr s s' := by
  obtain ⟨_, rfl, hb⟩ := syncBorrowInterest_ok h
  exact ⟨rfl, rfl, fun _ _ => rfl, hb, rfl, rfl, rfl⟩

end KavaHard.Keeper
