import KavaHard.Sdk.Coins

/-! The hard module's parameters (`types/params.go`) and their validation.

A money market configures one denom: its borrow limit and loan-to-value, the
pricefeed market it is priced by, its conversion factor, interest-rate curve,
reserve factor, auction size and keeper reward. `MoneyMarket.validate` is
`MoneyMarket.Validate`, message for message, and `validate_ok_iff` says what it
admits: a denom of the SDK's syntax and the ranges of the data model's invariant. `Params` also carries the
liquidity provider schedules that `ValidateDeposit` reads; their declaration is not
part of `params.go`, so they enter as a field that only gives each schedule's
deposit denom. -/
namespace KavaHard.Types
open KavaHard.Sdk

/-- `BorrowLimit`: an optional cap and the loan-to-value of a market. -/
structure BorrowLimit where
  hasMaxLimit : Bool
  maximumLimit : Dec
  loanToValue : Dec
  deriving DecidableEq, Repr

/-- `InterestRateModel`: the base rate and the two slopes around the kink. -/
structure InterestRateModel where
  baseRateAPY : Dec
  baseMultiplier : Dec
  kink : Dec
  jumpMultiplier : Dec
  deriving DecidableEq, Repr

/-- `MoneyMarket`: the configuration of one denom. -/
structure MoneyMarket where
  denom : String
  borrowLimit : BorrowLimit
  spotMarketID : String
  conversionFactor : Int
  interestRateModel : InterestRateModel
  reserveFactor : Dec
  auctionSize : Int
  keeperRewardPercentage : Dec
  deriving DecidableEq, Repr

/-- A liquidity provider schedule, of which `ValidateDeposit` reads the deposit denom. -/
structure LiquidityProviderSchedule where
  depositDenom : String
  deriving DecidableEq, Repr

/-- `Params`, with the schedules `ValidateDeposit` reads. -/
structure Params where
  active : Bool
  moneyMarkets : List MoneyMarket
  checkLtvIndexCount : Int
  liquidityProviderSchedules : List LiquidityProviderSchedule
  deriving DecidableEq, Repr

/-- `DefaultParams`: active, no money market, ten accounts checked per block. -/
def defaultParams : Params := ⟨true, [], 10, []⟩

namespace BorrowLimit

def validate (bl : BorrowLimit) : Except String Unit :=
  if bl.maximumLimit.isNegative then
    .error ("maximum limit USD cannot be negative: " ++ bl.maximumLimit.toString)
  else if !bl.loanToValue.isPositive then
    .error ("loan-to-value must be a positive integer: " ++ bl.loanToValue.toString)
  else if Dec.oneDec < bl.loanToValue then
    .error ("loan-to-value cannot be greater than 1.0: " ++ bl.loanToValue.toString)
  else .ok ()

/-- `BorrowLimit.Validate` admits a non-negative cap and a loan-to-value in `(0, 1]`. -/
theorem validate_ok_iff (bl : BorrowLimit) : bl.validate = .ok () ↔
    0 ≤ bl.maximumLimit.i ∧ 0 < bl.loanToValue.i ∧ bl.loanToValue.i ≤ Dec.oneDec.i := by
  simp only [validate, Dec.isNegative, Dec.isPositive, Dec.lt_def, decide_eq_true_eq, Bool.not_eq_true',
    decide_eq_false_iff_not]
  split_ifs
  all_goals first | exact iff_of_true rfl (by omega) | exact iff_of_false id (by omega)

end BorrowLimit

namespace InterestRateModel

def validate (irm : InterestRateModel) : Except String Unit :=
  if irm.baseRateAPY.isNegative || Dec.oneDec < irm.baseRateAPY then
    .error "Base rate APY must be between 0.0-1.0"
  else if irm.baseMultiplier.isNegative then .error "Base multiplier must be positive"
  else if irm.kink.isNegative || Dec.oneDec < irm.kink then .error "Kink must be between 0.0-1.0"
  else if irm.jumpMultiplier.isNegative then .error "Jump multiplier must be positive"
  else .ok ()

/-- `InterestRateModel.Validate` admits a base rate and a kink in `[0, 1]` and
non-negative multipliers. -/
theorem validate_ok_iff (irm : InterestRateModel) : irm.validate = .ok () ↔
    (0 ≤ irm.baseRateAPY.i ∧ irm.baseRateAPY.i ≤ Dec.oneDec.i) ∧ 0 ≤ irm.baseMultiplier.i ∧
      (0 ≤ irm.kink.i ∧ irm.kink.i ≤ Dec.oneDec.i) ∧ 0 ≤ irm.jumpMultiplier.i := by
  simp only [validate, Dec.isNegative, Dec.lt_def, Bool.or_eq_true, decide_eq_true_eq]
  split_ifs
  all_goals first | exact iff_of_true rfl (by omega) | exact iff_of_false id (by omega)

end InterestRateModel

namespace MoneyMarket

/-- `MoneyMarket.Validate`. -/
def validate (mm : MoneyMarket) : Except String Unit := do
  validateDenom mm.denom
  mm.borrowLimit.validate
  mm.interestRateModel.validate
  if mm.reserveFactor.isNegative || Dec.oneDec < mm.reserveFactor then
    throw "Reserve factor must be between 0.0-1.0"
  if !(0 < mm.auctionSize) then throw "Auction size must be a positive integer"
  if mm.keeperRewardPercentage.isNegative || Dec.oneDec < mm.keeperRewardPercentage then
    throw "Keeper reward percentage must be between 0.0-1.0"

/-- The data model's invariant on a money market: each field in its range. -/
structure WellFormed (mm : MoneyMarket) : Prop where
  denom : DenomValid mm.denom
  maximumLimit : 0 ≤ mm.borrowLimit.maximumLimit.i
  loanToValue : 0 < mm.borrowLimit.loanToValue.i ∧ mm.borrowLimit.loanToValue.i ≤ Dec.oneDec.i
  baseRateAPY : 0 ≤ mm.interestRateModel.baseRateAPY.i ∧
    mm.interestRateModel.baseRateAPY.i ≤ Dec.oneDec.i
  baseMultiplier : 0 ≤ mm.interestRateModel.baseMultiplier.i
  kink : 0 ≤ mm.interestRateModel.kink.i ∧ mm.interestRateModel.kink.i ≤ Dec.oneDec.i
  jumpMultiplier : 0 ≤ mm.interestRateModel.jumpMultiplier.i
  reserveFactor : 0 ≤ mm.reserveFactor.i ∧ mm.reserveFactor.i ≤ Dec.oneDec.i
  auctionSize : 0 < mm.auctionSize
  keeperRewardPercentage :
    0 ≤ mm.keeperRewardPercentage.i ∧ mm.keeperRewardPercentage.i ≤ Dec.oneDec.i

/-- Validation admits exactly the well-formed money markets. -/
theorem validate_ok_iff (mm : MoneyMarket) : mm.validate = .ok () ↔ mm.WellFormed := by
  have hwf : ∀ w : mm.WellFormed, validateDenom mm.denom = .ok () ∧ mm.borrowLimit.validate = .ok () ∧
      mm.interestRateModel.validate = .ok () :=
    fun w => ⟨(validateDenom_ok_iff _).mpr w.denom, mm.borrowLimit.validate_ok_iff.mpr ⟨w.maximumLimit, w.loanToValue⟩,
      mm.interestRateModel.validate_ok_iff.mpr ⟨w.baseRateAPY, w.baseMultiplier, w.kink, w.jumpMultiplier⟩⟩
  unfold validate
  cases hd : validateDenom mm.denom with
  | error e => exact iff_of_false (fun h => by cases h) fun w => by rw [(hwf w).1] at hd; cases hd
  | ok u =>
  cases hb : mm.borrowLimit.validate with
  | error e => exact iff_of_false (fun h => by cases h) fun w => by rw [(hwf w).2.1] at hb; cases hb
  | ok u' =>
  cases hi : mm.interestRateModel.validate with
  | error e => exact iff_of_false (fun h => by cases h) fun w => by rw [(hwf w).2.2] at hi; cases hi
  | ok u'' =>
  have hdv := (validateDenom_ok_iff _).mp hd
  obtain ⟨hml, hl⟩ := mm.borrowLimit.validate_ok_iff.mp hb
  obtain ⟨hb0, hm, hk, hj⟩ := mm.interestRateModel.validate_ok_iff.mp hi
  simp only [ok_bind, Dec.isNegative, Dec.lt_def, Bool.or_eq_true, decide_eq_true_eq, Bool.not_eq_true',
    decide_eq_false_iff_not]
  split_ifs <;> first
    | exact iff_of_true rfl ⟨hdv, hml, hl, hb0, hm, hk, hj, by omega, by omega, by omega⟩
    | exact iff_of_false (fun h => by cases h) fun w => by
        have := w.reserveFactor
        have := w.auctionSize
        have := w.keeperRewardPercentage
        omega

end MoneyMarket

namespace Params

/-- `Params.Validate`: every money market, and a non-negative check count. -/
def validate (p : Params) : Except String Unit := do
  p.moneyMarkets.forM MoneyMarket.validate
  if p.checkLtvIndexCount < 0 then
    throw ("CheckLtvIndexCount param must be positive, got: " ++ toString p.checkLtvIndexCount)

/-- The default parameters pass their own check. -/
theorem defaultParams_validate : defaultParams.validate = .ok () := rfl

/-- What `Params.Validate` asks: every money market well formed, and a non-negative
check count; a count of zero passes, although the message says the count must be
positive. It asks nothing of a market's conversion factor, nor that two markets have
different denoms. -/
structure WellFormed (p : Params) : Prop where
  moneyMarkets : ∀ mm ∈ p.moneyMarkets, mm.WellFormed
  checkLtvIndexCount : 0 ≤ p.checkLtvIndexCount

/-- A loop of checks returns when each check does. -/
theorem forM_eq_ok {α : Type} {f : α → Except String Unit} :
    ∀ l : List α, l.forM f = .ok () ↔ ∀ x ∈ l, f x = .ok ()
  | [] => by simp [List.forM, pure, Except.pure]
  | x :: l => by cases h : f x <;> simp [h, forM_eq_ok l, bind, Except.bind]

/-- `Params.Validate` accepts exactly the well-formed parameter sets. -/
theorem validate_ok_iff_wellFormed (p : Params) : p.validate = .ok () ↔ p.WellFormed := by
  have hmm : p.moneyMarkets.forM MoneyMarket.validate = .ok () ↔ ∀ mm ∈ p.moneyMarkets, mm.WellFormed := by
    simp only [forM_eq_ok, MoneyMarket.validate_ok_iff]
  unfold validate
  cases hf : p.moneyMarkets.forM MoneyMarket.validate with
  | error e => exact iff_of_false (fun h => by cases h) fun w => by rw [hmm.mpr w.moneyMarkets] at hf; cases hf
  | ok u =>
    have hw := hmm.mp hf
    by_cases hc : p.checkLtvIndexCount < 0
    · exact iff_of_false (by simp [bind, Except.bind, hc, throw, throwThe, MonadExceptOf.throw]) fun w => by
        have := w.checkLtvIndexCount
        omega
    · exact iff_of_true (by simp [bind, Except.bind, hc, pure, Except.pure]) ⟨hw, by omega⟩

end Params

end KavaHard.Types
