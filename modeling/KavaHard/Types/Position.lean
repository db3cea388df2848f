import KavaHard.Sdk.Coins

/-! An account's position on one side of the market: a `types.Deposit` or a
`types.Borrow`.

Both records hold a balance set and an index list: for a denom of the balance, the
global interest factor at which the account last synced it. The Go structs also
copy the owner's address; the store is keyed by that address (`SetDeposit` writes
under `deposit.Depositor`), so the model keeps it as the key only, and a record
stored under the wrong key cannot be built.

The index is read as `SyncSupplyInterest` reads it, by its first entry for a denom
(`findFactor`), and updated there (`setFactor`). -/
namespace KavaHard.Types
open KavaHard.Sdk

/-- `SupplyInterestFactor` and `BorrowInterestFactor`: a denom and a global factor. -/
structure InterestFactor where
  denom : String
  value : Dec
  deriving DecidableEq, Repr

/-- A `Deposit` or a `Borrow` without its owner. -/
structure Position where
  amount : Coins
  index : List InterestFactor
  deriving DecidableEq, Repr

/-- `types.Deposit`. -/
abbrev Deposit := Position

/-- `types.Borrow`. -/
abbrev Borrow := Position

/-- The value of the first index entry for `denom`. -/
def findFactor (denom : String) : List InterestFactor → Option Dec
  | [] => none
  | factor :: rest => if factor.denom = denom then some factor.value else findFactor denom rest

/-- Overwrite the value of the first index entry for `denom`. -/
def setFactor (denom : String) (value : Dec) : List InterestFactor → List InterestFactor
  | [] => []
  | factor :: rest =>
    if factor.denom = denom then ⟨factor.denom, value⟩ :: rest else factor :: setFactor denom value rest

@[simp] theorem findFactor_nil (denom : String) : findFactor denom [] = none := rfl

theorem findFactor_cons (denom : String) (factor : InterestFactor) (rest : List InterestFactor) :
    findFactor denom (factor :: rest) =
      if factor.denom = denom then some factor.value else findFactor denom rest := rfl

theorem findFactor_append (denom : String) (index extra : List InterestFactor) :
    findFactor denom (index ++ extra) = (findFactor denom index).or (findFactor denom extra) := by
  induction index with
  | nil => rfl
  | cons factor rest ih => by_cases h : factor.denom = denom <;> simp [findFactor_cons, h, ih]

theorem findFactor_eq_none {denom : String} {index : List InterestFactor} (h : ∀ e ∈ index, e.denom ≠ denom) :
    findFactor denom index = none := by
  induction index with
  | nil => rfl
  | cons factor rest ih =>
    rw [findFactor_cons, if_neg (h factor (List.mem_cons_self _ _))]
    exact ih fun e he => h e (List.mem_cons_of_mem _ he)

theorem findFactor_setFactor (denom other : String) (value : Dec) (index : List InterestFactor) :
    findFactor other (setFactor denom value index) =
      if denom = other ∧ (findFactor denom index).isSome then some value else findFactor other index := by
  induction index with
  | nil => simp [setFactor]
  | cons factor rest ih =>
    by_cases h : factor.denom = denom
    · by_cases h' : denom = other <;> simp_all [setFactor, findFactor_cons]
    · by_cases h' : factor.denom = other
      · subst h'
        simp [setFactor, findFactor_cons, h, Ne.symm h]
      · simp [setFactor, findFactor_cons, h, h', ih]

theorem findFactor_append_other {denom other : String} (h : other ≠ denom) (index : List InterestFactor)
    (value : Dec) : findFactor other (index ++ [⟨denom, value⟩]) = findFactor other index := by
  rw [findFactor_append]
  cases findFactor other index <;> simp [findFactor_cons, Ne.symm h]

theorem findFactor_setFactor_other {denom other : String} (h : other ≠ denom) (index : List InterestFactor)
    (value : Dec) : findFactor other (setFactor denom value index) = findFactor other index := by
  rw [findFactor_setFactor]
  simp [Ne.symm h]

/-- Setting the first entry of `denom` to the value it holds changes nothing. -/
theorem setFactor_of_findFactor {denom : String} {value : Dec} :
    ∀ {index : List InterestFactor}, findFactor denom index = some value → setFactor denom value index = index
  | [], h => by cases h
  | factor :: rest, h => by
    rw [findFactor_cons] at h
    by_cases hd : factor.denom = denom
    · rw [if_pos hd] at h
      cases h
      simp only [setFactor, if_pos hd]
    · rw [if_neg hd] at h
      simp only [setFactor, if_neg hd, setFactor_of_findFactor h]

/-- Overwriting a value keeps the denoms of the index, in order. -/
theorem map_denom_setFactor (denom : String) (value : Dec) (index : List InterestFactor) :
    (setFactor denom value index).map InterestFactor.denom = index.map InterestFactor.denom := by
  induction index with
  | nil => rfl
  | cons factor rest ih => by_cases h : factor.denom = denom <;> simp [setFactor, h, ih]

end KavaHard.Types
