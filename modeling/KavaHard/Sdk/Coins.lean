import KavaHard.Sdk.Dec
import Mathlib.Data.String.Basic
import Mathlib.Data.List.Sort
import Mathlib.Algebra.BigOperators.Group.List

/-! `sdk.Coin` and `sdk.Coins`, as the Cosmos SDK computes them.

A `Coins` value is a list. The SDK keeps a valid set sorted by denom, with no denom
twice and only positive amounts (`isValid`), and its operations assume it: `Add`
merges two sorted lists, adding the amounts of a shared denom and dropping zeros;
`SafeSub` adds the negated list and reports whether an amount came out negative;
`AmountOf` is a binary search. Denoms are compared with `compare`, Go's
`strings.Compare`. The syntax check of a denom is `validateDenom`, which a money
market's validation calls; `isValid` checks order and sign only, and leaves out the
denom syntax that the SDK's `IsValid` also checks.

`sumOf` reads a list as the function from denoms to amounts that it stands for, on
any list. `sumOf_safeAdd` says that `Add` adds these functions whatever its inputs,
which is all that conservation needs. -/
namespace KavaHard.Sdk

structure Coin where
  denom : String
  amount : Int
  deriving DecidableEq, Repr

/-- `sdk.Coins`. -/
abbrev Coins := List Coin

namespace Coin

def isZero (coin : Coin) : Bool := coin.amount = 0
def isPositive (coin : Coin) : Bool := 0 < coin.amount
def isNegative (coin : Coin) : Bool := coin.amount < 0

/-- `Coin.String`: the amount, then the denom. -/
def toString (coin : Coin) : String := ToString.toString coin.amount ++ coin.denom

/-- `Coin.Add`: the amounts of one denom; a sum of more than `maxBitLen` bits panics. -/
def add (coin coinB : Coin) : Except String Coin :=
  if coin.denom ≠ coinB.denom then
    .error ("invalid coin denominations; " ++ coin.denom ++ ", " ++ coinB.denom)
  else
    let res := coin.amount + coinB.amount
    if bitLenExceeds res maxBitLen then .error "Int overflow" else .ok ⟨coin.denom, res⟩

theorem add_ok {coin coinB res : Coin} (h : coin.add coinB = .ok res) :
    coin.denom = coinB.denom ∧ res = ⟨coin.denom, coin.amount + coinB.amount⟩ := by
  unfold add at h
  split at h
  · cases h
  · rename_i hd
    simp only at h
    split at h <;> cases h
    exact ⟨not_not.mp hd, rfl⟩

end Coin

/-! ### Denoms -/

/-- A character of a denom after its first: a lowercase letter, a digit or a slash. -/
def isDenomChar (c : Char) : Bool := c.isLower || c.isDigit || c == '/'

/-- `sdk.ValidateDenom`: the denom matches `^[a-z][a-z0-9/]{2,15}$`. -/
def validateDenom (denom : String) : Except String Unit :=
  match denom.toList with
  | c :: rest =>
    if c.isLower && 2 ≤ rest.length && rest.length ≤ 15 && rest.all isDenomChar then .ok ()
    else .error ("invalid denom: " ++ denom)
  | [] => .error ("invalid denom: " ++ denom)

/-- A denom `ValidateDenom` accepts: three to sixteen lowercase letters, digits or
slashes, the first a letter. -/
structure DenomValid (denom : String) : Prop where
  length : 3 ≤ denom.length ∧ denom.length ≤ 16
  chars : ∀ c ∈ denom.toList, isDenomChar c = true
  first : ∀ c, denom.toList.head? = some c → c.isLower = true

/-- `ValidateDenom` accepts exactly the denoms of its pattern. -/
theorem validateDenom_ok_iff (denom : String) : validateDenom denom = .ok () ↔ DenomValid denom := by
  obtain ⟨l⟩ := denom
  have hlen : String.length ⟨l⟩ = l.length := rfl
  have hlist : String.toList ⟨l⟩ = l := rfl
  unfold validateDenom
  rw [hlist]
  cases l with
  | nil => exact iff_of_false (fun h => by cases h) fun h => by simpa [hlen] using h.length.1
  | cons c rest =>
    have hvalid : DenomValid ⟨c :: rest⟩ ↔
        c.isLower = true ∧ 2 ≤ rest.length ∧ rest.length ≤ 15 ∧ ∀ x ∈ rest, isDenomChar x = true := by
      refine ⟨fun ⟨hl, hchars, hfirst⟩ => ?_, fun ⟨hc, h2, h15, hall⟩ => ⟨?_, ?_, ?_⟩⟩
      · rw [hlen, List.length_cons] at hl
        exact ⟨hfirst c rfl, by omega, by omega, fun x hx => hchars x (List.mem_cons_of_mem _ hx)⟩
      · rw [hlen, List.length_cons]
        omega
      · rintro x (_ | ⟨_, hx⟩)
        · simp [isDenomChar, hc]
        · exact hall x hx
      · rintro x ⟨⟩
        exact hc
    rw [hvalid]
    simp only [Bool.and_eq_true, decide_eq_true_eq, List.all_eq_true, and_assoc]
    split_ifs with h
    · exact iff_of_true rfl h
    · exact iff_of_false (fun h => by cases h) h

example : validateDenom "ukava" = .ok () := rfl
example : validateDenom "Kava" = .error "invalid denom: Kava" := rfl

/-! ### Coin sets -/

/-- `sdk.NewCoin`: a negative amount panics. -/
def newCoin (denom : String) (amount : Int) : Except String Coin :=
  if amount < 0 then .error ("negative coin amount: " ++ toString amount) else .ok ⟨denom, amount⟩

def removeZeroCoins (coins : Coins) : Coins := coins.filter fun coin => !coin.isZero

/-- Append a coin to a sum unless it is zero: `safeAdd` keeps no zero. -/
def consNonzero (coin : Coin) (sum : Coins) : Coins := if coin.isZero then sum else coin :: sum

/-- `safeAdd` with the left list at `coinA :: restA`, against the right list; `tail`
is `safeAdd restA`. -/
def safeAddStep (coinA : Coin) (restA : Coins) (tail : Coins → Except String Coins) :
    Coins → Except String Coins
  | [] => .ok (removeZeroCoins (coinA :: restA))
  | coinB :: restB =>
    match compare coinA.denom coinB.denom with
    | .lt => consNonzero coinA <$> tail (coinB :: restB)
    | .eq => do
      let res ← coinA.add coinB
      consNonzero res <$> tail restB
    | .gt => consNonzero coinB <$> safeAddStep coinA restA tail restB

/-- `Coins.safeAdd`: the merge of two lists sorted by denom. -/
def safeAdd : Coins → Coins → Except String Coins
  | [], coinsB => .ok (removeZeroCoins coinsB)
  | coinA :: restA, coinsB => safeAddStep coinA restA (safeAdd restA) coinsB

/-- `findDup` on a sorted list: two neighbours with one denom. -/
def hasDup : Coins → Bool
  | coin :: next :: rest => coin.denom = next.denom || hasDup (next :: rest)
  | _ => false

namespace Coins

/-- `Coins.Add`. -/
def add (coins coinsB : Coins) : Except String Coins := safeAdd coins coinsB

def negative (coins : Coins) : Coins := coins.map fun coin => ⟨coin.denom, -coin.amount⟩

def isAnyNegative (coins : Coins) : Bool := coins.any Coin.isNegative

/-- `Coins.SafeSub`: the difference, and whether an amount of it is negative. -/
def safeSub (coins coinsB : Coins) : Except String (Coins × Bool) := do
  let diff ← safeAdd coins coinsB.negative
  pure (diff, diff.isAnyNegative)

/-- `Coins.Sub`: a negative difference panics. -/
def sub (coins coinsB : Coins) : Except String Coins := do
  let (diff, hasNeg) ← coins.safeSub coinsB
  if hasNeg then throw "negative coin amount" else pure diff

/-- `Coins.IsValid`: amounts positive, denoms strictly increasing. -/
def isValid : Coins → Bool
  | [] => true
  | [coin] => coin.isPositive
  | coin :: next :: rest =>
    coin.isPositive && compare coin.denom next.denom == .lt && isValid (next :: rest)

/-- `Coins.Sort`, by denom; Go's sort is not stable, which only matters for a list
that holds a denom twice. -/
def sort (coins : Coins) : Coins :=
  coins.insertionSort fun coin coinB => compare coin.denom coinB.denom ≠ .gt

/-- The loop of `Coins.IsEqual` over two sorted lists of one length; `Coin.IsEqual`
panics on two denoms. -/
def isEqualSorted : Coins → Coins → Except String Bool
  | coin :: rest, coinB :: restB =>
    if coin.denom ≠ coinB.denom then
      .error ("invalid coin denominations; " ++ coin.denom ++ ", " ++ coinB.denom)
    else if coin.amount ≠ coinB.amount then .ok false
    else isEqualSorted rest restB
  | _, _ => .ok true

/-- `Coins.IsEqual`. -/
def isEqual (coins coinsB : Coins) : Except String Bool :=
  if coins.length ≠ coinsB.length then .ok false else isEqualSorted coins.sort coinsB.sort

/-- The binary search of `Coins.AmountOf`; `fuel` bounds the depth, and the length
of the list is enough. -/
def amountOfSearch (denom : String) : Nat → Coins → Int
  | 0, _ => 0
  | _ + 1, [] => 0
  | _ + 1, [coin] => if coin.denom = denom then coin.amount else 0
  | fuel + 1, coins@(_ :: _ :: _) =>
    let midIdx := coins.length / 2
    match coins.drop midIdx with
    | [] => 0
    | coin :: _ =>
      match compare denom coin.denom with
      | .lt => amountOfSearch denom fuel (coins.take midIdx)
      | .eq => coin.amount
      | .gt => amountOfSearch denom fuel (coins.drop (midIdx + 1))

/-- `Coins.AmountOf`. -/
def amountOf (coins : Coins) (denom : String) : Int := amountOfSearch denom coins.length coins

/-- `Coins.DenomsSubsetOf`. -/
def denomsSubsetOf (coins coinsB : Coins) : Bool :=
  coins.length ≤ coinsB.length && coins.all fun coin => coinsB.amountOf coin.denom ≠ 0

/-- `Coins.String`: the coins, comma separated. -/
def toString (coins : Coins) : String := ",".intercalate (coins.map Coin.toString)

/-- What a list holds of `denom`, summed over its entries. -/
def sumOf (coins : Coins) (denom : String) : Int :=
  (coins.map fun coin => if coin.denom = denom then coin.amount else 0).sum

end Coins

/-- `sdk.NewCoins`: drop zeros and sort; a denom twice or an invalid set panics. -/
def newCoins (coins : Coins) : Except String Coins :=
  let sorted := (removeZeroCoins coins).sort
  if hasDup sorted then .error "find duplicate denom"
  else if !sorted.isValid then .error "invalid coin set"
  else .ok sorted

/-! ### What a list stands for -/

namespace Coins

variable (denom : String)

@[simp] theorem sumOf_nil : sumOf [] denom = 0 := rfl

@[simp] theorem sumOf_cons (coin : Coin) (coins : Coins) :
    sumOf (coin :: coins) denom = (if coin.denom = denom then coin.amount else 0) + sumOf coins denom := by
  simp [sumOf]

@[simp] theorem sumOf_append (coins coinsB : Coins) :
    sumOf (coins ++ coinsB) denom = sumOf coins denom + sumOf coinsB denom := by
  induction coins with
  | nil => simp
  | cons coin coins ih => simp only [List.cons_append, sumOf_cons, ih]; omega

@[simp] theorem sumOf_removeZeroCoins (coins : Coins) :
    sumOf (removeZeroCoins coins) denom = sumOf coins denom := by
  induction coins with
  | nil => rfl
  | cons coin coins ih =>
    by_cases h : coin.amount = 0 <;> simp_all [removeZeroCoins, List.filter_cons, Coin.isZero]

@[simp] theorem sumOf_consNonzero (coin : Coin) (coins : Coins) :
    sumOf (consNonzero coin coins) denom = sumOf (coin :: coins) denom := by
  by_cases h : coin.amount = 0 <;> simp [consNonzero, Coin.isZero, h]

@[simp] theorem sumOf_negative (coins : Coins) : sumOf coins.negative denom = -sumOf coins denom := by
  induction coins with
  | nil => rfl
  | cons coin coins ih => simp only [negative, List.map_cons, sumOf_cons] at *; split_ifs <;> omega

theorem sumOf_safeAddStep (coinA : Coin) (restA : Coins) (tail : Coins → Except String Coins)
    (htail : ∀ coinsB sum, tail coinsB = .ok sum → sumOf sum denom = sumOf restA denom + sumOf coinsB denom) :
    ∀ coinsB sum, safeAddStep coinA restA tail coinsB = .ok sum →
      sumOf sum denom = sumOf (coinA :: restA) denom + sumOf coinsB denom := by
  intro coinsB
  induction coinsB with
  | nil => intro sum h; cases h; simp
  | cons coinB restB ih =>
    intro sum h
    simp only [safeAddStep] at h
    split at h
    · obtain ⟨rest, hrest, rfl⟩ := map_eq_ok.mp h
      simp only [sumOf_consNonzero, sumOf_cons, htail _ _ hrest]
      omega
    · obtain ⟨res, hres, h⟩ := bind_eq_ok.mp h
      obtain ⟨rest, hrest, rfl⟩ := map_eq_ok.mp h
      obtain ⟨hd, rfl⟩ := Coin.add_ok hres
      simp only [sumOf_consNonzero, sumOf_cons, htail _ _ hrest, hd]
      split_ifs <;> omega
    · obtain ⟨rest, hrest, rfl⟩ := map_eq_ok.mp h
      simp only [sumOf_consNonzero, sumOf_cons, ih _ hrest]
      omega

/-- `Add` adds what the two lists stand for, on any lists. -/
theorem sumOf_safeAdd : ∀ (coins coinsB sum : Coins), safeAdd coins coinsB = .ok sum →
    sumOf sum denom = sumOf coins denom + sumOf coinsB denom
  | [], coinsB, sum, h => by cases h; simp
  | coinA :: restA, coinsB, sum, h =>
    sumOf_safeAddStep denom coinA restA _ (sumOf_safeAdd restA) coinsB sum h

theorem sumOf_safeSub {coins coinsB diff : Coins} {hasNeg : Bool}
    (h : coins.safeSub coinsB = .ok (diff, hasNeg)) :
    sumOf diff denom = sumOf coins denom - sumOf coinsB denom := by
  obtain ⟨d, hd, h⟩ := bind_eq_ok.mp h
  cases h
  rw [sumOf_safeAdd denom _ _ _ hd, sumOf_negative]
  omega

theorem sumOf_perm {coins coinsB : Coins} (h : coins.Perm coinsB) : sumOf coins denom = sumOf coinsB denom :=
  (h.map _).sum_eq

omit denom in
theorem eq_of_isEqualSorted : ∀ {coins coinsB : Coins}, coins.length = coinsB.length →
    isEqualSorted coins coinsB = .ok true → coins = coinsB
  | [], [], _, _ => rfl
  | ⟨d, a⟩ :: rest, ⟨d', a'⟩ :: restB, hl, h => by
    simp only [isEqualSorted, ne_eq] at h
    split_ifs at h with hd ha
    · rw [hd, ha, eq_of_isEqualSorted (Nat.succ.inj hl) h]
    · cases h

/-- Two lists that `IsEqual` finds equal hold the same of every denom. -/
theorem sumOf_of_isEqual {coins coinsB : Coins} (h : coins.isEqual coinsB = .ok true) :
    sumOf coins denom = sumOf coinsB denom := by
  unfold isEqual at h
  split_ifs at h with hl
  · cases h
  have hperm := List.perm_insertionSort (fun coin coinB : Coin => compare coin.denom coinB.denom ≠ .gt)
  have hsorted := eq_of_isEqualSorted (by simp only [sort, (hperm _).length_eq]; exact not_not.mp hl) h
  calc sumOf coins denom = sumOf coins.sort denom := sumOf_perm denom (hperm coins).symm
    _ = sumOf coinsB.sort denom := by rw [hsorted]
    _ = sumOf coinsB denom := sumOf_perm denom (hperm coinsB)

theorem sub_ok {coins coinsB diff : Coins} (h : coins.sub coinsB = .ok diff) :
    ∃ hasNeg, coins.safeSub coinsB = .ok (diff, hasNeg) ∧ hasNeg = false := by
  obtain ⟨⟨d, hasNeg⟩, hd, h⟩ := bind_eq_ok.mp h
  cases hasNeg
  · cases h; exact ⟨false, hd, rfl⟩
  · cases h

end Coins

end KavaHard.Sdk
