import Mathlib.Tactic.Linarith

/-! `sdk.Dec` and the bound of `sdk.Int`, as the Cosmos SDK computes them.

A `Dec` is a big integer read with 18 fractional digits. `Quo` and `Mul` cut the
18 extra digits of their exact result with round half to even
(`chopPrecisionAndRound`), `TruncateInt` drops them toward zero, and every
operation panics when its result needs more than `maxDecBitLen` bits; `Quo` also
panics on a zero divisor, and an `sdk.Int` of more than `maxBitLen` bits panics.
A panic is an `Except.error` carrying Go's message.

What the rest of the development uses of the rounding is `chop_spec`: the chopped
value is within half a unit of the exact quotient. -/
namespace KavaHard.Sdk

/-! ### Panics

A computation that may panic is an `Except String`; these two lemmas take a
successful run apart. -/

theorem bind_eq_ok {ε α β : Type} {x : Except ε α} {f : α → Except ε β} {b : β} :
    x >>= f = .ok b ↔ ∃ a, x = .ok a ∧ f a = .ok b := by
  cases x <;> simp [bind, Except.bind]

theorem ok_bind {ε α β : Type} (a : α) (f : α → Except ε β) : (Except.ok a >>= f) = f a := rfl

theorem map_eq_ok {ε α β : Type} {x : Except ε α} {f : α → β} {b : β} :
    f <$> x = .ok b ↔ ∃ a, x = .ok a ∧ f a = b := by
  cases x <;> simp [Functor.map, Except.map]

/-! ### Decimals -/

/-- `10^18`: a `Dec` is held as its value times this. -/
def precisionReuse : Nat := 1000000000000000000

/-- Half of `precisionReuse`, where round half to even decides. -/
def fivePrecision : Nat := 500000000000000000

/-- An `sdk.Int` holds at most this many bits. -/
def maxBitLen : Nat := 255

/-- A `Dec` holds at most `maxBitLen + 60` bits. -/
def maxDecBitLen : Nat := 315

/-- `x.BitLen() > n`: the magnitude of `x` needs more than `n` bits. -/
def bitLenExceeds (x : Int) (n : Nat) : Bool := x.natAbs >>> n ≠ 0

theorem bitLenExceeds_iff (x : Int) (n : Nat) : bitLenExceeds x n = true ↔ 2 ^ n ≤ x.natAbs := by
  simp [bitLenExceeds, Nat.shiftRight_eq_div_pow, Nat.div_eq_zero_iff (Nat.two_pow_pos n)]

/-- `chopPrecisionAndRound` on a non-negative value: drop 18 digits, round half to even. -/
def chopNat (n : Nat) : Nat :=
  let quo := n / precisionReuse
  let rem := n % precisionReuse
  if rem < fivePrecision then quo
  else if fivePrecision < rem then quo + 1
  else if quo % 2 = 0 then quo else quo + 1

/-- Remove 18 digits with round half to even; a negative value is rounded by its magnitude. -/
def chopPrecisionAndRound (d : Int) : Int :=
  if d < 0 then -(chopNat d.natAbs : Int) else chopNat d.natAbs

theorem chopNat_spec (n : Nat) :
    2 * (chopNat n * precisionReuse) ≤ 2 * n + precisionReuse ∧
      2 * n ≤ 2 * (chopNat n * precisionReuse) + precisionReuse := by
  have h := Nat.div_add_mod n precisionReuse
  unfold chopNat
  simp only [precisionReuse, fivePrecision] at *
  split_ifs <;> omega

/-- The rounding error is at most half a unit of the 18th digit. -/
theorem chop_spec (d : Int) :
    2 * (chopPrecisionAndRound d * precisionReuse) ≤ 2 * d + precisionReuse ∧
      2 * d ≤ 2 * (chopPrecisionAndRound d * precisionReuse) + precisionReuse := by
  have h := chopNat_spec d.natAbs
  unfold chopPrecisionAndRound
  simp only [precisionReuse] at *
  split_ifs <;> omega

theorem chop_nonneg {d : Int} (h : 0 ≤ d) : 0 ≤ chopPrecisionAndRound d := by
  simp [chopPrecisionAndRound, not_lt.mpr h]

/-- `sdk.Dec`: a decimal with 18 fractional digits, held as its value times `10^18`. -/
structure Dec where
  i : Int
  deriving DecidableEq, Repr

namespace Dec

instance : LE Dec := ⟨fun a b => a.i ≤ b.i⟩
instance : LT Dec := ⟨fun a b => a.i < b.i⟩
instance (a b : Dec) : Decidable (a ≤ b) := inferInstanceAs (Decidable (a.i ≤ b.i))
instance (a b : Dec) : Decidable (a < b) := inferInstanceAs (Decidable (a.i < b.i))

theorem le_def {a b : Dec} : a ≤ b ↔ a.i ≤ b.i := Iff.rfl
theorem lt_def {a b : Dec} : a < b ↔ a.i < b.i := Iff.rfl

/-- `sdk.ZeroDec()`. -/
def zeroDec : Dec := ⟨0⟩

/-- `sdk.OneDec()`. -/
def oneDec : Dec := ⟨precisionReuse⟩

/-- `sdk.NewDecFromInt`. -/
def newDecFromInt (x : Int) : Dec := ⟨x * precisionReuse⟩

def isNegative (d : Dec) : Bool := d.i < 0
def isPositive (d : Dec) : Bool := 0 < d.i

/-- A result of more than `maxDecBitLen` bits panics. -/
def checked (x : Int) : Except String Dec :=
  if bitLenExceeds x maxDecBitLen then .error "Int overflow" else .ok ⟨x⟩

/-- `Dec.Quo`: scale by `10^36`, divide truncating toward zero (`big.Int.Quo`), chop. -/
def quo (d d2 : Dec) : Except String Dec :=
  if d2.i = 0 then .error "division by zero"
  else checked (chopPrecisionAndRound ((d.i * precisionReuse * precisionReuse).tdiv d2.i))

/-- `Dec.Mul`: multiply, chop. -/
def mul (d d2 : Dec) : Except String Dec := checked (chopPrecisionAndRound (d.i * d2.i))

def sub (d d2 : Dec) : Except String Dec := checked (d.i - d2.i)

def add (d d2 : Dec) : Except String Dec := checked (d.i + d2.i)

/-- `Dec.TruncateInt`: drop the fraction toward zero; more than `maxBitLen` bits panics
in `NewIntFromBigInt`. -/
def truncateInt (d : Dec) : Except String Int :=
  let t := d.i.tdiv precisionReuse
  if bitLenExceeds t maxBitLen then .error "NewIntFromBigInt() out of bound" else .ok t

/-- `Dec.String`: the magnitude's integer part, a point and 18 digits. -/
def toString (d : Dec) : String :=
  let digits := Nat.repr (d.i.natAbs % precisionReuse)
  (if d.i < 0 then "-" else "") ++ Nat.repr (d.i.natAbs / precisionReuse) ++ "." ++
    String.mk (List.replicate (18 - digits.length) '0') ++ digits

theorem checked_eq {x : Int} (h : x.natAbs < 2 ^ maxDecBitLen) : checked x = .ok ⟨x⟩ := by
  simp [checked, bitLenExceeds_iff, not_le.mpr h]

theorem checked_ok {x : Int} {d : Dec} (h : checked x = .ok d) : d = ⟨x⟩ := by
  unfold checked at h
  split at h <;> cases h
  rfl

theorem quo_ok {d d2 r : Dec} (h : d.quo d2 = .ok r) :
    d2.i ≠ 0 ∧ r.i = chopPrecisionAndRound ((d.i * precisionReuse * precisionReuse).tdiv d2.i) := by
  unfold quo at h
  split at h
  · cases h
  · exact ⟨‹_›, by rw [checked_ok h]⟩

theorem mul_ok {d d2 r : Dec} (h : d.mul d2 = .ok r) : r.i = chopPrecisionAndRound (d.i * d2.i) := by
  rw [checked_ok h]

theorem sub_ok {d d2 r : Dec} (h : d.sub d2 = .ok r) : r.i = d.i - d2.i := by
  rw [checked_ok h]

theorem truncateInt_ok {d : Dec} {t : Int} (h : d.truncateInt = .ok t) :
    t = d.i.tdiv precisionReuse := by
  simp only [truncateInt] at h
  split at h <;> cases h
  rfl

end Dec

end KavaHard.Sdk
