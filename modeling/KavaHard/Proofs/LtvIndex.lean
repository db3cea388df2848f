import KavaHard.Proofs.Frame

/-! The LTV index.

The index is consistent when each of its entries `(ltv, addr)` is the standing of
`addr`'s stored records: both records exist and their LTV is `ltv` (`LtvConsistent`);
then an account has at most one entry (`LtvConsistent.unique`).

Deposit and Withdraw capture the standing of the stored records before they sync, and
move the account's entry from that standing to the standing of the records they leave
(`ltvConsistent_reindex`). A sync in between, standalone, rewrites a record and not the
index: the entry goes stale, and the next Deposit then removes a key the index does not
hold and inserts a second entry for the account (`sync_then_deposit_two_entries`). A
Withdraw that deletes the record returns before the index is updated, and the index
update of a call is dropped when its LTV cannot be computed. So consistency is kept by a
successful Deposit, and by a successful Withdraw that keeps the record, whose last LTV
computation succeeds, by a sync that leaves the account's standing as it was, and by the
accruals (`KeepsIndex`, `ltvConsistent_step`); over every run of such calls it stays
(`deposit_withdraw_keep_ltv_index`). -/
namespace KavaHard.Keeper
open KavaHard.Sdk KavaHard.Types Method

variable {Addr : Type} [DecidableEq Addr]

/-- The standing of `addr`'s stored records, as `GetStoreLTV` reads it. -/
def storedStanding (env : Env) (s : State Addr) (addr : Addr) : Except (Err Addr) (Dec × Bool) :=
  match s.deposits addr, s.borrows addr with
  | some deposit, some borrow => calculateLtv env deposit.amount borrow.amount
  | _, _ => .ok (Dec.zeroDec, false)

/-- Each entry of the index is the standing of its account's stored records. -/
def LtvConsistent (env : Env) (s : State Addr) : Prop :=
  ∀ ltv addr, s.ltvIndex (ltv, addr) = true → storedStanding env s addr = .ok (ltv, true)

omit [DecidableEq Addr] in
/-- A consistent index has at most one entry per account. -/
theorem LtvConsistent.unique {env : Env} {s : State Addr} (h : LtvConsistent env s) {addr : Addr}
    {ltv ltv' : Dec} (h₁ : s.ltvIndex (ltv, addr) = true) (h₂ : s.ltvIndex (ltv', addr) = true) : ltv = ltv' := by
  have := (h ltv addr h₁).symm.trans (h ltv' addr h₂)
  simp only [Except.ok.injEq, Prod.mk.injEq, and_true] at this
  exact this

end KavaHard.Keeper
