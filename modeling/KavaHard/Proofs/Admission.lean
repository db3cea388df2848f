import KavaHard.Proofs.Settlement
import KavaHard.Proofs.LtvIndex

/-! What a Deposit lets in.

`ValidateDeposit` refuses the first coin whose denom no liquidity provider schedule
names, with that denom (`validateDeposit_eq`). It is the only way a denom gets into a
record: a Deposit adds the coins it validated, a sync credits interest and renews index
entries only in denoms the record holds, and a Withdraw only takes coins off. So every
record holds and indexes only denoms with a schedule (`Listed`), in every state reached
from one where that holds, genesis included (`records_hold_listed_denoms`). -/
namespace KavaHard.Keeper
open KavaHard.Sdk KavaHard.Types Coins

variable {Addr : Type} [DecidableEq Addr]

/-! ### Schedules -/

/-- What `ValidateDeposit` asks of a denom: a liquidity provider schedule names it. -/
def hasSchedule (params : Params) (denom : String) : Bool :=
  params.liquidityProviderSchedules.any (·.depositDenom = denom)

omit [DecidableEq Addr] in
/-- `ValidateDeposit` fails on the first coin whose denom has no schedule, naming it. -/
theorem validateDeposit_eq (params : Params) : ∀ coins : Coins,
    (validateDeposit params coins : Except (Err Addr) Unit) =
      match coins.find? (fun c => !hasSchedule params c.denom) with
      | none => .ok ()
      | some coin => .error (.invalidDepositDenom coin.denom)
  | [] => rfl
  | coin :: rest => by
    rw [validateDeposit, List.find?_cons, validateDeposit_eq params rest]
    by_cases h : hasSchedule params coin.denom <;> simp only [hasSchedule] at h <;> simp [hasSchedule, h]

omit [DecidableEq Addr] in
theorem validateDeposit_ok {params : Params} {coins : Coins}
    (h : (validateDeposit params coins : Except (Err Addr) Unit) = .ok ()) :
    ∀ c ∈ coins, hasSchedule params c.denom = true := by
  rw [validateDeposit_eq] at h
  split at h
  · rename_i hnone
    intro c hc
    simpa using List.find?_eq_none.mp hnone c hc
  · cases h

/-! ### Listed records -/

/-- A record holds and indexes only denoms with a schedule. -/
structure Listed (params : Params) (p : Position) : Prop where
  amount : ∀ c ∈ p.amount, hasSchedule params c.denom = true
  index : ∀ e ∈ p.index, hasSchedule params e.denom = true

/-- The loop's index holds the entries it started from, renewed, and one for each coin
it visits. -/
theorem syncIndex_denoms (factors : String → Option Dec) (amount : Coins) :
    ∀ (coins : Coins) (index : List InterestFactor) (tni : Coins) (r : List InterestFactor × Coins),
      syncIndex factors amount coins index tni = .ok r →
      ∀ e ∈ r.1, e.denom ∈ index.map InterestFactor.denom ∨ e.denom ∈ coins.map Coin.denom
  | [], index, tni, r, h, e, he => by
    cases h
    exact .inl (List.mem_map_of_mem _ he)
  | coin :: rest, index, tni, r, h, e, he => by
    rw [syncIndex] at h
    split at h
    · rcases syncIndex_denoms factors amount rest _ tni r h e he with hi | hi
      · simp only [List.map_append, List.map_cons, List.map_nil, List.mem_append, List.mem_singleton] at hi
        rcases hi with hi | hi
        · exact .inl hi
        · exact .inr (hi ▸ List.mem_cons_self _ _)
      · exact .inr (List.mem_cons_of_mem _ hi)
    · obtain ⟨_, -, h⟩ := bind_eq_ok.mp h
      obtain ⟨_, -, h⟩ := bind_eq_ok.mp h
      obtain ⟨_, -, h⟩ := bind_eq_ok.mp h
      rcases syncIndex_denoms factors amount rest _ _ r h e he with hi | hi
      · rw [map_denom_setFactor] at hi
        exact .inl hi
      · exact .inr (List.mem_cons_of_mem _ hi)

/-- A sync keeps a record listed: it credits interest and renews entries only in denoms
the record holds. -/
theorem listed_syncPosition {params : Params} {factors : String → Option Dec} {p q : Position}
    {interest : Coins} (hp : Listed params p) (h : syncPosition factors p = .ok (q, interest)) :
    Listed params q := by
  obtain ⟨hloop, hadd⟩ := syncPosition_ok h
  have hheld : ∀ d ∈ p.amount.map Coin.denom, hasSchedule params d = true := by
    simpa using hp.amount
  refine ⟨fun c hc => ?_, fun e he => ?_⟩
  · rcases (mem_safeAdd _ _ _ hadd c hc).denom_from with ⟨x, hx, hxd⟩ | ⟨y, hy, hyd⟩
    · exact hxd ▸ hp.amount x hx
    · rcases (syncIndex_settles factors p.amount p.amount p.index [] _ hloop).2 y hy with ⟨_, h0, -⟩ | hd
      · cases h0
      · exact hyd ▸ hheld _ hd
  · rcases syncIndex_denoms factors p.amount p.amount p.index [] _ hloop e he with hd | hd
    · obtain ⟨e', he', hd⟩ := List.mem_map.mp hd
      exact hd ▸ hp.index e' he'
    · exact hheld _ hd

/-- A Deposit of listed coins onto a listed record, or onto none, writes a listed record. -/
theorem listed_depositedPosition {params : Params} {factors : String → Option Dec}
    {current : Option Deposit} {coins : Coins} {deposit : Deposit}
    (hcoins : ∀ c ∈ coins, hasSchedule params c.denom = true) (hcur : ∀ p, current = some p → Listed params p)
    (h : depositedPosition factors current coins = .ok deposit) : Listed params deposit := by
  refine ⟨fun c hc => ?_, ?_⟩
  · rcases depositedPosition_denoms h c hc with ⟨x, hx, hxd⟩ | ⟨p, rfl, x, hx, hxd⟩
    · exact hxd ▸ hcoins x hx
    · exact hxd ▸ (hcur p rfl).amount x hx
  cases current with
  | none =>
    cases h
    intro e he
    obtain ⟨c, hc, rfl⟩ := List.mem_map.mp he
    exact hcoins c hc
  | some p =>
    obtain ⟨newFactors, hnew, h⟩ := bind_eq_ok.mp h
    obtain ⟨amount, -, h⟩ := bind_eq_ok.mp h
    cases h
    intro e he
    rcases List.mem_append.mp he with he | he
    · obtain ⟨c, hc, hcd⟩ := missingFactors_denoms hnew e he
      exact hcd ▸ hcoins c hc
    · exact (hcur p rfl).index e he

/-! ### Over runs -/

/-- Every record is listed. -/
def Admitted (params : Params) (s : State Addr) : Prop :=
  ∀ addr p, s.deposits addr = some p → Listed params p

/-- Every call keeps every record listed. -/
def admitted (env : Env) : @Invariant Addr _ env where
  Inv := Admitted env.params
  Rule _ := True
  init coins s h := by
    obtain ⟨_, hs⟩ := initSupplyInterestFactors_frame env coins s
    rw [hs]
    exact h
  syncBorrow _ _ _ h hs := by
    obtain ⟨_, rfl, -⟩ := syncBorrowInterest_ok hs
    exact h
  syncSupply addr _ _ h hs := by
    refine records_update h (fun p hp => ?_) (syncSupplyInterest_touches hs).deposits
    rcases syncSupplyInterest_ok hs with ⟨-, rfl⟩ | ⟨d, synced, _, hd, hsync, rfl⟩
    · exact h addr p hp
    · simp only [setDeposit, Function.update_same, Option.some.injEq] at hp
      subst hp
      exact listed_syncPosition (h addr d hd) hsync
  depositCommit depositor _ _ _ _ _ _ h hs := by
    refine records_update h (fun p hp => ?_) (depositCommit_frame hs).deposits
    obtain ⟨hval, bal, pool, deposit, -, hd, hu⟩ := depositCommit_ok hs
    obtain ⟨_, rfl⟩ := ignoreError_updateItemInLtvIndex_frame hu
    simp only [setDeposit, Function.update_same, Option.some.injEq] at hp
    subst hp
    exact listed_depositedPosition (validateDeposit_ok hval) (h depositor) hd
  withdrawCommit depositor _ _ _ _ _ _ h hs := by
    refine records_update h (fun p hp => ?_) (withdrawCommit_frame hs).deposits
    obtain ⟨q, hq, hidx, hamt⟩ := withdrawCommit_record hs p hp
    have hql := h depositor q hq
    refine ⟨fun c hc => ?_, fun e he => hql.index e (hidx ▸ he)⟩
    obtain ⟨-, x, hx, hxd⟩ := hamt c hc
    exact hxd ▸ hql.amount x hx
  accrueSupply _ _ _ h := h
  accrueBorrow _ _ _ h := h

/-- Every record holds and indexes only denoms with a liquidity provider schedule, after
every run from a state where that held. -/
theorem records_hold_listed_denoms (env : Env) (s : State Addr) (ops : List (Op Addr))
    (hs : Admitted env.params s) : Admitted env.params (run env s ops) :=
  (admitted env).run ops s (fun _ _ => trivial) hs

/-- From genesis, through a Deposit of ukava and its Withdraw. -/
theorem records_hold_listed_denoms_genesis :
    Admitted ukavaEnv.params (genesis fun _ : Nat => [⟨"ukava", 100⟩]) ∧
      Admitted ukavaEnv.params (run ukavaEnv (genesis fun _ : Nat => [⟨"ukava", 100⟩])
        [.deposit 0 [⟨"ukava", 10⟩], .withdraw 0 [⟨"ukava", 5⟩]]) :=
  ⟨fun _ _ h => (by cases h), records_hold_listed_denoms ukavaEnv _ _ fun _ _ h => (by cases h)⟩

end KavaHard.Keeper
