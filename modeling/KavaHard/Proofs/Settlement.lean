import KavaHard.Proofs.Idempotence
import KavaHard.MapModel.Refinement

/-! Settled records: interest comes from the accrual alone.

A sync that returns leaves its record settled, each held denom's first index entry at
the global factor (`syncSupplyInterest_settled`). A Deposit leaves the record it writes
settled as well: its own sync settled the coins already held, and each denom the record
did not hold gets an entry at the global factor in front of the index
(`depositedPosition_settled`), whether or not the balance is sorted. A Withdraw only
takes coins off a settled record and keeps its index (`withdrawCommit_settled`). A sync
of a settled record, at factors in range, returns and writes nothing, unless the record
holds a denom with no factor or an amount of `2^255` or more, on which it panics
(`SyncsIdle`, `syncSupplyInterest_of_settled`). So a sync right after a Deposit or a
Withdraw that returned changes nothing (`sync_after_deposit_or_withdraw`): coins just
deposited earn nothing before the global factor moves, and no rise of a factor is
credited twice.

Over a run, the records stay settled until an accrual raises a factor (`AtRest`), given
one more fact that every state reached from genesis has: no held denom lacks a factor
while it has a money market, since a Deposit would create that factor at one under the
record's entry at zero. Then no sync, standalone or inside a Deposit or a Withdraw,
credits any interest, however the calls are repeated or interleaved
(`no_interest_without_accrual`): the rounding of line 154 mints nothing. -/
namespace KavaHard.Keeper
open KavaHard.Sdk KavaHard.Types Coins

variable {Addr : Type} [DecidableEq Addr]

/-! ### The factors a Deposit creates -/

section Init

variable (env : Env) (denom : String)

omit [DecidableEq Addr]

/-- Factors created at one stay in range. -/
theorem factorsInRange_init {s : State Addr} (hfr : FactorsInRange s.supplyInterestFactors) (coins : Coins) :
    FactorsInRange (initSupplyInterestFactors env coins s).supplyInterestFactors := by
  intro denom f hf
  rcases initSupplyInterestFactors_factor env coins s denom with h | ⟨-, h⟩
  · exact hfr denom f (h ▸ hf)
  · rw [h] at hf
    cases hf
    simp only [Dec.oneDec, precisionReuse]
    norm_num

/-- Deposit's first lines leave the factor of a denom without a money market. -/
theorem initSupplyInterestFactors_of_market_none (hmm : getMoneyMarket env denom = none) :
    ∀ (coins : Coins) (s : State Addr),
      (initSupplyInterestFactors env coins s).supplyInterestFactors denom = s.supplyInterestFactors denom
  | [], _ => rfl
  | coin :: rest, s => by
    rw [initSupplyInterestFactors, initSupplyInterestFactors_of_market_none hmm rest]
    split
    · rename_i hnew
      have hd : denom ≠ coin.denom := by
        rintro rfl
        simp [hmm] at hnew
      exact Function.update_noteq hd _ _
    · rfl

/-- Deposit's first lines keep a stored factor stored. -/
theorem initSupplyInterestFactors_isSome_of_isSome {s : State Addr} (h : (s.supplyInterestFactors denom).isSome)
    (coins : Coins) : ((initSupplyInterestFactors env coins s).supplyInterestFactors denom).isSome := by
  rcases initSupplyInterestFactors_factor env coins s denom with h' | ⟨h', -⟩
  · rwa [h']
  · rw [h'] at h
    cases h

/-- After Deposit's first lines, every coin's denom that has a money market has a factor. -/
theorem initSupplyInterestFactors_isSome :
    ∀ (coins : Coins) (s : State Addr), ∀ c ∈ coins, (getMoneyMarket env c.denom).isSome →
      ((initSupplyInterestFactors env coins s).supplyInterestFactors c.denom).isSome
  | [], _, _, hc, _ => by cases hc
  | coin :: rest, s, c, hc, hmm => by
    rw [initSupplyInterestFactors]
    rcases List.mem_cons.mp hc with rfl | hc
    · refine initSupplyInterestFactors_isSome_of_isSome env _ ?_ rest
      split
      · simp
      · rename_i hnew
        simp only [hmm, Bool.and_true, Option.isNone_iff_eq_none] at hnew
        exact Option.isSome_iff_ne_none.mpr hnew
    · exact initSupplyInterestFactors_isSome rest _ c hc hmm

end Init

/-! ### What each call leaves -/

/-- The entries a Deposit puts in front of the index, on any balance: one at the global
factor for each coin whose denom `AmountOf` does not find. -/
theorem findFactor_missingFactors_amountOf {factors : String → Option Dec} {amount : Coins} (denom : String) :
    ∀ {coins : Coins} {newFactors : List InterestFactor}, (∀ c ∈ coins, 0 < c.amount) →
      missingFactors factors amount coins = .ok newFactors →
      findFactor denom newFactors =
        if denom ∈ coins.map Coin.denom ∧ amount.amountOf denom = 0 then some ((factors denom).getD Dec.zeroDec)
        else none
  | [], _, _, h => by
    cases h
    simp
  | coin :: rest, newFactors, hpos, h => by
    rw [missingFactors, newCoins_single (hpos coin (List.mem_cons_self _ _)), ok_bind] at h
    obtain ⟨tail, htail, h⟩ := bind_eq_ok.mp h
    cases h
    have ih := findFactor_missingFactors_amountOf denom (fun c hc => hpos c (List.mem_cons_of_mem _ hc)) htail
    rw [denomsSubsetOf_single_amountOf]
    by_cases hd : coin.denom = denom
    · subst hd
      by_cases h0 : amount.amountOf coin.denom = 0 <;> simp [h0, findFactor_cons, ih]
    · by_cases h0 : amount.amountOf coin.denom = 0 <;> simp [h0, findFactor_cons, ih, hd, Ne.symm hd]

/-- A Deposit's record holds denoms of the record it adds to, or of the coins. -/
theorem depositedPosition_denoms {factors : String → Option Dec} {current : Option Deposit} {coins : Coins}
    {deposit : Deposit} (h : depositedPosition factors current coins = .ok deposit) :
    ∀ c ∈ deposit.amount, (∃ x ∈ coins, x.denom = c.denom) ∨
      ∃ p, current = some p ∧ ∃ x ∈ p.amount, x.denom = c.denom := by
  cases current with
  | none =>
    cases h
    exact fun c hc => .inl ⟨c, hc, rfl⟩
  | some p =>
    obtain ⟨newFactors, -, h⟩ := bind_eq_ok.mp h
    obtain ⟨amount, hadd, h⟩ := bind_eq_ok.mp h
    cases h
    exact fun c hc => ((mem_safeAdd _ _ _ hadd c hc).denom_from).symm.imp_right fun hx => ⟨p, rfl, hx⟩

/-- A Deposit's record is settled when the record it adds to was: the coins already held
keep their entries, and each newly held denom has one at the global factor in front. -/
theorem depositedPosition_settled {factors : String → Option Dec} {current : Option Deposit} {coins : Coins}
    {deposit : Deposit} (hcur : ∀ p, current = some p → Settled factors p) (hpos : ∀ c ∈ coins, 0 < c.amount)
    (h : depositedPosition factors current coins = .ok deposit) : Settled factors deposit := by
  cases current with
  | none =>
    cases h
    exact fun c hc => ⟨(hpos c hc).ne', by rw [findFactor_map, if_pos (List.mem_map_of_mem _ hc)]⟩
  | some p =>
    obtain ⟨newFactors, hnew, h⟩ := bind_eq_ok.mp h
    obtain ⟨amount, hadd, h⟩ := bind_eq_ok.mp h
    cases h
    intro c hc
    have hfrom := mem_safeAdd _ _ _ hadd c hc
    refine ⟨hfrom.1, ?_⟩
    show findFactor c.denom (newFactors ++ p.index) = _
    rw [findFactor_append, findFactor_missingFactors_amountOf c.denom hpos hnew]
    by_cases hheld : ∃ x ∈ p.amount, x.denom = c.denom
    · obtain ⟨x, hx, hxd⟩ := hheld
      rw [← hxd, ((hcur p rfl) x hx).2]
      split_ifs <;> rfl
    · obtain ⟨y, hy, hyd⟩ := hfrom.denom_from.resolve_left hheld
      have h0 : p.amount.amountOf c.denom = 0 := by
        by_contra h0
        exact hheld (amountOfSearch_ne_zero _ _ h0)
      rw [if_pos ⟨hyd ▸ List.mem_map_of_mem _ hy, h0⟩]
      rfl

/-- After the caller's capture and sync, its record is settled. -/
theorem captureAndSync_settled {env : Env} {addr : Addr} {s s₁ : State Addr} {standing : Dec × Bool}
    (h : captureAndSync env addr s = .ok standing s₁) :
    ∀ p, s₁.deposits addr = some p → Settled s₁.supplyInterestFactors p := by
  obtain ⟨-, s₂, -, hsup⟩ := captureAndSync_ok h
  intro p hp
  rw [(syncSupplyInterest_touches hsup).supplyInterestFactors]
  exact syncSupplyInterest_settled hsup hp

/-- A deposit commit onto a settled record leaves it settled. -/
theorem depositCommit_settled {env : Env} {depositor : Addr} {coins : Coins} {prevLtv : Dec}
    {shouldRemoveIndex : Bool} {s s' : State Addr}
    (hset : ∀ p, s.deposits depositor = some p → Settled s.supplyInterestFactors p)
    (h : depositCommit env depositor coins prevLtv shouldRemoveIndex s = .ok () s') :
    ∀ p, s'.deposits depositor = some p → Settled s'.supplyInterestFactors p := by
  obtain ⟨-, bal, pool, deposit, hm, hd, h⟩ := depositCommit_ok h
  obtain ⟨_, rfl⟩ := ignoreError_updateItemInLtvIndex_frame h
  intro p hp
  simp only [setDeposit, Function.update_same, Option.some.injEq] at hp
  subst hp
  exact depositedPosition_settled hset ((isValid_iff _).mp (moveCoins_ok hm).1).1 hd

/-- A Withdraw that keeps the record only takes coins off it and keeps its index. -/
theorem withdrawCommit_record {env : Env} {depositor : Addr} {coins : Coins} {prevLtv : Dec}
    {shouldRemoveIndex : Bool} {s s' : State Addr}
    (h : withdrawCommit env depositor coins prevLtv shouldRemoveIndex s = .ok () s') :
    ∀ p, s'.deposits depositor = some p → ∃ q, s.deposits depositor = some q ∧ p.index = q.index ∧
      ∀ c ∈ p.amount, c.amount ≠ 0 ∧ ∃ x ∈ q.amount, x.denom = c.denom := by
  obtain ⟨deposit, -, pool, bal, hdep, -, -, hm, hcommit⟩ := withdrawCommit_ok h
  rcases hcommit with ⟨-, rfl⟩ | ⟨-, amount, hamount, hset'⟩
  · intro p hp
    simp [deleteDeposit] at hp
  obtain ⟨_, rfl⟩ := ignoreError_updateItemInLtvIndex_frame hset'
  intro p hp
  simp only [setDeposit, Function.update_same, Option.some.injEq] at hp
  subst hp
  obtain ⟨_, hsub, rfl⟩ := Coins.sub_ok hamount
  exact ⟨deposit, hdep, rfl, mem_safeSub ((isValid_iff _).mp (moveCoins_ok hm).1).1 hsub⟩

/-- A withdraw commit from a settled record leaves it settled. -/
theorem withdrawCommit_settled {env : Env} {depositor : Addr} {coins : Coins} {prevLtv : Dec}
    {shouldRemoveIndex : Bool} {s s' : State Addr}
    (hset : ∀ p, s.deposits depositor = some p → Settled s.supplyInterestFactors p)
    (h : withdrawCommit env depositor coins prevLtv shouldRemoveIndex s = .ok () s') :
    ∀ p, s'.deposits depositor = some p → Settled s'.supplyInterestFactors p := by
  intro p hp
  obtain ⟨q, hq, hidx, hmem⟩ := withdrawCommit_record h p hp
  rw [(withdrawCommit_frame h).supplyInterestFactors]
  intro c hc
  obtain ⟨hz, x, hx, hxd⟩ := hmem c hc
  rw [hidx, ← hxd]
  exact ⟨hz, ((hset q hq) x hx).2⟩

/-- A sync of `addr` from `s` returns and writes nothing, or panics, on a held denom with
no factor or an amount of `2^255` or more. -/
def SyncsIdle (addr : Addr) (s : State Addr) : Prop :=
  syncSupplyInterest addr s = .ok () s ∨
    (∃ msg, syncSupplyInterest addr s = .error (.panic msg) s) ∧ ∃ p, s.deposits addr = some p ∧
      ∃ coin ∈ p.amount, s.supplyInterestFactors coin.denom = none ∨ 2 ^ maxBitLen ≤ coin.amount.natAbs

/-- A sync of a settled record, at factors in range, credits nothing and writes nothing. -/
theorem syncSupplyInterest_of_settled {addr : Addr} {s : State Addr}
    (hfr : FactorsInRange s.supplyInterestFactors)
    (hset : ∀ p, s.deposits addr = some p → Settled s.supplyInterestFactors p) : SyncsIdle addr s := by
  cases hdep : s.deposits addr with
  | none => exact .inl (by simp [syncSupplyInterest, hdep])
  | some p =>
    cases hsp : syncPosition s.supplyInterestFactors p with
    | ok r =>
      obtain ⟨synced, interest⟩ := r
      obtain ⟨rfl, rfl⟩ := syncPosition_of_settled hfr (hset p hdep) hsp
      refine .inl ?_
      simp only [syncSupplyInterest, hdep, hsp, EStateM.Result.ok.injEq, true_and]
      simp [setDeposit, ← hdep]
    | error msg =>
      refine .inr ⟨⟨msg, by simp [syncSupplyInterest, hdep, hsp]⟩, p, hdep, ?_⟩
      by_contra hbad
      push_neg at hbad
      have hok := syncPosition_of_settled_ok hfr (hset p hdep) fun c hc =>
        ⟨Option.ne_none_iff_isSome.mp (hbad c hc).1, (hbad c hc).2⟩
      rw [hsp] at hok
      cases hok

/-- A sync of a settled record, at factors in range, leaves the state as it was. -/
theorem syncSupplyInterest_after_settled {addr : Addr} {s : State Addr}
    (hfr : FactorsInRange s.supplyInterestFactors)
    (hset : ∀ p, s.deposits addr = some p → Settled s.supplyInterestFactors p) :
    (syncSupplyInterest addr).after s = s := by
  rcases syncSupplyInterest_of_settled hfr hset with h | ⟨⟨msg, h⟩, -⟩
  · exact after_of_ok h
  · simp [Method.after, h]

/-- The caller's capture and sync of a settled record, at factors in range, write the
borrow side only. -/
theorem captureAndSync_of_settled {env : Env} {addr : Addr} {s s' : State Addr} {standing : Dec × Bool}
    (hfr : FactorsInRange s.supplyInterestFactors)
    (hset : ∀ p, s.deposits addr = some p → Settled s.supplyInterestFactors p)
    (h : captureAndSync env addr s = .ok standing s') :
    s'.supplyInterestFactors = s.supplyInterestFactors ∧ s'.deposits = s.deposits ∧
      s'.creditedSupplyInterest = s.creditedSupplyInterest := by
  obtain ⟨-, s₂, hb, hsup⟩ := captureAndSync_ok h
  obtain ⟨_, rfl, -⟩ := syncBorrowInterest_ok hb
  obtain rfl := (after_of_ok hsup).symm.trans (syncSupplyInterest_after_settled hfr hset)
  exact ⟨rfl, rfl, rfl⟩

/-- A Deposit that returned keeps the factors in range: it creates factors at one only. -/
theorem factorsInRange_deposit {env : Env} {depositor : Addr} {coins : Coins} {s s₁ s' : State Addr}
    {standing : Dec × Bool} (hfr : FactorsInRange s.supplyInterestFactors)
    (hc : captureAndSync env depositor (initSupplyInterestFactors env coins s) = .ok standing s₁)
    (hd : depositCommit env depositor coins standing.1 standing.2 s₁ = .ok () s') :
    FactorsInRange s'.supplyInterestFactors := by
  rw [(depositCommit_frame hd).supplyInterestFactors, (captureAndSync_touches hc).supplyInterestFactors]
  exact factorsInRange_init env hfr coins

/-! ### Runs without an accrual -/

omit [DecidableEq Addr] in
/-- A call that rewrites one account's record keeps a property of every record when the
record it writes has it. -/
theorem records_update {P : Deposit → Prop} {addr : Addr} {s s' : State Addr}
    (h : ∀ a p, s.deposits a = some p → P p) (hown : ∀ p, s'.deposits addr = some p → P p)
    (hother : ∀ other, other ≠ addr → s'.deposits other = s.deposits other) :
    ∀ a p, s'.deposits a = some p → P p := by
  intro a p hp
  by_cases ha : a = addr
  · subst ha
    exact hown p hp
  · rw [hother a ha] at hp
    exact h a p hp

/-- The ledger between two accruals: factors in range, every record settled, and no held
denom without a factor that has a money market. -/
structure AtRest (env : Env) (s : State Addr) : Prop where
  factors : FactorsInRange s.supplyInterestFactors
  settled : ∀ addr p, s.deposits addr = some p → Settled s.supplyInterestFactors p
  marketed : ∀ addr p, s.deposits addr = some p → ∀ c ∈ p.amount,
    s.supplyInterestFactors c.denom = none → getMoneyMarket env c.denom = none

omit [DecidableEq Addr] in
theorem atRest_genesis (env : Env) (balances : Addr → Coins) : AtRest env (genesis balances) :=
  ⟨fun _ _ h => (by cases h), fun _ _ h => (by cases h), fun _ _ h => (by cases h)⟩

namespace AtRest

variable {env : Env} {s s' : State Addr}

omit [DecidableEq Addr] in
theorem congr (hs : AtRest env s) (hf : s'.supplyInterestFactors = s.supplyInterestFactors)
    (hd : s'.deposits = s.deposits) : AtRest env s' :=
  ⟨by rw [hf]; exact hs.factors, by rw [hf, hd]; exact hs.settled, by rw [hf, hd]; exact hs.marketed⟩

omit [DecidableEq Addr] in
/-- Deposit's first lines keep the ledger at rest: a factor they create belongs to a
denom with a money market, which no record holds without a factor. -/
theorem init (hs : AtRest env s) (coins : Coins) : AtRest env (initSupplyInterestFactors env coins s) := by
  obtain ⟨f, hf⟩ := initSupplyInterestFactors_frame env coins s
  have hdep : (initSupplyInterestFactors env coins s).deposits = s.deposits := by rw [hf]
  have hheld : ∀ addr p, s.deposits addr = some p → ∀ c ∈ p.amount,
      (initSupplyInterestFactors env coins s).supplyInterestFactors c.denom = s.supplyInterestFactors c.denom := by
    intro addr p hp c hc
    cases hsc : s.supplyInterestFactors c.denom with
    | none => rw [initSupplyInterestFactors_of_market_none env c.denom (hs.marketed addr p hp c hc hsc), hsc]
    | some v =>
      rcases initSupplyInterestFactors_factor env coins s c.denom with h | ⟨h, -⟩
      · rw [h, hsc]
      · rw [hsc] at h
        cases h
  refine ⟨factorsInRange_init env hs.factors coins, fun addr p hp c hc => ?_, fun addr p hp c hc hnone => ?_⟩
  · rw [hdep] at hp
    rw [hheld addr p hp c hc]
    exact hs.settled addr p hp c hc
  · rw [hdep] at hp
    rw [hheld addr p hp c hc] at hnone
    exact hs.marketed addr p hp c hc hnone

/-- At rest, the caller's capture and sync write the borrow side only. -/
theorem captureAndSync {addr : Addr} {standing : Dec × Bool} (hs : AtRest env s)
    (h : KavaHard.Keeper.captureAndSync env addr s = .ok standing s') :
    s'.supplyInterestFactors = s.supplyInterestFactors ∧ s'.deposits = s.deposits ∧
      s'.creditedSupplyInterest = s.creditedSupplyInterest :=
  captureAndSync_of_settled hs.factors (hs.settled addr) h

/-- A deposit commit keeps the ledger at rest when none of its coins lacks a factor while
it has a money market. -/
theorem depositCommit {depositor : Addr} {coins : Coins} {prevLtv : Dec} {shouldRemoveIndex : Bool}
    (hs : AtRest env s)
    (hmm : ∀ c ∈ coins, s.supplyInterestFactors c.denom = none → getMoneyMarket env c.denom = none)
    (h : KavaHard.Keeper.depositCommit env depositor coins prevLtv shouldRemoveIndex s = .ok () s') :
    AtRest env s' ∧ s'.creditedSupplyInterest = s.creditedSupplyInterest := by
  have hset := depositCommit_settled (hs.settled depositor) h
  have hfr := depositCommit_frame h
  obtain ⟨-, bal, pool, deposit, -, hd, h'⟩ := depositCommit_ok h
  obtain ⟨_, rfl⟩ := ignoreError_updateItemInLtvIndex_frame h'
  refine ⟨⟨hs.factors, records_update hs.settled hset hfr.deposits,
    records_update hs.marketed (fun p hp c hc hnone => ?_) hfr.deposits⟩, rfl⟩
  simp only [setDeposit, Function.update_same, Option.some.injEq] at hp
  subst hp
  rcases depositedPosition_denoms hd c hc with ⟨x, hx, hxd⟩ | ⟨q, hq, x, hx, hxd⟩ <;> rw [← hxd] at hnone ⊢
  · exact hmm x hx hnone
  · exact hs.marketed depositor q hq x hx hnone

/-- A withdraw commit keeps the ledger at rest. -/
theorem withdrawCommit {depositor : Addr} {coins : Coins} {prevLtv : Dec} {shouldRemoveIndex : Bool}
    (hs : AtRest env s)
    (h : KavaHard.Keeper.withdrawCommit env depositor coins prevLtv shouldRemoveIndex s = .ok () s') :
    AtRest env s' ∧ s'.creditedSupplyInterest = s.creditedSupplyInterest := by
  have hfr := withdrawCommit_frame h
  have hf := hfr.supplyInterestFactors
  refine ⟨⟨hf ▸ hs.factors, records_update (hf ▸ hs.settled) (withdrawCommit_settled (hs.settled depositor) h)
    hfr.deposits, records_update (hf ▸ hs.marketed) (fun p hp c hc hnone => ?_) hfr.deposits⟩,
    hfr.creditedSupplyInterest⟩
  obtain ⟨q, hq, -, hmem⟩ := withdrawCommit_record h p hp
  obtain ⟨-, x, hx, hxd⟩ := hmem c hc
  rw [hf, ← hxd] at hnone
  rw [← hxd]
  exact hs.marketed depositor q hq x hx hnone

/-- Every call but a supply accrual keeps the ledger at rest and credits no interest. -/
theorem step {op : Op Addr} (hs : AtRest env s) (hop : ∀ denom factor, op ≠ .accrueSupplyInterest denom factor) :
    AtRest env (Keeper.step env s op) ∧ (Keeper.step env s op).creditedSupplyInterest = s.creditedSupplyInterest := by
  cases op with
  | deposit depositor coins =>
    have hinit := hs.init coins
    have hcred : (initSupplyInterestFactors env coins s).creditedSupplyInterest = s.creditedSupplyInterest := by
      obtain ⟨_, hf⟩ := initSupplyInterestFactors_frame env coins s
      rw [hf]
    show AtRest env ((deposit env depositor coins).after s) ∧
      ((deposit env depositor coins).after s).creditedSupplyInterest = s.creditedSupplyInterest
    rcases deposit_after env depositor coins s with h | h | ⟨_, _, s₁, hc, h | h⟩
    · rw [h]
      exact ⟨hs, rfl⟩
    · rw [h]
      exact ⟨hinit, hcred⟩
    · obtain ⟨hf₁, hd₁, hc₁⟩ := hinit.captureAndSync hc
      rw [h]
      exact ⟨hinit.congr hf₁ hd₁, hc₁.trans hcred⟩
    · obtain ⟨hf₁, hd₁, hc₁⟩ := hinit.captureAndSync hc
      have hmm : ∀ c ∈ coins, s₁.supplyInterestFactors c.denom = none → getMoneyMarket env c.denom = none := by
        intro c hc' hnone
        rw [hf₁] at hnone
        cases hm : getMoneyMarket env c.denom with
        | none => rfl
        | some _ =>
          have := initSupplyInterestFactors_isSome env coins s c hc' (by simp [hm])
          simp [hnone] at this
      obtain ⟨hr, hcr⟩ := (hinit.congr hf₁ hd₁).depositCommit hmm h
      exact ⟨hr, hcr.trans (hc₁.trans hcred)⟩
  | withdraw depositor coins =>
    show AtRest env ((withdraw env depositor coins).after s) ∧
      ((withdraw env depositor coins).after s).creditedSupplyInterest = s.creditedSupplyInterest
    rcases withdraw_after env depositor coins s with h | ⟨_, _, s₁, hc, h | h⟩
    · rw [h]
      exact ⟨hs, rfl⟩
    · obtain ⟨hf₁, hd₁, hc₁⟩ := hs.captureAndSync hc
      rw [h]
      exact ⟨hs.congr hf₁ hd₁, hc₁⟩
    · obtain ⟨hf₁, hd₁, hc₁⟩ := hs.captureAndSync hc
      obtain ⟨hr, hcr⟩ := (hs.congr hf₁ hd₁).withdrawCommit h
      exact ⟨hr, hcr.trans hc₁⟩
  | syncSupplyInterest addr =>
    show AtRest env ((syncSupplyInterest addr).after s) ∧
      ((syncSupplyInterest addr).after s).creditedSupplyInterest = s.creditedSupplyInterest
    rw [syncSupplyInterest_after_settled hs.factors (hs.settled addr)]
    exact ⟨hs, rfl⟩
  | accrueSupplyInterest denom factor => exact absurd rfl (hop denom factor)
  | accrueBorrowInterest => exact ⟨⟨hs.factors, hs.settled, hs.marketed⟩, rfl⟩

end AtRest

/-- Over every run without a supply accrual, from a ledger at rest (as at genesis), the
records stay settled and no sync, standalone or inside a Deposit or a Withdraw, credits
any interest: however calls are repeated or interleaved, the rounding mints nothing. -/
theorem no_interest_without_accrual (env : Env) (s : State Addr) (ops : List (Op Addr))
    (hops : ∀ op ∈ ops, ∀ denom factor, op ≠ .accrueSupplyInterest denom factor) (hs : AtRest env s) :
    AtRest env (run env s ops) ∧ (run env s ops).creditedSupplyInterest = s.creditedSupplyInterest :=
  run_invariant env (fun op => ∀ denom factor, op ≠ .accrueSupplyInterest denom factor)
    (fun t => AtRest env t ∧ t.creditedSupplyInterest = s.creditedSupplyInterest)
    (fun _ _ hop ht => (ht.1.step hop).imp_right fun h => h.trans ht.2) ops s hops ⟨hs, rfl⟩

/-- From genesis under the ukava market: a Deposit, a sync, a second Deposit and a
Withdraw, each returning; the record is synced three times and earns nothing. -/
theorem no_interest_without_accrual_ukava :
    (run ukavaEnv (genesis fun _ : Nat => [⟨"ukava", 100⟩]) [.deposit 0 [⟨"ukava", 10⟩], .syncSupplyInterest 0,
        .deposit 0 [⟨"ukava", 5⟩], .withdraw 0 [⟨"ukava", 4⟩]]).deposits 0 =
        some ⟨[⟨"ukava", 11⟩], [⟨"ukava", Dec.oneDec⟩]⟩ ∧
      AtRest ukavaEnv (run ukavaEnv (genesis fun _ : Nat => [⟨"ukava", 100⟩]) [.deposit 0 [⟨"ukava", 10⟩],
        .syncSupplyInterest 0, .deposit 0 [⟨"ukava", 5⟩], .withdraw 0 [⟨"ukava", 4⟩]]) ∧
      (run ukavaEnv (genesis fun _ : Nat => [⟨"ukava", 100⟩]) [.deposit 0 [⟨"ukava", 10⟩], .syncSupplyInterest 0,
          .deposit 0 [⟨"ukava", 5⟩], .withdraw 0 [⟨"ukava", 4⟩]]).creditedSupplyInterest =
        (genesis fun _ : Nat => [⟨"ukava", 100⟩]).creditedSupplyInterest :=
  ⟨by decide, no_interest_without_accrual _ _ _ (by simp) (atRest_genesis _ _)⟩

/-! ### A sync after a call -/

/-- From factors in range, a sync right after a Deposit or a Withdraw that returned
changes nothing: it credits no interest to the coins just deposited, and none again to
the coins the call's own sync brought up to the global factors. -/
theorem sync_after_deposit_or_withdraw (env : Env) (s : State Addr) (depositor : Addr) (coins : Coins)
    (hfr : FactorsInRange s.supplyInterestFactors) :
    (∀ s', deposit env depositor coins s = .ok () s' → SyncsIdle depositor s') ∧
      ∀ s', withdraw env depositor coins s = .ok () s' → SyncsIdle depositor s' := by
  constructor
  · intro s' h
    obtain ⟨_, _, s₁, hc, hd⟩ := deposit_ok h
    exact syncSupplyInterest_of_settled (factorsInRange_deposit hfr hc hd)
      (depositCommit_settled (captureAndSync_settled hc) hd)
  · intro s' h
    obtain ⟨_, _, s₁, hc, hw⟩ := withdraw_ok h
    refine syncSupplyInterest_of_settled ?_ (withdrawCommit_settled (captureAndSync_settled hc) hw)
    rw [(withdrawCommit_frame hw).supplyInterestFactors, (captureAndSync_touches hc).supplyInterestFactors]
    exact hfr

/-- A Deposit of ten ukava from genesis, and a Withdraw of four of them. -/
theorem sync_after_deposit_or_withdraw_ukava :
    (∃ s', deposit ukavaEnv 0 [⟨"ukava", 10⟩] (genesis fun _ : Nat => [⟨"ukava", 100⟩]) = .ok () s' ∧
        SyncsIdle 0 s') ∧
      ∃ s', withdraw ukavaEnv 0 [⟨"ukava", 4⟩] (run ukavaEnv (genesis fun _ : Nat => [⟨"ukava", 100⟩])
          [.deposit 0 [⟨"ukava", 10⟩]]) = .ok () s' ∧ SyncsIdle 0 s' :=
  have hgen : FactorsInRange (genesis fun _ : Nat => [⟨"ukava", 100⟩]).supplyInterestFactors :=
    fun _ _ h => by cases h
  have hdep : FactorsInRange (run ukavaEnv (genesis fun _ : Nat => [⟨"ukava", 100⟩])
      [.deposit 0 [⟨"ukava", 10⟩]]).supplyInterestFactors :=
    ((atRest_genesis ukavaEnv _).step fun _ _ h => by cases h).1.factors
  ⟨⟨_, (by rfl), (sync_after_deposit_or_withdraw ukavaEnv _ 0 [⟨"ukava", 10⟩] hgen).1 _ (by rfl)⟩,
    ⟨_, (by rfl), (sync_after_deposit_or_withdraw ukavaEnv _ 0 [⟨"ukava", 4⟩] hdep).2 _ (by rfl)⟩⟩

end KavaHard.Keeper
