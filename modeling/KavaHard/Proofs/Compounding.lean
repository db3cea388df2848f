import KavaHard.Proofs.Rounding
import KavaHard.Proofs.Frame
import KavaHard.Proofs.Records

/-! Interest compounded over many syncs.

Each sync credits at most `(c + 1)/(2·10^18)` of a unit above the exact `s·c/u`
(`accruedInterest_le`), and the rounding can push a product just below an integer up
to it, so the exact compounded value `s·fₙ/f₀` is not a bound
(`sync_exceeds_compounded`). The excess of one sync is less than `c/10^36` units, and
later syncs scale it by the later factors as they scale the amount, so after `n` syncs
of the account the amount is at most `s·fₙ/f₀ + n·fₙ/10^36`, `fₙ` its last snapshot
(`compounded_interest_bound`). The syncs are the account's own calls and the ones its
Deposits and Withdraws start with, so long as these move none of the denom; between them
any other account may call, and the accrual may raise any factor. A Withdraw of other
denoms may delete a record that holds none of the denom.

`Compounded` is that bound on a state, with the snapshot between one and the global
factor, and `Bounded` adds the case of a record that holds none of the denom. Each piece
of a call keeps it, a sync of the account with one more sync counted (`bounded_sync`),
so each call does (`bounded_step`). -/
namespace KavaHard.Keeper
open KavaHard.Sdk KavaHard.Types Coins Method

variable {Addr : Type} [DecidableEq Addr]

/-- A call on `addr` syncs it at most once: a sync, or a Deposit or Withdraw, which
starts with one. -/
def syncCount (addr : Addr) (op : Op Addr) : Nat := if op.account = some addr then 1 else 0

/-- A Deposit or Withdraw by `addr` moves none of `denom`. -/
def Op.LeavesDenom (addr : Addr) (denom : String) : Op Addr → Prop
  | .deposit depositor coins | .withdraw depositor coins => depositor = addr → ∀ c ∈ coins, c.denom ≠ denom
  | _ => True

/-- `addr`'s record holds at most `s₀·f/f₀ + k·f/10^36` of `denom` (on the raw integers
of the `Dec`s), where `f` is its snapshot of `denom`, at least one and at most the
global factor. -/
def Compounded (addr : Addr) (denom : String) (s₀ f₀ : Int) (k : Nat) (s : State Addr) : Prop :=
  ∃ deposit f g, s.deposits addr = some deposit ∧ deposit.amount.isValid = true ∧
    findFactor denom deposit.index = some f ∧ (precisionReuse : Int) ≤ f.i ∧
    s.supplyInterestFactors denom = some g ∧ f.i ≤ g.i ∧
    deposit.amount.sumOf denom * f₀ * precisionReuse ^ 2 ≤ s₀ * f.i * precisionReuse ^ 2 + k * f.i * f₀

omit [DecidableEq Addr] in
theorem Compounded.mono {addr : Addr} {denom : String} {s₀ f₀ : Int} {k k' : Nat} {s : State Addr}
    (hf₀ : 0 < f₀) (hs : Compounded addr denom s₀ f₀ k s) (hk : k ≤ k') : Compounded addr denom s₀ f₀ k' s := by
  obtain ⟨deposit, f, g, hdep, hv, hf, hP, hg, hfg, hA⟩ := hs
  have : (k : Int) * f.i * f₀ ≤ k' * f.i * f₀ :=
    mul_le_mul_of_nonneg_right (mul_le_mul_of_nonneg_right (by exact_mod_cast hk)
      (le_trans (by positivity) hP)) hf₀.le
  exact ⟨deposit, f, g, hdep, hv, hf, hP, hg, hfg, by linarith⟩

/-- The bound after one more sync, from the bound before it and the rounding of that
sync. -/
theorem compounded_arith {A i s₀ F₀ f g P : Int} {k : Nat} (hP : 0 < P) (hF₀ : 0 < F₀) (hf : P ≤ f)
    (hfg : f ≤ g) (hA : A * F₀ * P ^ 2 ≤ s₀ * f * P ^ 2 + k * f * F₀)
    (hi : 2 * (A + i) * P ^ 2 * f ≤ 2 * A * P ^ 2 * g + g * f + P * f) :
    (A + i) * F₀ * P ^ 2 ≤ s₀ * g * P ^ 2 + (k + 1 : Nat) * g * F₀ := by
  have hf0 : 0 < f := lt_of_lt_of_le hP hf
  have e1 : F₀ * (2 * (A + i) * P ^ 2 * f) ≤ F₀ * (2 * A * P ^ 2 * g + g * f + P * f) :=
    mul_le_mul_of_nonneg_left hi hF₀.le
  have e2 : 2 * g * (A * F₀ * P ^ 2) ≤ 2 * g * (s₀ * f * P ^ 2 + k * f * F₀) :=
    mul_le_mul_of_nonneg_left hA (by linarith)
  have e3 : F₀ * f * P ≤ F₀ * f * g := mul_le_mul_of_nonneg_left (hf.trans hfg) (mul_pos hF₀ hf0).le
  have key : 2 * f * ((A + i) * F₀ * P ^ 2) ≤ 2 * f * (s₀ * g * P ^ 2 + (k + 1 : Nat) * g * F₀) := by
    push_cast
    linarith
  exact le_of_mul_le_mul_left key (by linarith)

/-- A sync leaves a denom the record does not hold at zero. -/
theorem syncPosition_not_held {factors : String → Option Dec} {position synced : Position} {interest : Coins}
    {denom : String} (hs : Sorted position.amount) (h : syncPosition factors position = .ok (synced, interest))
    (hheld : denom ∉ position.amount.map (·.denom)) : synced.amount.sumOf denom = 0 := by
  obtain ⟨-, -, -, hsum, -⟩ := syncPosition_ok_spec hs h
  have hnot : ∀ c ∈ position.amount, c.denom ≠ denom := fun c hc hcd => hheld (List.mem_map.mpr ⟨c, hc, hcd⟩)
  rw [hsum, sumOf_eq_zero hnot, sumOf_map_of_not_mem _ hheld, add_zero]

/-- A sync of `addr` that returns keeps the bound, with one more sync counted. -/
theorem compounded_sync {addr : Addr} {denom : String} {s₀ f₀ : Int} {k : Nat} {s s' : State Addr}
    (hf₀ : 0 < f₀) (hs₀ : 0 ≤ s₀) (hs : Compounded addr denom s₀ f₀ k s)
    (h : syncSupplyInterest addr s = .ok () s') : Compounded addr denom s₀ f₀ (k + 1) s' := by
  obtain ⟨deposit, f, g, hdep, hv, hf, hP, hg, hfg, hA⟩ := hs
  rcases syncSupplyInterest_ok h with ⟨hnone, -⟩ | ⟨deposit', synced, interest, hdep', hsync, rfl⟩
  · rw [hdep] at hnone
    cases hnone
  rw [hdep] at hdep'
  cases hdep'
  obtain ⟨hpos, hsorted⟩ := (isValid_iff _).mp hv
  obtain ⟨hint, -, -, hsum, hfind⟩ := syncPosition_ok_spec hsorted hsync
  have hP0 : (0 : Int) < precisionReuse := by norm_num [precisionReuse]
  have hstored : (setDeposit addr synced s).deposits addr = some synced := by simp [setDeposit]
  by_cases hheld : denom ∈ deposit.amount.map (·.denom)
  · obtain ⟨c, hc, rfl⟩ := List.mem_map.mp hheld
    have hci := (hint c hc).1
    simp only [coinInterest, hf, hg, Option.getD_some] at hci
    have hi := accruedInterest_le (hpos c hc).le hP hfg hci (hint c hc).2
    have hA' : sumOf synced.amount c.denom = c.amount + creditOf s.supplyInterestFactors deposit.index c := by
      rw [hsum, ← amount_eq_sumOf hsorted hc, sumOf_map_of_mem hsorted _ hc]
    refine ⟨synced, g, g, hstored, syncPosition_valid hv hsync, by simp [hfind, hheld, hg], hP.trans hfg, hg,
      le_rfl, ?_⟩
    rw [hA']
    rw [← amount_eq_sumOf hsorted hc] at hA
    exact compounded_arith hP0 hf₀ hP hfg hA hi
  · have h0 := syncPosition_not_held hsorted hsync hheld
    refine ⟨synced, f, g, hstored, syncPosition_valid hv hsync, by simp [hfind, hheld, hf], hP, hg, hfg, ?_⟩
    rw [h0, zero_mul, zero_mul]
    have : (0 : Int) ≤ f.i := hP0.le.trans hP
    positivity

/-! ### Records holding none of the denom -/

/-- `addr`'s record, if any, is valid and holds none of `denom`. -/
def HoldsNone (addr : Addr) (denom : String) (s : State Addr) : Prop :=
  ∀ deposit, s.deposits addr = some deposit → deposit.amount.isValid = true ∧ deposit.amount.sumOf denom = 0

/-- The bound, or none of `denom` left to bound. -/
def Bounded (addr : Addr) (denom : String) (s₀ f₀ : Int) (k : Nat) (s : State Addr) : Prop :=
  Compounded addr denom s₀ f₀ k s ∨ HoldsNone addr denom s

section Bounded

variable {addr : Addr} {denom : String} {s₀ f₀ : Int} {k : Nat} {s s' : State Addr}

omit [DecidableEq Addr] in
theorem Bounded.mono {k' : Nat} (hf₀ : 0 < f₀) (hs : Bounded addr denom s₀ f₀ k s) (hk : k ≤ k') :
    Bounded addr denom s₀ f₀ k' s :=
  hs.imp_left fun h => h.mono hf₀ hk

omit [DecidableEq Addr] in
theorem Bounded.valid (hs : Bounded addr denom s₀ f₀ k s) :
    ∀ deposit, s.deposits addr = some deposit → deposit.amount.isValid = true := by
  rcases hs with ⟨d, -, -, hd, hv, -⟩ | hs
  · intro deposit h
    rw [hd] at h
    cases h
    exact hv
  · exact fun deposit h => (hs deposit h).1

omit [DecidableEq Addr] in
/-- A step that keeps `addr`'s record and every factor keeps the bound. -/
theorem Bounded.of_frame (hs : Bounded addr denom s₀ f₀ k s) (hdep : s'.deposits addr = s.deposits addr)
    (hkept : FactorsKept s.supplyInterestFactors s') : Bounded addr denom s₀ f₀ k s' := by
  rcases hs with ⟨deposit, f, g, hd, hv, hf, hP, hg, hfg, hA⟩ | hs
  · obtain ⟨g', hg', hle⟩ := hkept denom g hg
    exact .inl ⟨deposit, f, g', hdep.trans hd, hv, hf, hP, hg', hfg.trans hle, hA⟩
  · exact .inr fun d hd => hs d (hdep ▸ hd)

/-- A sync of `addr` that returns keeps the bound, with one more sync counted. -/
theorem bounded_sync (hf₀ : 0 < f₀) (hs₀ : 0 ≤ s₀) (hs : Bounded addr denom s₀ f₀ k s)
    (h : syncSupplyInterest addr s = .ok () s') : Bounded addr denom s₀ f₀ (k + 1) s' := by
  rcases hs with hs | hs
  · exact .inl (compounded_sync hf₀ hs₀ hs h)
  refine .inr fun d hd => ?_
  rcases syncSupplyInterest_ok h with ⟨-, rfl⟩ | ⟨deposit, synced, interest, hdep, hsync, rfl⟩
  · exact hs d hd
  simp only [setDeposit, Function.update_same, Option.some.injEq] at hd
  subst hd
  obtain ⟨hv, h0⟩ := hs deposit hdep
  exact ⟨syncPosition_valid hv hsync,
    syncPosition_not_held ((isValid_iff _).mp hv).2 hsync fun hd => (sumOf_ne_zero_iff hv).mpr hd h0⟩

theorem bounded_captureAndSync {env : Env} {standing : Dec × Bool} (hf₀ : 0 < f₀) (hs₀ : 0 ≤ s₀)
    (hs : Bounded addr denom s₀ f₀ k s) (h : captureAndSync env addr s = .ok standing s') :
    Bounded addr denom s₀ f₀ (k + 1) s' := by
  obtain ⟨-, s₁, hb, hsup⟩ := captureAndSync_ok h
  obtain ⟨borrows, rfl, -⟩ := syncBorrowInterest_ok hb
  have h₁ : Bounded addr denom s₀ f₀ k {s with borrows} := hs.of_frame rfl fun _ g hg => ⟨g, hg, le_rfl⟩
  exact bounded_sync hf₀ hs₀ h₁ hsup

omit [DecidableEq Addr] in
/-- A Deposit of coins holding none of `denom` onto a valid record keeps its amount of
`denom` and its first entry for `denom`: the entries it puts in front are for the coins'
denoms. -/
theorem depositedPosition_other {factors : String → Option Dec} {p deposit : Deposit} {coins : Coins}
    (hp : p.amount.isValid = true) (hv : coins.isValid = true) (hcoins : ∀ c ∈ coins, c.denom ≠ denom)
    (h : depositedPosition factors (some p) coins = .ok deposit) :
    deposit.amount.isValid = true ∧ deposit.amount.sumOf denom = p.amount.sumOf denom ∧
      findFactor denom deposit.index = findFactor denom p.index := by
  obtain ⟨newFactors, hnew, h⟩ := bind_eq_ok.mp h
  obtain ⟨amount, hadd, h⟩ := bind_eq_ok.mp h
  cases h
  refine ⟨(safeAdd_valid hp hv hadd).1, by rw [sumOf_safeAdd denom _ _ _ hadd, sumOf_eq_zero hcoins, add_zero], ?_⟩
  rw [findFactor_append, findFactor_eq_none fun e he hd => ?_]
  · rfl
  · obtain ⟨c, hc, hcd⟩ := missingFactors_denoms hnew e he
    exact hcoins c hc (hcd.trans hd)

/-- The commit of a Deposit by `addr` of coins holding none of `denom` keeps the bound. -/
theorem bounded_depositCommit {env : Env} {coins : Coins} {prevLtv : Dec} {shouldRemoveIndex : Bool}
    (hcoins : ∀ c ∈ coins, c.denom ≠ denom) (hs : Bounded addr denom s₀ f₀ k s)
    (h : depositCommit env addr coins prevLtv shouldRemoveIndex s = .ok () s') : Bounded addr denom s₀ f₀ k s' := by
  obtain ⟨-, bal, pool, deposit, hm, hd, hu⟩ := depositCommit_ok h
  obtain ⟨_, rfl⟩ := ignoreError_updateItemInLtvIndex_frame hu
  have hv := (moveCoins_ok hm).1
  have hstored : ∀ q, (setDeposit addr deposit s).deposits addr = some q ↔ q = deposit := by
    simp [setDeposit, eq_comm]
  rcases hs with ⟨p, f, g, hp, hvp, hf, hP, hg, hfg, hA⟩ | hs
  · rw [hp] at hd
    obtain ⟨hvd, hsum, hfind⟩ := depositedPosition_other hvp hv hcoins hd
    exact .inl ⟨deposit, f, g, (hstored deposit).mpr rfl, hvd, hfind.trans hf, hP, hg, hfg, hsum ▸ hA⟩
  · refine .inr fun q hq => ?_
    obtain rfl := (hstored q).mp hq
    cases hcur : s.deposits addr with
    | none =>
      rw [hcur] at hd
      cases hd
      exact ⟨hv, sumOf_eq_zero hcoins⟩
    | some p =>
      rw [hcur] at hd
      obtain ⟨hvp, h0⟩ := hs p hcur
      obtain ⟨hvd, hsum, -⟩ := depositedPosition_other hvp hv hcoins hd
      exact ⟨hvd, hsum.trans h0⟩

/-- The commit of a Withdraw by `addr` of coins holding none of `denom` keeps the bound;
it deletes the record only when the record holds none of `denom`. -/
theorem bounded_withdrawCommit {env : Env} {coins : Coins} {prevLtv : Dec} {shouldRemoveIndex : Bool}
    (hcoins : ∀ c ∈ coins, c.denom ≠ denom) (hs : Bounded addr denom s₀ f₀ k s)
    (h : withdrawCommit env addr coins prevLtv shouldRemoveIndex s = .ok () s') : Bounded addr denom s₀ f₀ k s' := by
  have hv := hs.valid
  obtain ⟨deposit, proposed, hdep, hsub, -, -, hrec⟩ :=
    withdrawCommit_proposal (fun p hp x hx => (((isValid_iff _).mp (hv p hp)).1 x hx).ne') h
  obtain ⟨_, _, _, _, -, -, -, hm, -⟩ := withdrawCommit_ok h
  -- a kept record has its index, and its amount of `denom`
  have hkept : ∀ q, s'.deposits addr = some q →
      q.amount.isValid = true ∧ q.amount.sumOf denom = deposit.amount.sumOf denom ∧ q.index = deposit.index := by
    intro q hq
    rw [hrec] at hq
    split_ifs at hq
    cases hq
    exact ⟨safeSub_valid ((isValid_iff _).mp (hv deposit hdep)).2 ((isValid_iff _).mp (moveCoins_ok hm).1).2 hsub,
      by rw [sumOf_safeSub denom hsub, sumOf_eq_zero hcoins, sub_zero], rfl⟩
  rcases hs with ⟨p, f, g, hp, -, hf, hP, hg, hfg, hA⟩ | hs
  · rw [hp] at hdep
    cases hdep
    by_cases hnil : proposed = []
    · exact .inr fun q hq => by rw [hrec, if_pos hnil] at hq; cases hq
    · have hq : s'.deposits addr = some {deposit with amount := proposed} := by rw [hrec, if_neg hnil]
      obtain ⟨hvq, hsum, hidx⟩ := hkept _ hq
      exact .inl ⟨_, f, g, hq, hvq, hidx ▸ hf, hP, (withdrawCommit_frame h).supplyInterestFactors ▸ hg, hfg,
        hsum ▸ hA⟩
  · exact .inr fun q hq => (hkept q hq).imp_right fun h => h.1.trans (hs deposit hdep).2

/-! ### Over runs -/

/-- A call that moves none of `denom` for `addr` keeps the bound, counting the syncs of
`addr`. -/
theorem bounded_step (env : Env) {op : Op Addr} (hf₀ : 0 < f₀) (hs₀ : 0 ≤ s₀) (hop : op.LeavesDenom addr denom)
    (hs : Bounded addr denom s₀ f₀ k s) : Bounded addr denom s₀ f₀ (k + syncCount addr op) (step env s op) := by
  unfold syncCount
  split_ifs with hacc
  swap
  · exact hs.of_frame (step_deposits_other env s hacc)
      ((factorsKept env s.supplyInterestFactors).step trivial fun _ g hg => ⟨g, hg, le_rfl⟩)
  cases op with
  | deposit depositor coins =>
    obtain rfl : addr = depositor := (Option.some.inj hacc).symm
    show Bounded addr denom s₀ f₀ (k + 1) ((deposit env addr coins).after s)
    have hinit : Bounded addr denom s₀ f₀ k (initSupplyInterestFactors env coins s) := by
      obtain ⟨_, h⟩ := initSupplyInterestFactors_frame env coins s
      exact hs.of_frame (by rw [h]) ((factorsKept env s.supplyInterestFactors).init coins s fun _ g hg => ⟨g, hg, le_rfl⟩)
    rcases deposit_after env addr coins s with h | h | ⟨_, _, s₁, hc, h | h⟩
    · rw [h]
      exact hs.mono hf₀ k.le_succ
    · rw [h]
      exact hinit.mono hf₀ k.le_succ
    · rw [h]
      exact bounded_captureAndSync hf₀ hs₀ hinit hc
    · exact bounded_depositCommit (hop rfl) (bounded_captureAndSync hf₀ hs₀ hinit hc) h
  | withdraw depositor coins =>
    obtain rfl : addr = depositor := (Option.some.inj hacc).symm
    show Bounded addr denom s₀ f₀ (k + 1) ((withdraw env addr coins).after s)
    rcases withdraw_after env addr coins s with h | ⟨_, _, s₁, hc, h | h⟩
    · rw [h]
      exact hs.mono hf₀ k.le_succ
    · rw [h]
      exact bounded_captureAndSync hf₀ hs₀ hs hc
    · exact bounded_withdrawCommit (hop rfl) (bounded_captureAndSync hf₀ hs₀ hs hc) h
  | syncSupplyInterest other =>
    obtain rfl : addr = other := (Option.some.inj hacc).symm
    show Bounded addr denom s₀ f₀ (k + 1) ((syncSupplyInterest addr).after s)
    rcases syncSupplyInterest_after addr s with h | h
    · rw [h]
      exact hs.mono hf₀ k.le_succ
    · exact bounded_sync hf₀ hs₀ hs h
  | accrueSupplyInterest _ _ | accrueBorrowInterest _ _ => cases hacc

theorem bounded_run (env : Env) (hf₀ : 0 < f₀) (hs₀ : 0 ≤ s₀) :
    ∀ (ops : List (Op Addr)) (k : Nat) (s : State Addr), (∀ op ∈ ops, op.LeavesDenom addr denom) →
      Bounded addr denom s₀ f₀ k s → Bounded addr denom s₀ f₀ (k + (ops.map (syncCount addr)).sum) (run env s ops)
  | [], _, _, _, hs => hs
  | op :: ops, k, s, hops, hs => by
    have := bounded_run env hf₀ hs₀ ops _ _ (fun o ho => hops o (List.mem_cons_of_mem _ ho))
      (bounded_step env hf₀ hs₀ (hops op (List.mem_cons_self _ _)) hs)
    simpa only [run, List.map_cons, List.sum_cons, Nat.add_assoc] using this

end Bounded

/-- After any run in which `addr`'s Deposits and Withdraws move none of `denom`, the
amount of `denom` in `addr`'s record is at most its exact compounded value `s·f/f₀` plus
`n·f/10^36` units, where `f` is the record's snapshot of `denom` at the end and `n` the
number of syncs of `addr`, its Deposits and Withdraws counting one each; or the record,
if any, holds none of `denom`. -/
theorem compounded_interest_bound (env : Env) (addr : Addr) (denom : String) (s : State Addr)
    (ops : List (Op Addr)) (hops : ∀ op ∈ ops, op.LeavesDenom addr denom)
    (deposit : Deposit) (f₀ g : Dec) (hdep : s.deposits addr = some deposit)
    (hvalid : deposit.amount.isValid = true) (hf : findFactor denom deposit.index = some f₀)
    (hP : (precisionReuse : Int) ≤ f₀.i) (hg : s.supplyInterestFactors denom = some g) (hfg : f₀.i ≤ g.i) :
    (∃ deposit' f, (run env s ops).deposits addr = some deposit' ∧ findFactor denom deposit'.index = some f ∧
      deposit'.amount.sumOf denom * f₀.i * precisionReuse ^ 2 ≤
        deposit.amount.sumOf denom * f.i * precisionReuse ^ 2 + (ops.map (syncCount addr)).sum * f.i * f₀.i) ∨
      ∀ deposit', (run env s ops).deposits addr = some deposit' → deposit'.amount.sumOf denom = 0 := by
  have hf₀ : 0 < f₀.i := lt_of_lt_of_le (by norm_num [precisionReuse]) hP
  have hs₀ := sumOf_nonneg (fun c hc => (((isValid_iff _).mp hvalid).1 c hc).le) denom
  have hinit : Bounded addr denom (deposit.amount.sumOf denom) f₀.i 0 s :=
    .inl ⟨deposit, f₀, g, hdep, hvalid, hf, hP, hg, hfg, by push_cast; linarith⟩
  rcases bounded_run env hf₀ hs₀ ops 0 s hops hinit with ⟨deposit', f, -, hdep', -, hf', -, -, -, hA⟩ | hnone
  · rw [Nat.zero_add] at hA
    exact .inl ⟨deposit', f, hdep', hf', hA⟩
  · exact .inr fun d hd => (hnone d hd).2

/-- One sync from a snapshot of `3.0` at the factor `4.499999999999999999`, then a
Deposit of another denom, which fails after its sync. -/
theorem compounded_interest_bound_ukava :
    (∃ deposit' f, (run ukavaEnv
        {genesis (fun _ : Nat => [⟨"bnb", 1⟩]) with
          deposits := fun _ => some ⟨[⟨"ukava", 2⟩], [⟨"ukava", ⟨3000000000000000000⟩⟩]⟩,
          supplyInterestFactors := fun _ => some ⟨4499999999999999999⟩}
        [.syncSupplyInterest 0, .deposit 0 [⟨"bnb", 1⟩]]).deposits 0 = some deposit' ∧
      findFactor "ukava" deposit'.index = some f ∧
      deposit'.amount.sumOf "ukava" * 3000000000000000000 * precisionReuse ^ 2 ≤
        sumOf [⟨"ukava", 2⟩] "ukava" * f.i * precisionReuse ^ 2 +
          ([Op.syncSupplyInterest 0, .deposit 0 [⟨"bnb", 1⟩]].map (syncCount 0)).sum * f.i * 3000000000000000000) ∨
      ∀ deposit', (run ukavaEnv
        {genesis (fun _ : Nat => [⟨"bnb", 1⟩]) with
          deposits := fun _ => some ⟨[⟨"ukava", 2⟩], [⟨"ukava", ⟨3000000000000000000⟩⟩]⟩,
          supplyInterestFactors := fun _ => some ⟨4499999999999999999⟩}
        [.syncSupplyInterest 0, .deposit 0 [⟨"bnb", 1⟩]]).deposits 0 = some deposit' →
        deposit'.amount.sumOf "ukava" = 0 :=
  compounded_interest_bound _ 0 "ukava" _ [.syncSupplyInterest 0, .deposit 0 [⟨"bnb", 1⟩]]
    (by simp [Op.LeavesDenom]) ⟨[⟨"ukava", 2⟩], [⟨"ukava", ⟨3000000000000000000⟩⟩]⟩ ⟨3000000000000000000⟩
    ⟨4499999999999999999⟩ rfl rfl rfl (by norm_num [precisionReuse]) rfl (by norm_num)

/-- One sync from a snapshot of `3.0` at the factor `4.499999999999999999` raises an
amount of `2` to `3`, above its exact compounded value `2 · 4.499999999999999999 / 3`. -/
theorem sync_exceeds_compounded :
    ((run ⟨defaultParams, fun _ => none⟩
        {genesis (fun _ : Nat => []) with
          deposits := fun _ => some ⟨[⟨"ukava", 2⟩], [⟨"ukava", ⟨3000000000000000000⟩⟩]⟩,
          supplyInterestFactors := fun _ => some ⟨4499999999999999999⟩}
        [.syncSupplyInterest 0]).deposits 0).map Position.amount = some [⟨"ukava", 3⟩] ∧
      (2 * 4499999999999999999 : Int) < 3 * 3000000000000000000 :=
  ⟨by decide, by norm_num⟩

end KavaHard.Keeper
