import KavaHard.MapModel.Ledger
import KavaHard.Proofs.Records

/-! The deposit records refine the map model.

A record stands for the map that reads each held denom's amount off the balance and its
snapshot off the first index entry for that denom, as `SyncSupplyInterest` and `Deposit`
read the index (`heldMap`). Entries that no held denom reads stay in the list: a Withdraw
that takes all of a denom keeps its entry, and a later Deposit of the denom puts a new one
in front of it. None of them is read again, since the sync only visits held denoms. So
over every run on valid coin sets, from records with an entry for each held denom
(`Indexed`), each call of the keeper is a call of the map model on the maps the records
stand for, labelled with whether the keeper's call returned (`trace`): a call that
returned takes the model's whole step (`index_refines_map`). -/
namespace KavaHard.Keeper
open KavaHard.Sdk KavaHard.Types Coins Method

variable {Addr : Type} [DecidableEq Addr]

/-! ### Reading a record as a map -/

/-- The map a record stands for: each held denom's amount, at its first index entry. -/
def heldMap (position : Position) : Holding := fun denom =>
  if position.amount.sumOf denom = 0 then none
  else (findFactor denom position.index).map fun snapshot => (position.amount.sumOf denom, snapshot)

/-- A record the map model reads whole: a valid balance, with an index entry for each
denom it holds. -/
def Indexed (position : Position) : Prop :=
  position.amount.isValid = true ∧
    ∀ denom, position.amount.sumOf denom ≠ 0 → (findFactor denom position.index).isSome

/-- Every stored record is `Indexed`. -/
def RecordsIndexed (deposits : Addr → Option Deposit) : Prop :=
  ∀ addr position, deposits addr = some position → Indexed position

/-- The map model's state that a keeper state stands for. -/
def ledgerOf (s : State Addr) : Ledger Addr :=
  ⟨s.supplyInterestFactors, fun addr => (s.deposits addr).map heldMap⟩

/-- A call whose coins, if it has any, are a valid set. -/
def Op.HasValidCoins : Op Addr → Prop
  | .deposit _ coins | .withdraw _ coins => coins.isValid = true
  | _ => True

theorem heldMap_of_eq_zero {position : Position} {denom : String} (h : position.amount.sumOf denom = 0) :
    heldMap position denom = none :=
  if_pos h

theorem heldMap_of_ne_zero {position : Position} {denom : String} {snapshot : Dec}
    (h : position.amount.sumOf denom ≠ 0) (hsnap : findFactor denom position.index = some snapshot) :
    heldMap position denom = some (position.amount.sumOf denom, snapshot) := by
  rw [heldMap, if_neg h, hsnap]
  rfl

/-- On an indexed record the map has a key exactly for each coin of the balance, holding
the coin's amount, positive, and the first index entry for its denom. -/
theorem heldMap_indexed {position : Position} (hp : Indexed position) :
    (∀ denom, (heldMap position denom).isSome ↔ denom ∈ position.amount.map Coin.denom) ∧
      ∀ coin ∈ position.amount, 0 < coin.amount ∧ ∃ snapshot,
        findFactor coin.denom position.index = some snapshot ∧
          heldMap position coin.denom = some (coin.amount, snapshot) := by
  obtain ⟨hpos, hs⟩ := (isValid_iff _).mp hp.1
  refine ⟨fun denom => ?_, fun coin hc => ⟨hpos coin hc, ?_⟩⟩
  · rw [← sumOf_ne_zero_iff hp.1]
    by_cases h0 : position.amount.sumOf denom = 0
    · simp [heldMap_of_eq_zero h0, h0]
    · obtain ⟨snapshot, hsnap⟩ := Option.isSome_iff_exists.mp (hp.2 denom h0)
      simp [heldMap_of_ne_zero h0 hsnap, h0]
  · have hamt := amount_eq_sumOf hs hc
    have h0 : position.amount.sumOf coin.denom ≠ 0 := hamt ▸ (hpos coin hc).ne'
    obtain ⟨snapshot, hsnap⟩ := Option.isSome_iff_exists.mp (hp.2 coin.denom h0)
    exact ⟨snapshot, hsnap, by rw [heldMap_of_ne_zero h0 hsnap, ← hamt]⟩

theorem recordsIndexed_update {deposits : Addr → Option Deposit} (hs : RecordsIndexed deposits) (addr : Addr)
    {held : Option Deposit} (h : ∀ position, held = some position → Indexed position) :
    RecordsIndexed (Function.update deposits addr held) := by
  intro a position hp
  by_cases ha : a = addr
  · subst ha
    rw [Function.update_same] at hp
    exact h position hp
  · rw [Function.update_noteq ha] at hp
    exact hs a position hp

/-- A call on `addr` that leaves every other record moves the map model at `addr` only. -/
theorem ledgerOf_update {s s' : State Addr} {addr : Addr}
    (h : ∀ other, other ≠ addr → s'.deposits other = s.deposits other) :
    ledgerOf s' =
      ⟨s'.supplyInterestFactors, Function.update (ledgerOf s).holdings addr ((s'.deposits addr).map heldMap)⟩ := by
  simp only [ledgerOf, Ledger.mk.injEq, true_and]
  funext other
  by_cases ho : other = addr
  · subst ho
    simp
  · simp [Function.update_noteq ho, h other ho]

/-! ### Sync -/

/-- A sync of an indexed record is the map model's sync of the map it stands for. -/
theorem syncPosition_heldMap {factors : String → Option Dec} {position synced : Position} {interest : Coins}
    (hp : Indexed position) (h : syncPosition factors position = .ok (synced, interest)) :
    Indexed synced ∧ SyncsTo factors (some (heldMap position)) (some (heldMap synced)) := by
  obtain ⟨hpos, hs⟩ := (isValid_iff _).mp hp.1
  obtain ⟨hint, -, -, hsum, hfind⟩ := syncPosition_ok_spec hs h
  have hout : ∀ denom, denom ∉ position.amount.map Coin.denom → synced.amount.sumOf denom = 0 := by
    intro denom hd
    have h0 : position.amount.sumOf denom = 0 := not_not.mp fun hne => hd ((sumOf_ne_zero_iff hp.1).mp hne)
    rw [hsum, h0, sumOf_map_of_not_mem _ hd, add_zero]
  refine ⟨⟨syncPosition_valid hp.1 h, fun denom hne => ?_⟩, heldMap synced, rfl, fun denom => ?_⟩
  · by_cases hd : denom ∈ position.amount.map Coin.denom
    · rw [hfind, if_pos hd]
      rfl
    · exact absurd (hout denom hd) hne
  · by_cases hd : denom ∈ position.amount.map Coin.denom
    · obtain ⟨coin, hc, rfl⟩ := List.mem_map.mp hd
      obtain ⟨-, snapshot, hsnap, hheld⟩ := (heldMap_indexed hp).2 coin hc
      obtain ⟨hi, hi0⟩ := hint coin hc
      rw [coinInterest, hsnap] at hi
      have hsynced : synced.amount.sumOf coin.denom = coin.amount + creditOf factors position.index coin := by
        rw [hsum, sumOf_map_of_mem hs _ hc, ← amount_eq_sumOf hs hc]
      have hne : synced.amount.sumOf coin.denom ≠ 0 := by
        have := hpos coin hc
        omega
      rw [hheld]
      refine ⟨_, hi, hi0, ?_⟩
      rw [heldMap_of_ne_zero hne ((hfind _).trans (if_pos hd)), hsynced]
    · have h0 : position.amount.sumOf denom = 0 := not_not.mp fun hne => hd ((sumOf_ne_zero_iff hp.1).mp hne)
      rw [heldMap_of_eq_zero h0]
      exact heldMap_of_eq_zero (hout denom hd)

/-- A supply sync of indexed records is the map model's sync of the caller's map. -/
theorem syncSupplyInterest_ledger {addr : Addr} {s s' : State Addr} (hs : RecordsIndexed s.deposits)
    (h : syncSupplyInterest addr s = .ok () s') :
    RecordsIndexed s'.deposits ∧
      SyncsTo s.supplyInterestFactors ((s.deposits addr).map heldMap) ((s'.deposits addr).map heldMap) := by
  rcases syncSupplyInterest_ok h with ⟨hnone, rfl⟩ | ⟨deposit, synced, interest, hdep, hsync, rfl⟩
  · refine ⟨hs, ?_⟩
    rw [hnone]
    rfl
  · obtain ⟨hind, hsyncs⟩ := syncPosition_heldMap (hs addr deposit hdep) hsync
    refine ⟨recordsIndexed_update hs addr fun p hp => Option.some.inj hp ▸ hind, ?_⟩
    simpa [hdep, setDeposit] using hsyncs

theorem captureAndSync_ledger {env : Env} {addr : Addr} {s s' : State Addr} {standing : Dec × Bool}
    (hs : RecordsIndexed s.deposits) (h : captureAndSync env addr s = .ok standing s') :
    RecordsIndexed s'.deposits ∧
      SyncsTo s.supplyInterestFactors ((s.deposits addr).map heldMap) ((s'.deposits addr).map heldMap) := by
  obtain ⟨-, s₁, hb, hsup⟩ := captureAndSync_ok h
  obtain ⟨borrows, rfl, -⟩ := syncBorrowInterest_ok hb
  exact syncSupplyInterest_ledger (s := {s with borrows}) hs hsup

/-! ### Deposit -/

theorem findFactor_map (factors : String → Option Dec) (denom : String) (coins : Coins) :
    findFactor denom (coins.map fun coin => ⟨coin.denom, (factors coin.denom).getD Dec.zeroDec⟩) =
      if denom ∈ coins.map Coin.denom then some ((factors denom).getD Dec.zeroDec) else none := by
  induction coins with
  | nil => simp
  | cons coin rest ih =>
    by_cases hd : coin.denom = denom
    · subst hd
      simp [findFactor_cons]
    · simp [findFactor_cons, hd, ih, Ne.symm hd]

theorem newCoins_single {coin : Coin} (h : 0 < coin.amount) : newCoins [coin] = .ok [coin] := by
  simp [newCoins, removeZeroCoins, Coin.isZero, h.ne', Coins.sort, hasDup, Coins.isValid, Coin.isPositive, h]

theorem denomsSubsetOf_single {amount : Coins} (hs : Sorted amount) (coin : Coin) :
    Coins.denomsSubsetOf [coin] amount = decide (amount.sumOf coin.denom ≠ 0) := by
  cases amount with
  | nil => simp [denomsSubsetOf]
  | cons a rest => simp [denomsSubsetOf, amountOf_eq_sumOf hs]

/-- The entries a Deposit puts in front of the index: one at the global factor for each
coin whose denom the balance does not hold. -/
theorem findFactor_missingFactors {factors : String → Option Dec} {amount : Coins} (hs : Sorted amount)
    (denom : String) :
    ∀ {coins : Coins} {newFactors : List InterestFactor}, (∀ c ∈ coins, 0 < c.amount) →
      missingFactors factors amount coins = .ok newFactors →
      findFactor denom newFactors =
        if denom ∈ coins.map Coin.denom ∧ amount.sumOf denom = 0 then some ((factors denom).getD Dec.zeroDec)
        else none
  | [], _, _, h => by
    cases h
    simp
  | coin :: rest, newFactors, hpos, h => by
    rw [missingFactors, newCoins_single (hpos coin (List.mem_cons_self _ _)), ok_bind] at h
    obtain ⟨tail, htail, h⟩ := bind_eq_ok.mp h
    cases h
    have ih := findFactor_missingFactors hs denom (fun c hc => hpos c (List.mem_cons_of_mem _ hc)) htail
    rw [denomsSubsetOf_single hs]
    by_cases hd : coin.denom = denom
    · subst hd
      by_cases h0 : amount.sumOf coin.denom = 0 <;> simp [h0, findFactor_cons, ih]
    · by_cases h0 : amount.sumOf coin.denom = 0 <;> simp [h0, findFactor_cons, ih, hd, Ne.symm hd]

/-- A Deposit's record, from an indexed one, is the map model's deposit into the map it
stands for. -/
theorem depositedPosition_heldMap {factors : String → Option Dec} {current : Option Deposit} {coins : Coins}
    {deposit : Deposit} (hcur : ∀ p, current = some p → Indexed p) (hv : coins.isValid = true)
    (h : depositedPosition factors current coins = .ok deposit) :
    Indexed deposit ∧ heldMap deposit = depositHolding factors (current.map heldMap) coins := by
  obtain ⟨hpos, -⟩ := (isValid_iff _).mp hv
  have hcoins : ∀ denom, 0 ≤ coins.sumOf denom := sumOf_nonneg fun c hc => (hpos c hc).le
  cases current with
  | none =>
    cases h
    have hfind := findFactor_map factors
    refine ⟨⟨hv, fun denom hne => ?_⟩, funext fun denom => ?_⟩
    · rw [hfind, if_pos ((sumOf_ne_zero_iff hv).mp hne)]
      rfl
    · by_cases h0 : coins.sumOf denom = 0
      · simp [heldMap, depositHolding, h0]
      · simp [heldMap, depositHolding, h0, hfind, (sumOf_ne_zero_iff hv).mp h0]
  | some p =>
    obtain ⟨newFactors, hnew, h⟩ := bind_eq_ok.mp h
    obtain ⟨amount, hadd, h⟩ := bind_eq_ok.mp h
    cases h
    obtain ⟨hvp, hind⟩ := hcur p rfl
    obtain ⟨hpp, hsp⟩ := (isValid_iff _).mp hvp
    have hsum : ∀ denom, amount.sumOf denom = p.amount.sumOf denom + coins.sumOf denom :=
      fun denom => sumOf_safeAdd denom _ _ _ hadd
    have key : ∀ denom, heldMap ⟨amount, newFactors ++ p.index⟩ denom =
        depositHolding factors (some (heldMap p)) coins denom ∧
        (amount.sumOf denom ≠ 0 → (findFactor denom (newFactors ++ p.index)).isSome) := by
      intro denom
      have hnewf := findFactor_missingFactors hsp denom hpos hnew
      by_cases h0 : p.amount.sumOf denom = 0
      · by_cases hc0 : coins.sumOf denom = 0
        · simp [heldMap, depositHolding, hsum, h0, hc0]
        · have hmem := (sumOf_ne_zero_iff hv).mp hc0
          simp [heldMap, depositHolding, hsum, h0, hc0, findFactor_append, hnewf, hmem]
      · obtain ⟨snapshot, hsnap⟩ := Option.isSome_iff_exists.mp (hind denom h0)
        have hne : p.amount.sumOf denom + coins.sumOf denom ≠ 0 := by
          have : 0 ≤ p.amount.sumOf denom := sumOf_nonneg (fun c hc => (hpp c hc).le) denom
          have := hcoins denom
          omega
        simp [heldMap, depositHolding, hsum, h0, hne, findFactor_append, hnewf, hsnap]
    exact ⟨⟨(safeAdd_valid hvp hv hadd).1, fun denom => (key denom).2⟩, funext fun denom => (key denom).1⟩

/-- Money markets for `bnb` and `ukava`, each priced at one, with their liquidity
schedules. -/
def twoMarketEnv : Env :=
  ⟨⟨true, [⟨"bnb", ⟨false, ⟨0⟩, ⟨0⟩⟩, "bnb:usd", 1, ⟨⟨0⟩, ⟨0⟩, ⟨0⟩, ⟨0⟩⟩, ⟨0⟩, 0, ⟨0⟩⟩,
      ⟨"ukava", ⟨false, ⟨0⟩, ⟨0⟩⟩, "kava:usd", 1, ⟨⟨0⟩, ⟨0⟩, ⟨0⟩, ⟨0⟩⟩, ⟨0⟩, 0, ⟨0⟩⟩], 10,
      [⟨"bnb"⟩, ⟨"ukava"⟩]⟩,
    fun _ => some Dec.oneDec⟩

/-- Depositing two denoms, withdrawing all of one and depositing it again leaves two
entries for it in the index. -/
theorem redeposit_duplicates_entry :
    (run twoMarketEnv (genesis fun _ : Nat => [⟨"bnb", 100⟩, ⟨"ukava", 100⟩])
      [.deposit 0 [⟨"bnb", 10⟩, ⟨"ukava", 10⟩], .withdraw 0 [⟨"bnb", 10⟩], .deposit 0 [⟨"bnb", 5⟩]]).deposits 0 =
      some ⟨[⟨"bnb", 5⟩, ⟨"ukava", 10⟩], [⟨"bnb", Dec.oneDec⟩, ⟨"bnb", Dec.oneDec⟩, ⟨"ukava", Dec.oneDec⟩]⟩ := by
  decide

theorem depositCommit_ledger {env : Env} {depositor : Addr} {coins : Coins} {prevLtv : Dec}
    {shouldRemoveIndex : Bool} {s s' : State Addr} (hs : RecordsIndexed s.deposits) (hv : coins.isValid = true)
    (h : depositCommit env depositor coins prevLtv shouldRemoveIndex s = .ok () s') :
    RecordsIndexed s'.deposits ∧ (s'.deposits depositor).map heldMap =
      some (depositHolding s.supplyInterestFactors ((s.deposits depositor).map heldMap) coins) := by
  obtain ⟨-, bal, pool, deposit, -, hd, h⟩ := depositCommit_ok h
  obtain ⟨_, rfl⟩ := ignoreError_updateItemInLtvIndex_frame h
  obtain ⟨hind, hmap⟩ := depositedPosition_heldMap (fun p hp => hs depositor p hp) hv hd
  exact ⟨recordsIndexed_update hs depositor fun p hp => Option.some.inj hp ▸ hind, by simp [setDeposit, hmap]⟩

/-! ### Withdraw -/

/-- A Withdraw's proposal, from an indexed record, is the map model's withdraw from the
map it stands for. -/
theorem safeSub_heldMap {deposit : Deposit} {coins proposed : Coins} (hp : Indexed deposit)
    (hv : coins.isValid = true) (h : deposit.amount.safeSub coins = .ok (proposed, false)) :
    Indexed {deposit with amount := proposed} ∧
      WithdrawsTo (some (heldMap deposit)) coins
        (if proposed = [] then none else some (heldMap {deposit with amount := proposed})) := by
  obtain ⟨-, hs⟩ := (isValid_iff _).mp hp.1
  obtain ⟨hcpos, hcs⟩ := (isValid_iff _).mp hv
  have hvalid := safeSub_valid hs hcs h
  have hsum : ∀ denom, proposed.sumOf denom = deposit.amount.sumOf denom - coins.sumOf denom :=
    fun denom => sumOf_safeSub denom h
  have hprop : ∀ denom, 0 ≤ proposed.sumOf denom :=
    sumOf_nonneg fun c hc => (((isValid_iff _).mp hvalid).1 c hc).le
  have hcoins : ∀ denom, 0 ≤ coins.sumOf denom := sumOf_nonneg fun c hc => (hcpos c hc).le
  -- a denom the record does not hold is not withdrawn
  have hheld : ∀ denom, deposit.amount.sumOf denom = 0 → coins.sumOf denom = 0 := fun denom h0 => by
    have := hprop denom
    have := hcoins denom
    rw [hsum, h0] at *
    omega
  have key : ∀ denom, heldMap {deposit with amount := proposed} denom = withdrawHolding (heldMap deposit) coins denom := by
    intro denom
    by_cases h0 : deposit.amount.sumOf denom = 0
    · simp [heldMap, withdrawHolding, h0, hsum, hheld denom h0]
    · obtain ⟨snapshot, hsnap⟩ := Option.isSome_iff_exists.mp (hp.2 denom h0)
      simp [heldMap, withdrawHolding, h0, hsnap, hsum, sub_eq_zero]
  have hind : Indexed {deposit with amount := proposed} :=
    ⟨hvalid, fun denom hne => hp.2 denom fun h0 => hne (by rw [hsum, h0, hheld denom h0]; rfl)⟩
  refine ⟨hind, heldMap deposit, rfl, fun denom => ?_, ?_⟩
  · by_cases h0 : deposit.amount.sumOf denom = 0
    · simp [heldMap_of_eq_zero h0, hheld denom h0]
    · obtain ⟨snapshot, hsnap⟩ := Option.isSome_iff_exists.mp (hp.2 denom h0)
      have := hprop denom
      rw [hsum] at this
      simp only [heldMap_of_ne_zero h0 hsnap, Option.map_some', Option.getD_some]
      omega
  · split_ifs with hnil
    · exact .inl ⟨rfl, fun denom => by rw [← key, heldMap_of_eq_zero (by simp [hnil])]⟩
    · refine .inr ⟨by rw [funext key], ?_⟩
      obtain ⟨coin, hc⟩ := List.exists_mem_of_ne_nil _ hnil
      obtain ⟨-, snapshot, -, hheldc⟩ := (heldMap_indexed hind).2 coin hc
      exact ⟨coin.denom, by rw [← key, hheldc]; exact Option.some_ne_none _⟩

theorem withdrawCommit_ledger {env : Env} {depositor : Addr} {coins : Coins} {prevLtv : Dec}
    {shouldRemoveIndex : Bool} {s s' : State Addr} (hs : RecordsIndexed s.deposits) (hv : coins.isValid = true)
    (h : withdrawCommit env depositor coins prevLtv shouldRemoveIndex s = .ok () s') :
    RecordsIndexed s'.deposits ∧
      WithdrawsTo ((s.deposits depositor).map heldMap) coins ((s'.deposits depositor).map heldMap) := by
  have hz : ∀ deposit, s.deposits depositor = some deposit → ∀ x ∈ deposit.amount, x.amount ≠ 0 :=
    fun d hd x hx => (((isValid_iff _).mp (hs depositor d hd).1).1 x hx).ne'
  obtain ⟨deposit, proposed, hdep, hsub, -, -, hrec⟩ := withdrawCommit_proposal hz h
  obtain ⟨hind, hw⟩ := safeSub_heldMap (hs depositor deposit hdep) hv hsub
  refine ⟨fun a p hp => ?_, ?_⟩
  · by_cases ha : a = depositor
    · subst ha
      rw [hrec] at hp
      split_ifs at hp
      cases hp
      exact hind
    · rw [(withdrawCommit_frame h).deposits a ha] at hp
      exact hs a p hp
  · rw [hdep, hrec]
    split_ifs with hnil <;> simpa [hnil] using hw

/-! ### Calls -/

/-- Whether a call returned. -/
def returned : EStateM.Result (Err Addr) (State Addr) Unit → Bool
  | .ok _ _ => true
  | .error _ _ => false

/-- Whether the keeper's call returns from `s`; an accrual always does. -/
def Op.returns (env : Env) (s : State Addr) : Op Addr → Bool
  | .deposit depositor coins => returned (Keeper.deposit env depositor coins s)
  | .withdraw depositor coins => returned (Keeper.withdraw env depositor coins s)
  | .syncSupplyInterest addr => returned (Keeper.syncSupplyInterest addr s)
  | .accrueSupplyInterest _ _ | .accrueBorrowInterest _ _ => true

/-- The calls of a run from `s`, each with whether it returned. -/
def trace (env : Env) : State Addr → List (Op Addr) → List (Op Addr × Bool)
  | _, [] => []
  | s, op :: ops => (op, op.returns env s) :: trace env (step env s op) ops

/-- A Deposit that returns takes the map model's whole step; one that fails keeps the
factors it created, and the sync if it got that far. -/
theorem ledgerStep_deposit (env : Env) {depositor : Addr} {coins : Coins} {s : State Addr}
    (hv : coins.isValid = true) (hs : RecordsIndexed s.deposits) :
    LedgerStep (ledgerOf s) (.deposit depositor coins) (returned (deposit env depositor coins s))
      (ledgerOf ((deposit env depositor coins).after s)) := by
  have hdeposits : (initSupplyInterestFactors env coins s).deposits = s.deposits := by
    obtain ⟨_, hinit⟩ := initSupplyInterestFactors_frame env coins s
    rw [hinit]
  have hs₀ : RecordsIndexed (initSupplyInterestFactors env coins s).deposits := hdeposits ▸ hs
  have hfactor := initSupplyInterestFactors_factor env coins s
  -- past its first lines, a Deposit writes the factors and the depositor's record only
  have hwrites : ∀ s' : State Addr,
      s'.supplyInterestFactors = (initSupplyInterestFactors env coins s).supplyInterestFactors →
      (∀ other, other ≠ depositor → s'.deposits other = s.deposits other) →
      ledgerOf s' = ⟨(initSupplyInterestFactors env coins s).supplyInterestFactors,
        Function.update (ledgerOf s).holdings depositor ((s'.deposits depositor).map heldMap)⟩ := by
    intro s' hf ho
    rw [ledgerOf_update ho, hf]
  cases h : deposit env depositor coins s with
  | ok _ s' =>
    obtain ⟨_, _, s₁, hc, hd⟩ := deposit_ok h
    have ht := captureAndSync_touches hc
    have hf := depositCommit_frame hd
    obtain ⟨hs₁, hsync⟩ := captureAndSync_ledger hs₀ hc
    obtain ⟨-, hmap⟩ := depositCommit_ledger hs₁ hv hd
    rw [hdeposits] at hsync
    rw [ht.supplyInterestFactors] at hmap
    rw [after_of_ok h, hwrites s' (hf.supplyInterestFactors.trans ht.supplyInterestFactors)
      (fun o ho => ((hf.deposits o ho).trans (ht.deposits o ho)).trans (congrFun hdeposits o)), hmap]
    exact .deposit _ _ _ _ _ hfactor hsync
  | error e s' =>
    rcases after_of_error h with h' | ⟨he, h'⟩ <;> rw [h']
    · exact .reverted _ _
    rcases deposit_error h with ⟨msg, rfl⟩ | rfl | ⟨_, hc⟩
    · exact absurd rfl (he msg)
    · rw [hwrites _ rfl fun o _ => congrFun hdeposits o, hdeposits]
      exact .depositStopped _ _ _ _ _ hfactor (.inl rfl)
    · have ht := captureAndSync_touches hc
      obtain ⟨-, hsync⟩ := captureAndSync_ledger hs₀ hc
      rw [hdeposits] at hsync
      rw [hwrites _ ht.supplyInterestFactors fun o ho => (ht.deposits o ho).trans (congrFun hdeposits o)]
      exact .depositStopped _ _ _ _ _ hfactor (.inr hsync)

/-- A Withdraw that returns takes the map model's whole step; one that fails keeps the
sync if it got that far. -/
theorem ledgerStep_withdraw (env : Env) {depositor : Addr} {coins : Coins} {s : State Addr}
    (hv : coins.isValid = true) (hs : RecordsIndexed s.deposits) :
    LedgerStep (ledgerOf s) (.withdraw depositor coins) (returned (withdraw env depositor coins s))
      (ledgerOf ((withdraw env depositor coins).after s)) := by
  -- a Withdraw writes the depositor's record only
  have hwrites : ∀ s' : State Addr, s'.supplyInterestFactors = s.supplyInterestFactors →
      (∀ other, other ≠ depositor → s'.deposits other = s.deposits other) →
      ledgerOf s' = ⟨s.supplyInterestFactors,
        Function.update (ledgerOf s).holdings depositor ((s'.deposits depositor).map heldMap)⟩ := by
    intro s' hf ho
    rw [ledgerOf_update ho, hf]
  cases h : withdraw env depositor coins s with
  | ok _ s' =>
    obtain ⟨_, _, s₁, hc, hw⟩ := withdraw_ok h
    have ht := captureAndSync_touches hc
    have hf := withdrawCommit_frame hw
    obtain ⟨hs₁, hsync⟩ := captureAndSync_ledger hs hc
    rw [after_of_ok h, hwrites s' (hf.supplyInterestFactors.trans ht.supplyInterestFactors)
      fun o ho => (hf.deposits o ho).trans (ht.deposits o ho)]
    exact .withdraw _ _ _ _ _ hsync (withdrawCommit_ledger hs₁ hv hw).2
  | error e s' =>
    rcases after_of_error h with h' | ⟨he, h'⟩ <;> rw [h']
    · exact .reverted _ _
    rcases withdraw_error h with ⟨msg, rfl⟩ | rfl | ⟨_, hc⟩
    · exact absurd rfl (he msg)
    · exact .reverted _ _
    · have ht := captureAndSync_touches hc
      rw [hwrites _ ht.supplyInterestFactors ht.deposits]
      exact .withdrawStopped _ _ _ _ (captureAndSync_ledger hs hc).2

/-- Every call on valid coins, from indexed records, is a call of the map model, labelled
with whether it returned. -/
theorem ledgerStep_step (env : Env) {s : State Addr} {op : Op Addr} (hr : op.HasValidCoins)
    (hs : RecordsIndexed s.deposits) : LedgerStep (ledgerOf s) op (op.returns env s) (ledgerOf (step env s op)) := by
  cases op with
  | deposit depositor coins => exact ledgerStep_deposit env hr hs
  | withdraw depositor coins => exact ledgerStep_withdraw env hr hs
  | syncSupplyInterest addr =>
    show LedgerStep _ _ (returned (syncSupplyInterest addr s)) (ledgerOf ((syncSupplyInterest addr).after s))
    cases h : syncSupplyInterest addr s with
    | ok _ s' =>
      have ht := syncSupplyInterest_touches h
      rw [after_of_ok h, ledgerOf_update ht.deposits, ht.supplyInterestFactors]
      exact .sync _ _ _ (syncSupplyInterest_ledger hs h).2
    | error e s' =>
      obtain ⟨⟨msg, rfl⟩, -⟩ := syncSupplyInterest_error h
      rw [(after_of_error h).resolve_right fun ⟨he, _⟩ => he msg rfl]
      exact .reverted _ _
  | accrueSupplyInterest denom factor => exact .accrueSupply _ _ _
  | accrueBorrowInterest denom factor => exact .accrueBorrow _ _ _

/-- Indexed records, as an invariant of the ledger over calls on valid coins. -/
def recordsIndexed (env : Env) : @Invariant Addr _ env where
  Inv s := RecordsIndexed s.deposits
  Rule := Op.HasValidCoins
  init coins s hs := by
    obtain ⟨_, h⟩ := initSupplyInterestFactors_frame env coins s
    rw [h]
    exact hs
  syncBorrow _ _ _ hs h := by
    obtain ⟨_, rfl, -⟩ := syncBorrowInterest_ok h
    exact hs
  syncSupply _ _ _ hs h := (syncSupplyInterest_ledger hs h).1
  depositCommit _ _ _ _ _ _ hr hs h := (depositCommit_ledger hs hr h).1
  withdrawCommit _ _ _ _ _ _ hr hs h := (withdrawCommit_ledger hs hr h).1
  accrueSupply _ _ _ hs := hs
  accrueBorrow _ _ _ hs := hs

/-- Over every run of calls on valid coin sets, each succeeding or failing, and of factor
increases, from records with an index entry for each held denom: the records keep an
entry for each held denom, and the maps they stand for, read by first matching entry,
follow the map model step by step, each call that returned taking the model's whole
step. -/
theorem index_refines_map (env : Env) (s : State Addr) (ops : List (Op Addr))
    (hops : ∀ op ∈ ops, op.HasValidCoins) (hs : RecordsIndexed s.deposits) :
    RecordsIndexed (run env s ops).deposits ∧
      LedgerRun (ledgerOf s) (trace env s ops) (ledgerOf (run env s ops)) := by
  induction ops generalizing s with
  | nil => exact ⟨hs, .nil _⟩
  | cons op ops ih =>
    have hr := hops op (List.mem_cons_self _ _)
    obtain ⟨hrun, hledger⟩ := ih (step env s op) (fun o ho => hops o (List.mem_cons_of_mem _ ho))
      ((recordsIndexed env).step hr hs)
    exact ⟨hrun, .cons (ledgerStep_step env hr hs) hledger⟩

/-- A Deposit of ukava that returns, a partial Withdraw that returns and a Withdraw of
more than is held, which fails after its sync. -/
theorem index_refines_map_ukava :
    trace ukavaEnv (genesis fun _ : Nat => [⟨"ukava", 100⟩])
        [.deposit 0 [⟨"ukava", 10⟩], .withdraw 0 [⟨"ukava", 5⟩], .withdraw 0 [⟨"ukava", 50⟩]] =
      [(.deposit 0 [⟨"ukava", 10⟩], true), (.withdraw 0 [⟨"ukava", 5⟩], true), (.withdraw 0 [⟨"ukava", 50⟩], false)] ∧
    RecordsIndexed (run ukavaEnv (genesis fun _ : Nat => [⟨"ukava", 100⟩])
        [.deposit 0 [⟨"ukava", 10⟩], .withdraw 0 [⟨"ukava", 5⟩], .withdraw 0 [⟨"ukava", 50⟩]]).deposits ∧
      LedgerRun (ledgerOf (genesis fun _ : Nat => [⟨"ukava", 100⟩]))
        (trace ukavaEnv (genesis fun _ : Nat => [⟨"ukava", 100⟩])
          [.deposit 0 [⟨"ukava", 10⟩], .withdraw 0 [⟨"ukava", 5⟩], .withdraw 0 [⟨"ukava", 50⟩]])
        (ledgerOf (run ukavaEnv (genesis fun _ : Nat => [⟨"ukava", 100⟩])
          [.deposit 0 [⟨"ukava", 10⟩], .withdraw 0 [⟨"ukava", 5⟩], .withdraw 0 [⟨"ukava", 50⟩]])) :=
  ⟨by rfl, index_refines_map _ _ _ (by simp [Op.HasValidCoins, Coins.isValid, Coin.isPositive]) fun _ _ h => by cases h⟩

end KavaHard.Keeper
