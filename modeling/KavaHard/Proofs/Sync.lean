import KavaHard.Sdk.ValidCoins
import KavaHard.Keeper.Interest

/-! `SyncSupplyInterest` on a sorted balance.

The loop of `syncIndex` visits the coins of the balance in denom order. On a sorted
balance `AmountOf` finds each coin's own amount, each visited denom is a new one, so
an earlier step never changes what a later step reads, and the running total only
ever gains a coin of a denom it does not hold. `syncIndex_spec` says what the loop
then returns, given the interest it credits to each coin (`coinInterest`, the body of
the loop): the non-zero credits in order, and an index whose first entry for each
visited denom is the global factor. `syncPosition_spec` adds the final `Add`: the
balance gains each coin's credit and stays sorted. -/
namespace KavaHard.Keeper
open KavaHard.Sdk KavaHard.Types Coins

/-- What the loop of `SyncSupplyInterest` credits to `coin`, reading its snapshot in
`index`: nothing without an entry. -/
def coinInterest (factors : String → Option Dec) (index : List InterestFactor) (coin : Coin) :
    Except String Int :=
  match findFactor coin.denom index with
  | none => .ok 0
  | some userLastInterestFactor =>
    accruedInterest (Dec.newDecFromInt coin.amount) userLastInterestFactor
      ((factors coin.denom).getD Dec.zeroDec)

/-- Adding a coin whose denom follows all of a sum's appends it, unless it is zero. -/
theorem safeAdd_single {coin : Coin} :
    ∀ {tni : Coins}, (∀ y ∈ tni, y.amount ≠ 0 ∧ y.denom < coin.denom) →
      safeAdd tni [coin] = .ok (tni ++ removeZeroCoins [coin])
  | [], _ => rfl
  | y :: rest, h => by
    have hy := h y (List.mem_cons_self _ _)
    have hrest := safeAdd_single fun c hc => h c (List.mem_cons_of_mem _ hc)
    simp only [safeAdd, safeAddStep, compare_lt_iff_lt.mpr hy.2]
    rw [hrest]
    simp [Functor.map, Except.map, consNonzero, Coin.isZero, hy.1]

/-- The entries after the loop visits `coin :: rest`, from those after `rest`: the visit
of `coin` sets its own denom's entry to the global factor and keeps the others. -/
theorem findFactor_after_visit (factors : String → Option Dec) {coin : Coin} {rest : Coins}
    {index index₁ index' : List InterestFactor}
    (hown : findFactor coin.denom index₁ = some ((factors coin.denom).getD Dec.zeroDec))
    (hother : ∀ denom, denom ≠ coin.denom → findFactor denom index₁ = findFactor denom index)
    (hfind : ∀ denom, findFactor denom index' =
      if denom ∈ rest.map (·.denom) then some ((factors denom).getD Dec.zeroDec) else findFactor denom index₁)
    (denom : String) :
    findFactor denom index' =
      if denom ∈ (coin :: rest).map (·.denom) then some ((factors denom).getD Dec.zeroDec)
      else findFactor denom index := by
  rw [hfind]
  by_cases hr : denom ∈ rest.map (·.denom)
  · simp [hr]
  by_cases hd : denom = coin.denom
  · subst hd
    simp [hr, hown]
  · simp [hr, hd, hother denom hd]

/-- The loop of `SyncSupplyInterest` over sorted coins, each of which it can credit with
`interestOf`: it appends the non-zero credits to the running total, and leaves each
visited denom's first entry at the global factor. -/
theorem syncIndex_spec (factors : String → Option Dec) (amount : Coins) (interestOf : Coin → Int) :
    ∀ (coins : Coins) (index : List InterestFactor) (tni : Coins),
      Sorted coins → (∀ c ∈ coins, amount.amountOf c.denom = c.amount) →
      (∀ y ∈ tni, y.amount ≠ 0 ∧ ∀ c ∈ coins, y.denom < c.denom) →
      (∀ c ∈ coins, coinInterest factors index c = .ok (interestOf c) ∧ 0 ≤ interestOf c) →
      ∃ index', syncIndex factors amount coins index tni =
          .ok (index', tni ++ removeZeroCoins (coins.map fun c => ⟨c.denom, interestOf c⟩)) ∧
        ∀ denom, findFactor denom index' =
          if denom ∈ coins.map (·.denom) then some ((factors denom).getD Dec.zeroDec)
          else findFactor denom index
  | [], index, tni, _, _, _, _ => ⟨index, by simp [syncIndex, removeZeroCoins]⟩
  | coin :: rest, index, tni, hs, hamt, htni, hint => by
    obtain ⟨hlt, hrest⟩ := sorted_cons.mp hs
    have hne : ∀ c ∈ rest, c.denom ≠ coin.denom := fun c hc => (hlt c hc).ne'
    obtain ⟨hi, hi0⟩ := hint coin (List.mem_cons_self _ _)
    simp only [coinInterest] at hi
    cases hf : findFactor coin.denom index with
    | none =>
      rw [hf] at hi
      have hz : interestOf coin = 0 := (Except.ok.inj hi).symm
      have hother : ∀ denom, denom ≠ coin.denom →
          findFactor denom (index ++ [⟨coin.denom, (factors coin.denom).getD Dec.zeroDec⟩]) = findFactor denom index :=
        fun _ hd => findFactor_append_other hd _ _
      obtain ⟨index', heq, hfind⟩ := syncIndex_spec factors amount interestOf rest
        (index ++ [⟨coin.denom, (factors coin.denom).getD Dec.zeroDec⟩]) tni hrest
        (fun c hc => hamt c (List.mem_cons_of_mem _ hc))
        (fun y hy => ⟨(htni y hy).1, fun c hc => (htni y hy).2 c (List.mem_cons_of_mem _ hc)⟩)
        (fun c hc => by
          rw [coinInterest, hother _ (hne c hc)]
          exact hint c (List.mem_cons_of_mem _ hc))
      refine ⟨index', ?_, findFactor_after_visit factors (by simp [findFactor_append, hf, findFactor_cons]) hother hfind⟩
      rw [syncIndex, hf]
      simp only at heq ⊢
      rw [heq]
      simp [removeZeroCoins, hz, Coin.isZero]
    | some u =>
      rw [hf] at hi
      dsimp only at hi
      have hearned : newCoin coin.denom (interestOf coin) = .ok ⟨coin.denom, interestOf coin⟩ := by
        simp [newCoin, not_lt.mpr hi0]
      have hadd : tni.add [⟨coin.denom, interestOf coin⟩] =
          .ok (tni ++ removeZeroCoins [⟨coin.denom, interestOf coin⟩]) :=
        safeAdd_single fun y hy => ⟨(htni y hy).1, (htni y hy).2 coin (List.mem_cons_self _ _)⟩
      have hother : ∀ denom, denom ≠ coin.denom →
          findFactor denom (setFactor coin.denom ((factors coin.denom).getD Dec.zeroDec) index) =
            findFactor denom index :=
        fun _ hd => findFactor_setFactor_other hd _ _
      obtain ⟨index', heq, hfind⟩ := syncIndex_spec factors amount interestOf rest
        (setFactor coin.denom ((factors coin.denom).getD Dec.zeroDec) index)
        (tni ++ removeZeroCoins [⟨coin.denom, interestOf coin⟩]) hrest
        (fun c hc => hamt c (List.mem_cons_of_mem _ hc))
        (fun y hy => by
          rcases List.mem_append.mp hy with hy | hy
          · exact ⟨(htni y hy).1, fun c hc => (htni y hy).2 c (List.mem_cons_of_mem _ hc)⟩
          · obtain ⟨hy, hz⟩ := mem_removeZeroCoins hy
            obtain rfl := List.mem_singleton.mp hy
            exact ⟨hz, hlt⟩)
        (fun c hc => by
          rw [coinInterest, hother _ (hne c hc)]
          exact hint c (List.mem_cons_of_mem _ hc))
      refine ⟨index', ?_, findFactor_after_visit factors (by simp [findFactor_setFactor, hf]) hother hfind⟩
      rw [syncIndex, hf]
      simp only [hamt coin (List.mem_cons_self _ _), hi, hearned, hadd, bind, Except.bind]
      rw [heq]
      simp only [removeZeroCoins, List.filter_cons, List.filter_nil, List.map_cons, List.append_assoc]
      split <;> rfl

/-- The credits of a sorted amount, zeros dropped, are sorted. -/
theorem sorted_credits {amount : Coins} (hs : Sorted amount) (credit : Coin → Int) :
    Sorted (removeZeroCoins (amount.map fun c => ⟨c.denom, credit c⟩)) :=
  have hmap : Sorted (amount.map fun c => (⟨c.denom, credit c⟩ : Coin)) := List.pairwise_map.mpr hs
  hmap.sublist (List.filter_sublist _)

/-- A loop that returns could credit each coin it visited, a non-negative amount. -/
theorem syncIndex_ok_inv (factors : String → Option Dec) (amount : Coins) :
    ∀ (coins : Coins) (index : List InterestFactor) (tni : Coins) (r : List InterestFactor × Coins),
      Sorted coins → (∀ c ∈ coins, amount.amountOf c.denom = c.amount) →
      syncIndex factors amount coins index tni = .ok r →
      ∀ c ∈ coins, ∃ interest, coinInterest factors index c = .ok interest ∧ 0 ≤ interest
  | [], _, _, _, _, _, _ => by simp
  | coin :: rest, index, tni, r, hs, hamt, h => by
    obtain ⟨hlt, hrest⟩ := sorted_cons.mp hs
    have hne : ∀ c ∈ rest, c.denom ≠ coin.denom := fun c hc => (hlt c hc).ne'
    have hamt' : ∀ c ∈ rest, amount.amountOf c.denom = c.amount := fun c hc => hamt c (List.mem_cons_of_mem _ hc)
    rw [syncIndex] at h
    intro c hc
    cases hf : findFactor coin.denom index with
    | none =>
      rw [hf] at h
      rcases List.mem_cons.mp hc with rfl | hc
      · exact ⟨0, by simp [coinInterest, hf], le_rfl⟩
      · obtain ⟨i, hi, hi0⟩ := syncIndex_ok_inv factors amount rest _ _ r hrest hamt' h c hc
        rw [coinInterest, findFactor_append_other (hne c hc)] at hi
        exact ⟨i, hi, hi0⟩
    | some u =>
      rw [hf] at h
      obtain ⟨i, hi, h⟩ := bind_eq_ok.mp h
      obtain ⟨earned, hearned, h⟩ := bind_eq_ok.mp h
      obtain ⟨tni', -, h⟩ := bind_eq_ok.mp h
      rcases List.mem_cons.mp hc with rfl | hc
      · refine ⟨i, by simpa [coinInterest, hf, hamt c (List.mem_cons_self _ _)] using hi, ?_⟩
        unfold newCoin at hearned
        split at hearned
        · cases hearned
        · omega
      · obtain ⟨i, hi, hi0⟩ := syncIndex_ok_inv factors amount rest _ _ r hrest hamt' h c hc
        rw [coinInterest, findFactor_setFactor_other (hne c hc)] at hi
        exact ⟨i, hi, hi0⟩

/-- A sync of a position with a sorted amount, each coin of which it can credit with
`interestOf` without overflow: the amount gains each coin's credit, and each held
denom's first entry moves to the global factor. -/
theorem syncPosition_spec (factors : String → Option Dec) (position : Position) (interestOf : Coin → Int)
    (hs : Sorted position.amount)
    (hint : ∀ c ∈ position.amount,
      coinInterest factors position.index c = .ok (interestOf c) ∧ 0 ≤ interestOf c)
    (hover : ∀ c ∈ position.amount, interestOf c ≠ 0 →
      bitLenExceeds (c.amount + interestOf c) maxBitLen = false) :
    ∃ synced, syncPosition factors position =
        .ok (synced, removeZeroCoins (position.amount.map fun c => ⟨c.denom, interestOf c⟩)) ∧
      Sorted synced.amount ∧
      (∀ denom, synced.amount.sumOf denom = position.amount.sumOf denom +
        sumOf (position.amount.map fun c => ⟨c.denom, interestOf c⟩) denom) ∧
      ∀ denom, findFactor denom synced.index =
        if denom ∈ position.amount.map (·.denom) then some ((factors denom).getD Dec.zeroDec)
        else findFactor denom position.index := by
  obtain ⟨index', hloop, hfind⟩ := syncIndex_spec factors position.amount interestOf position.amount
    position.index [] hs (fun c hc => (amountOf_eq_sumOf hs).trans (amount_eq_sumOf hs hc).symm)
    (by simp) hint
  obtain ⟨amount', hadd⟩ := safeAdd_ok position.amount
    (removeZeroCoins (position.amount.map fun c => ⟨c.denom, interestOf c⟩)) fun x hx y hy hxy => by
      obtain ⟨hy, hz⟩ := mem_removeZeroCoins hy
      obtain ⟨c, hc, rfl⟩ := List.mem_map.mp hy
      obtain rfl := hs.eq_of_denom_eq hx hc hxy
      exact hover x hx hz
  refine ⟨⟨amount', index'⟩, ?_, sorted_safeAdd _ _ _ hs (sorted_credits hs interestOf) hadd,
    fun denom => ?_, hfind⟩
  · simp only [syncPosition, List.nil_append] at hloop ⊢
    rw [hloop]
    simp only [bind, Except.bind, Coins.add, hadd]
    rfl
  · rw [sumOf_safeAdd denom _ _ _ hadd, sumOf_removeZeroCoins]

/-- The credit of `coin`, or zero where computing it panics. -/
def creditOf (factors : String → Option Dec) (index : List InterestFactor) (coin : Coin) : Int :=
  match coinInterest factors index coin with
  | .ok interest => interest
  | .error _ => 0

/-- A sync of a position with a sorted amount that returns credited each coin its
`creditOf`, non-negative: the amount gains it and stays sorted, and each held denom's
first entry moves to the global factor. -/
theorem syncPosition_ok_spec {factors : String → Option Dec} {position synced : Position}
    {interest : Coins} (hs : Sorted position.amount)
    (h : syncPosition factors position = .ok (synced, interest)) :
    (∀ c ∈ position.amount, coinInterest factors position.index c =
      .ok (creditOf factors position.index c) ∧ 0 ≤ creditOf factors position.index c) ∧
      interest = removeZeroCoins (position.amount.map fun c => ⟨c.denom, creditOf factors position.index c⟩) ∧
      Sorted synced.amount ∧
      (∀ denom, synced.amount.sumOf denom = position.amount.sumOf denom +
        sumOf (position.amount.map fun c => ⟨c.denom, creditOf factors position.index c⟩) denom) ∧
      ∀ denom, findFactor denom synced.index =
        if denom ∈ position.amount.map (·.denom) then some ((factors denom).getD Dec.zeroDec)
        else findFactor denom position.index := by
  obtain ⟨hloop, hadd⟩ := syncPosition_ok h
  have hamt : ∀ c ∈ position.amount, position.amount.amountOf c.denom = c.amount :=
    fun c hc => (amountOf_eq_sumOf hs).trans (amount_eq_sumOf hs hc).symm
  have hint : ∀ c ∈ position.amount, coinInterest factors position.index c =
      .ok (creditOf factors position.index c) ∧ 0 ≤ creditOf factors position.index c := by
    intro c hc
    obtain ⟨i, hi, hi0⟩ := syncIndex_ok_inv factors _ _ _ _ _ hs hamt hloop c hc
    simp only [creditOf, hi, true_and]
    exact hi0
  obtain ⟨index', hloop', hfind⟩ := syncIndex_spec factors position.amount _ position.amount
    position.index [] hs hamt (by simp) hint
  rw [hloop] at hloop'
  simp only [List.nil_append, Except.ok.injEq, Prod.mk.injEq] at hloop'
  obtain ⟨rfl, rfl⟩ := hloop'
  exact ⟨hint, rfl, sorted_safeAdd _ _ _ hs (sorted_credits hs _) hadd,
    fun denom => by rw [sumOf_safeAdd denom _ _ _ hadd, sumOf_removeZeroCoins], hfind⟩

/-- A sync that returns keeps a valid amount valid. -/
theorem syncPosition_valid {factors : String → Option Dec} {position synced : Position} {interest : Coins}
    (hvalid : position.amount.isValid = true) (h : syncPosition factors position = .ok (synced, interest)) :
    synced.amount.isValid = true := by
  obtain ⟨hpos, hs⟩ := (isValid_iff _).mp hvalid
  obtain ⟨h0, rfl, hsorted, -, -⟩ := syncPosition_ok_spec hs h
  have hcredit : ∀ y ∈ removeZeroCoins (position.amount.map fun c => ⟨c.denom, creditOf factors position.index c⟩),
      0 ≤ y.amount := fun y hy => by
    obtain ⟨c, hc, rfl⟩ := List.mem_map.mp (mem_removeZeroCoins hy).1
    exact (h0 c hc).2
  refine (isValid_iff _).mpr ⟨fun c hc => ?_, hsorted⟩
  obtain ⟨hz, hc | hc | ⟨x, hx, y, hy, -, rfl⟩⟩ := mem_safeAdd _ _ _ (syncPosition_ok h).2 c hc
  · exact hpos c hc
  · exact lt_of_le_of_ne (hcredit c hc) (Ne.symm hz)
  · exact add_pos_of_pos_of_nonneg (hpos x hx) (hcredit y hy)

/-- A sync that returns lowers no holding of a sorted amount. -/
theorem sumOf_le_syncPosition {factors : String → Option Dec} {position synced : Position}
    {interest : Coins} (hs : Sorted position.amount)
    (h : syncPosition factors position = .ok (synced, interest)) (denom : String) :
    position.amount.sumOf denom ≤ synced.amount.sumOf denom := by
  obtain ⟨h0, -, -, hsum, -⟩ := syncPosition_ok_spec hs h
  have : 0 ≤ sumOf (position.amount.map fun c => (⟨c.denom, creditOf factors position.index c⟩ : Coin)) denom :=
    sumOf_nonneg (fun y hy => by obtain ⟨c, hc, rfl⟩ := List.mem_map.mp hy; exact (h0 c hc).2) denom
  rw [hsum]
  omega

end KavaHard.Keeper
