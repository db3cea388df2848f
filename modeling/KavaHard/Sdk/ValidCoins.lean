import KavaHard.Sdk.Coins

/-! Valid coin sets.

`Sorted` is the order the SDK keeps a set in: denoms strictly increasing, so no denom
twice. `isValid_iff` reads `IsValid` as sortedness and positive amounts. On a sorted
list `AmountOf`'s binary search finds what the list holds of a denom
(`amountOf_eq_sumOf`), and a coin holds all of its denom (`amount_eq_sumOf`).
`Add` succeeds unless two coins of one denom overflow (`safeAdd_ok`); each coin of a
sum is nonzero and comes from an input or adds one coin of each (`mem_safeAdd`); and
the sum of sorted lists is sorted (`sorted_safeAdd`). -/
namespace KavaHard.Sdk
namespace Coins

/-- Denoms strictly increasing along the list. -/
def Sorted (coins : Coins) : Prop := coins.Pairwise fun coin coinB => coin.denom < coinB.denom

theorem sorted_cons {coin : Coin} {coins : Coins} :
    Sorted (coin :: coins) ↔ (∀ coinB ∈ coins, coin.denom < coinB.denom) ∧ Sorted coins :=
  List.pairwise_cons

theorem compare_beq_lt (a b : String) : (compare a b == .lt) = true ↔ a < b := by
  rw [← compare_lt_iff_lt]
  cases compare a b <;> decide

/-- `IsValid` is sortedness with positive amounts. -/
theorem isValid_iff : ∀ coins : Coins,
    coins.isValid = true ↔ (∀ coin ∈ coins, 0 < coin.amount) ∧ Sorted coins
  | [] => by simp [isValid, Sorted]
  | [coin] => by simp [isValid, Sorted, Coin.isPositive]
  | coin :: next :: rest => by
    have ih := isValid_iff (next :: rest)
    simp only [isValid, Bool.and_eq_true, compare_beq_lt, ih, Coin.isPositive,
      decide_eq_true_eq, sorted_cons, List.mem_cons, forall_eq_or_imp]
    constructor
    · rintro ⟨⟨hpos, hlt⟩, ⟨hnext, hrest⟩, hnr, hs⟩
      exact ⟨⟨hpos, hnext, hrest⟩, ⟨hlt, fun c hc => hlt.trans (hnr c hc)⟩, hnr, hs⟩
    · rintro ⟨⟨hpos, hnext, hrest⟩, ⟨hlt, -⟩, hnr, hs⟩
      exact ⟨⟨hpos, hlt⟩, ⟨hnext, hrest⟩, hnr, hs⟩

/-! ### What a sorted list holds -/

theorem Sorted.eq_of_denom_eq : ∀ {coins : Coins}, Sorted coins → ∀ {x y : Coin}, x ∈ coins → y ∈ coins →
    x.denom = y.denom → x = y
  | [], _, _, _, hx, _, _ => by cases hx
  | a :: rest, hs, x, y, hx, hy, hxy => by
    obtain ⟨hlt, hrest⟩ := sorted_cons.mp hs
    rcases List.mem_cons.mp hx with rfl | hx'
    · rcases List.mem_cons.mp hy with rfl | hy'
      · rfl
      · exact absurd hxy (hlt y hy').ne
    · rcases List.mem_cons.mp hy with rfl | hy'
      · exact absurd hxy (hlt x hx').ne'
      · exact Sorted.eq_of_denom_eq hrest hx' hy' hxy

theorem sumOf_nonneg {coins : Coins} (h : ∀ c ∈ coins, 0 ≤ c.amount) (denom : String) : 0 ≤ sumOf coins denom := by
  induction coins with
  | nil => rfl
  | cons c rest ih =>
    simp only [List.mem_cons, forall_eq_or_imp] at h
    simp only [sumOf_cons]
    have := ih h.2
    split_ifs <;> omega


variable {denom : String}

theorem sumOf_eq_zero {coins : Coins} (h : ∀ coin ∈ coins, coin.denom ≠ denom) : sumOf coins denom = 0 := by
  induction coins with
  | nil => rfl
  | cons coin coins ih =>
    simp only [List.mem_cons, forall_eq_or_imp] at h
    simp [h.1, ih h.2]

/-- A coin of a sorted list holds all of its denom. -/
theorem amount_eq_sumOf {coins : Coins} (hs : Sorted coins) {coin : Coin} (hc : coin ∈ coins) :
    coin.amount = sumOf coins coin.denom := by
  induction coins with
  | nil => cases hc
  | cons head coins ih =>
    rw [sorted_cons] at hs
    rcases List.mem_cons.mp hc with rfl | hc
    · simp [sumOf_eq_zero fun c hc' => (hs.1 c hc').ne']
    · have hne : head.denom ≠ coin.denom := (hs.1 coin hc).ne
      simp [hne, ih hs.2 hc]

/-- `AmountOf`'s binary search, with at least the list's length as fuel, finds what a
sorted list holds of the denom. -/
theorem amountOfSearch_eq_sumOf : ∀ (fuel : Nat) (coins : Coins), coins.length ≤ fuel → Sorted coins →
    amountOfSearch denom fuel coins = sumOf coins denom
  | 0, [], _, _ => rfl
  | 0, _ :: _, h, _ => by simp at h
  | _ + 1, [], _, _ => rfl
  | _ + 1, [coin], _, _ => by by_cases h : coin.denom = denom <;> simp [amountOfSearch, h]
  | fuel + 1, c₁ :: c₂ :: rest, hl, hs => by
    have hlen : 2 ≤ (c₁ :: c₂ :: rest).length := Nat.le_add_left _ _
    rw [amountOfSearch.eq_4]
    generalize c₁ :: c₂ :: rest = coins at *
    have hsplit := List.take_append_drop (coins.length / 2) coins
    have hs' : Sorted (coins.take (coins.length / 2) ++ coins.drop (coins.length / 2)) := by
      rw [hsplit]; exact hs
    obtain ⟨htake, hdrop, hcross⟩ := List.pairwise_append.mp hs'
    have hsum : sumOf coins denom =
        sumOf (coins.take (coins.length / 2)) denom + sumOf (coins.drop (coins.length / 2)) denom := by
      rw [← sumOf_append, hsplit]
    have htakelen : (coins.take (coins.length / 2)).length ≤ fuel := by rw [List.length_take]; omega
    cases hd : coins.drop (coins.length / 2) with
    | nil => have := congrArg List.length hd; rw [List.length_drop, List.length_nil] at this; omega
    | cons coin tail =>
      rw [hd] at hdrop hcross hsum
      replace hdrop := sorted_cons.mp hdrop
      have hbelow : ∀ c ∈ coins.take (coins.length / 2), c.denom < coin.denom :=
        fun c hc => hcross c hc coin (List.mem_cons_self _ _)
      dsimp only
      rcases hc : compare denom coin.denom
      · have hlt : denom < coin.denom := compare_lt_iff_lt.mp hc
        rw [amountOfSearch_eq_sumOf fuel _ htakelen htake, hsum, sumOf_cons, if_neg hlt.ne',
          sumOf_eq_zero fun c hc => (hlt.trans (hdrop.1 c hc)).ne']
        simp
      · obtain rfl := compare_eq_iff_eq.mp hc
        rw [hsum, sumOf_eq_zero fun c hc => (hbelow c hc).ne, sumOf_cons, if_pos rfl,
          sumOf_eq_zero fun c hc => (hdrop.1 c hc).ne']
        simp
      · have hgt : coin.denom < denom := compare_gt_iff_gt.mp hc
        have htail : coins.drop (coins.length / 2 + 1) = tail := by
          rw [← List.drop_drop, hd]; rfl
        have htaillen : tail.length ≤ fuel := by
          have := congrArg List.length hd; rw [List.length_drop, List.length_cons] at this; omega
        rw [htail, amountOfSearch_eq_sumOf fuel tail htaillen hdrop.2, hsum,
          sumOf_eq_zero fun c hc => ((hbelow c hc).trans hgt).ne, sumOf_cons, if_neg hgt.ne]
        simp

theorem amountOf_eq_sumOf {coins : Coins} (hs : Sorted coins) : coins.amountOf denom = sumOf coins denom :=
  amountOfSearch_eq_sumOf _ coins le_rfl hs

/-- On any list, `AmountOf`'s search finds zero or the amount of one of its coins. -/
theorem amountOfSearch_mem : ∀ (fuel : Nat) (coins : Coins),
    amountOfSearch denom fuel coins = 0 ∨ ∃ coin ∈ coins, amountOfSearch denom fuel coins = coin.amount
  | 0, _ => .inl rfl
  | _ + 1, [] => .inl rfl
  | _ + 1, [coin] => by
    by_cases h : coin.denom = denom
    · exact .inr ⟨coin, List.mem_singleton_self _, by simp [amountOfSearch, h]⟩
    · exact .inl (by simp [amountOfSearch, h])
  | fuel + 1, c₁ :: c₂ :: rest => by
    rw [amountOfSearch.eq_4]
    generalize c₁ :: c₂ :: rest = coins
    split
    · exact .inl rfl
    · rename_i coin tail hd
      have hcoin : coin ∈ coins := List.drop_subset _ _ (hd ▸ List.mem_cons_self _ _)
      split
      · rcases amountOfSearch_mem fuel (coins.take (coins.length / 2)) with h | ⟨c, hc, h⟩
        · exact .inl h
        · exact .inr ⟨c, List.take_subset _ _ hc, h⟩
      · exact .inr ⟨coin, hcoin, rfl⟩
      · rcases amountOfSearch_mem fuel (coins.drop (coins.length / 2 + 1)) with h | ⟨c, hc, h⟩
        · exact .inl h
        · exact .inr ⟨c, List.drop_subset _ _ hc, h⟩

/-- On any list, `AmountOf`'s search finds a non-zero amount only at a coin of the denom. -/
theorem amountOfSearch_ne_zero : ∀ (fuel : Nat) (coins : Coins),
    amountOfSearch denom fuel coins ≠ 0 → ∃ coin ∈ coins, coin.denom = denom
  | 0, _, h => absurd rfl h
  | _ + 1, [], h => absurd rfl h
  | _ + 1, [coin], h => by
    by_cases hd : coin.denom = denom
    · exact ⟨coin, List.mem_singleton_self _, hd⟩
    · simp [amountOfSearch, hd] at h
  | fuel + 1, c₁ :: c₂ :: rest, h => by
    rw [amountOfSearch.eq_4] at h
    generalize c₁ :: c₂ :: rest = coins at h ⊢
    split at h
    · exact absurd rfl h
    · rename_i coin tail hd
      split at h
      · obtain ⟨c, hc, hcd⟩ := amountOfSearch_ne_zero fuel _ h
        exact ⟨c, List.take_subset _ _ hc, hcd⟩
      · rename_i hcmp
        exact ⟨coin, List.drop_subset _ _ (hd ▸ List.mem_cons_self _ _), (compare_eq_iff_eq.mp hcmp).symm⟩
      · obtain ⟨c, hc, hcd⟩ := amountOfSearch_ne_zero fuel _ h
        exact ⟨c, List.drop_subset _ _ hc, hcd⟩

/-- `DenomsSubsetOf` of one coin asks `AmountOf` for its denom, on any list. -/
theorem denomsSubsetOf_single_amountOf (amount : Coins) (coin : Coin) :
    Coins.denomsSubsetOf [coin] amount = decide (amount.amountOf coin.denom ≠ 0) := by
  cases amount with
  | nil => rfl
  | cons a rest => simp [denomsSubsetOf]

theorem exists_mem_of_sumOf_ne {coins : Coins} (h : sumOf coins denom ≠ 0) : ∃ coin ∈ coins, coin.denom = denom := by
  by_contra hne
  push_neg at hne
  exact h (sumOf_eq_zero hne)

/-- A valid set holds a denom exactly when one of its coins has it. -/
theorem sumOf_ne_zero_iff {coins : Coins} (hv : coins.isValid = true) :
    sumOf coins denom ≠ 0 ↔ denom ∈ coins.map Coin.denom := by
  obtain ⟨hpos, hs⟩ := (isValid_iff _).mp hv
  constructor
  · intro h
    obtain ⟨coin, hc, rfl⟩ := exists_mem_of_sumOf_ne h
    exact List.mem_map_of_mem _ hc
  · intro h
    obtain ⟨coin, hc, rfl⟩ := List.mem_map.mp h
    rw [← amount_eq_sumOf hs hc]
    exact (hpos coin hc).ne'

/-- Relabelling the amounts of a sorted list, coin by coin. -/
theorem sumOf_map_of_mem {coins : Coins} (hs : Sorted coins) (g : Coin → Int) {coin : Coin} (hc : coin ∈ coins) :
    sumOf (coins.map fun c => ⟨c.denom, g c⟩) coin.denom = g coin :=
  have hs' : Sorted (coins.map fun c => (⟨c.denom, g c⟩ : Coin)) := List.pairwise_map.mpr hs
  (amount_eq_sumOf hs' (List.mem_map_of_mem (fun c : Coin => (⟨c.denom, g c⟩ : Coin)) hc)).symm

theorem sumOf_map_of_not_mem {coins : Coins} (g : Coin → Int) (h : denom ∉ coins.map Coin.denom) :
    sumOf (coins.map fun c => ⟨c.denom, g c⟩) denom = 0 :=
  sumOf_eq_zero fun y hy hd => by
    obtain ⟨c, hc, rfl⟩ := List.mem_map.mp hy
    have hmem : c.denom ∈ coins.map Coin.denom := List.mem_map_of_mem _ hc
    dsimp only at hd
    exact h (hd ▸ hmem)

/-! ### Sums -/

/-- A coin `Add` may put in the sum of `coins` and `coinsB`: nonzero, and a coin of one
of them or one coin of each, of one denom, added. -/
def FromSum (coins coinsB : Coins) (coin : Coin) : Prop :=
  coin.amount ≠ 0 ∧ (coin ∈ coins ∨ coin ∈ coinsB ∨
    ∃ x ∈ coins, ∃ y ∈ coinsB, x.denom = y.denom ∧ coin = ⟨x.denom, x.amount + y.amount⟩)

theorem FromSum.mono {coins coins' coinsB coinsB' : Coins} {coin : Coin} (h : FromSum coins coinsB coin)
    (ha : coins ⊆ coins') (hb : coinsB ⊆ coinsB') : FromSum coins' coinsB' coin := by
  obtain ⟨hz, h | h | ⟨x, hx, y, hy, hxy, rfl⟩⟩ := h
  · exact ⟨hz, .inl (ha h)⟩
  · exact ⟨hz, .inr (.inl (hb h))⟩
  · exact ⟨hz, .inr (.inr ⟨x, ha hx, y, hb hy, hxy, rfl⟩)⟩

/-- The denom of such a coin is a denom of one of the two lists. -/
theorem FromSum.denom_from {coins coinsB : Coins} {coin : Coin} (h : FromSum coins coinsB coin) :
    (∃ x ∈ coins, x.denom = coin.denom) ∨ ∃ y ∈ coinsB, y.denom = coin.denom := by
  obtain ⟨-, h | h | ⟨x, hx, y, hy, hxy, rfl⟩⟩ := h
  · exact .inl ⟨coin, h, rfl⟩
  · exact .inr ⟨coin, h, rfl⟩
  · exact .inl ⟨x, hx, rfl⟩

theorem mem_consNonzero {coin c : Coin} {rest : Coins} (h : c ∈ consNonzero coin rest) :
    (c = coin ∧ c.amount ≠ 0) ∨ c ∈ rest := by
  unfold consNonzero at h
  split at h
  · exact .inr h
  · rename_i hz
    rcases List.mem_cons.mp h with rfl | h
    · exact .inl ⟨rfl, by simpa [Coin.isZero] using hz⟩
    · exact .inr h

theorem mem_removeZeroCoins {c : Coin} {coins : Coins} (h : c ∈ removeZeroCoins coins) :
    c ∈ coins ∧ c.amount ≠ 0 := by
  simpa [removeZeroCoins, Coin.isZero] using h

theorem mem_safeAddStep (coinA : Coin) (restA : Coins) (tail : Coins → Except String Coins)
    (htail : ∀ coinsB sum, tail coinsB = .ok sum → ∀ c ∈ sum, FromSum restA coinsB c) :
    ∀ coinsB sum, safeAddStep coinA restA tail coinsB = .ok sum → ∀ c ∈ sum, FromSum (coinA :: restA) coinsB c := by
  have hA : restA ⊆ coinA :: restA := List.subset_cons_self _ _
  intro coinsB
  induction coinsB with
  | nil =>
    rintro sum ⟨⟩ c hc
    obtain ⟨hc, hz⟩ := mem_removeZeroCoins hc
    exact ⟨hz, .inl hc⟩
  | cons coinB restB ih =>
    have hB : restB ⊆ coinB :: restB := List.subset_cons_self _ _
    intro sum h c hc
    simp only [safeAddStep] at h
    split at h
    · obtain ⟨rest, hrest, rfl⟩ := map_eq_ok.mp h
      rcases mem_consNonzero hc with ⟨rfl, hz⟩ | hc
      · exact ⟨hz, .inl (List.mem_cons_self _ _)⟩
      · exact (htail _ _ hrest c hc).mono hA (List.Subset.refl _)
    · rename_i heq
      obtain ⟨res, hres, h⟩ := bind_eq_ok.mp h
      obtain ⟨rest, hrest, rfl⟩ := map_eq_ok.mp h
      obtain ⟨hd, rfl⟩ := Coin.add_ok hres
      rcases mem_consNonzero hc with ⟨rfl, hz⟩ | hc
      · exact ⟨hz, .inr (.inr ⟨coinA, List.mem_cons_self _ _, coinB, List.mem_cons_self _ _, hd, rfl⟩)⟩
      · exact (htail _ _ hrest c hc).mono hA hB
    · obtain ⟨rest, hrest, rfl⟩ := map_eq_ok.mp h
      rcases mem_consNonzero hc with ⟨rfl, hz⟩ | hc
      · exact ⟨hz, .inr (.inl (List.mem_cons_self _ _))⟩
      · exact (ih _ hrest c hc).mono (List.Subset.refl _) hB

/-- Every coin of a sum is nonzero, and a coin of an input or one coin of each added. -/
theorem mem_safeAdd : ∀ (coins coinsB sum : Coins), safeAdd coins coinsB = .ok sum →
    ∀ c ∈ sum, FromSum coins coinsB c
  | [], coinsB, sum, h, c, hc => by
    cases h
    obtain ⟨hc, hz⟩ := mem_removeZeroCoins hc
    exact ⟨hz, .inr (.inl hc)⟩
  | coinA :: restA, coinsB, sum, h, c, hc =>
    mem_safeAddStep coinA restA _ (mem_safeAdd restA) coinsB sum h c hc

/-- Adding nothing drops the zeros. -/
theorem safeAdd_nil_right : ∀ coins : Coins, safeAdd coins [] = .ok (removeZeroCoins coins)
  | [] => rfl
  | _ :: _ => rfl

theorem removeZeroCoins_eq_self {coins : Coins} (h : ∀ c ∈ coins, c.amount ≠ 0) : removeZeroCoins coins = coins :=
  List.filter_eq_self.mpr fun c hc => by simp [Coin.isZero, h c hc]

/-- No coin of `coins` and coin of `coinsB` of one denom add up past `maxBitLen` bits. -/
def NoOverflow (coins coinsB : Coins) : Prop :=
  ∀ x ∈ coins, ∀ y ∈ coinsB, x.denom = y.denom → bitLenExceeds (x.amount + y.amount) maxBitLen = false

theorem NoOverflow.mono {coins coins' coinsB coinsB' : Coins} (h : NoOverflow coins' coinsB')
    (ha : coins ⊆ coins') (hb : coinsB ⊆ coinsB') : NoOverflow coins coinsB :=
  fun x hx y hy => h x (ha hx) y (hb hy)

theorem safeAddStep_ok (coinA : Coin) (restA : Coins) (tail : Coins → Except String Coins)
    (htail : ∀ coinsB, NoOverflow restA coinsB → ∃ sum, tail coinsB = .ok sum) :
    ∀ coinsB, NoOverflow (coinA :: restA) coinsB → ∃ sum, safeAddStep coinA restA tail coinsB = .ok sum := by
  have hA : restA ⊆ coinA :: restA := List.subset_cons_self _ _
  intro coinsB
  induction coinsB with
  | nil => exact fun _ => ⟨_, rfl⟩
  | cons coinB restB ih =>
    intro h
    have hB : restB ⊆ coinB :: restB := List.subset_cons_self _ _
    simp only [safeAddStep]
    split
    · obtain ⟨rest, hrest⟩ := htail _ (h.mono hA (List.Subset.refl _))
      exact ⟨_, by rw [hrest]; rfl⟩
    · rename_i heq
      have hd := compare_eq_iff_eq.mp heq
      have hadd : coinA.add coinB = .ok ⟨coinA.denom, coinA.amount + coinB.amount⟩ := by
        simp [Coin.add, hd, h coinA (List.mem_cons_self _ _) coinB (List.mem_cons_self _ _) hd]
      obtain ⟨rest, hrest⟩ := htail _ (h.mono hA hB)
      exact ⟨_, by rw [hadd]; simp only [bind, Except.bind, hrest]; rfl⟩
    · obtain ⟨rest, hrest⟩ := ih (h.mono (List.Subset.refl _) hB)
      exact ⟨_, by rw [hrest]; rfl⟩

/-- `Add` succeeds unless two coins of one denom overflow. -/
theorem safeAdd_ok : ∀ (coins coinsB : Coins), NoOverflow coins coinsB → ∃ sum, safeAdd coins coinsB = .ok sum
  | [], _, _ => ⟨_, rfl⟩
  | coinA :: restA, coinsB, h => safeAddStep_ok coinA restA _ (safeAdd_ok restA) coinsB h

theorem sorted_consNonzero {coin : Coin} {rest : Coins} (hs : Sorted rest)
    (h : ∀ c ∈ rest, coin.denom < c.denom) : Sorted (consNonzero coin rest) := by
  unfold consNonzero
  split
  · exact hs
  · exact sorted_cons.mpr ⟨h, hs⟩

theorem sorted_safeAddStep (coinA : Coin) (restA : Coins) (tail : Coins → Except String Coins)
    (htail : ∀ coinsB sum, Sorted coinsB → tail coinsB = .ok sum → Sorted sum)
    (hmem : ∀ coinsB sum, tail coinsB = .ok sum → ∀ c ∈ sum, FromSum restA coinsB c)
    (hA : Sorted (coinA :: restA)) :
    ∀ coinsB sum, Sorted coinsB → safeAddStep coinA restA tail coinsB = .ok sum → Sorted sum := by
  obtain ⟨hAlt, hArest⟩ := sorted_cons.mp hA
  intro coinsB
  induction coinsB with
  | nil =>
    rintro sum - ⟨⟩
    exact hA.sublist (List.filter_sublist _)
  | cons coinB restB ih =>
    intro sum hB h
    obtain ⟨hBlt, hBrest⟩ := sorted_cons.mp hB
    simp only [safeAddStep] at h
    split at h
    · rename_i hlt
      have hlt := compare_lt_iff_lt.mp hlt
      obtain ⟨rest, hrest, rfl⟩ := map_eq_ok.mp h
      refine sorted_consNonzero (htail _ _ hB hrest) fun c hc => ?_
      rcases (hmem _ _ hrest c hc).denom_from with ⟨x, hx, hxc⟩ | ⟨y, hy, hyc⟩
      · exact hxc ▸ hAlt x hx
      · rcases List.mem_cons.mp hy with rfl | hy
        · exact hyc ▸ hlt
        · exact hyc ▸ hlt.trans (hBlt y hy)
    · rename_i heq
      have hd := compare_eq_iff_eq.mp heq
      obtain ⟨res, hres, h⟩ := bind_eq_ok.mp h
      obtain ⟨rest, hrest, rfl⟩ := map_eq_ok.mp h
      obtain ⟨-, rfl⟩ := Coin.add_ok hres
      refine sorted_consNonzero (htail _ _ hBrest hrest) fun c hc => ?_
      rcases (hmem _ _ hrest c hc).denom_from with ⟨x, hx, hxc⟩ | ⟨y, hy, hyc⟩
      · exact hxc ▸ hAlt x hx
      · exact hyc ▸ hd ▸ hBlt y hy
    · rename_i hgt
      have hgt := compare_gt_iff_gt.mp hgt
      obtain ⟨rest, hrest, rfl⟩ := map_eq_ok.mp h
      refine sorted_consNonzero (ih _ hBrest hrest) fun c hc => ?_
      rcases (mem_safeAddStep coinA restA tail hmem restB rest hrest c hc).denom_from with ⟨x, hx, hxc⟩ | ⟨y, hy, hyc⟩
      · rcases List.mem_cons.mp hx with rfl | hx
        · exact hxc ▸ hgt
        · exact hxc ▸ hgt.trans (hAlt x hx)
      · exact hyc ▸ hBlt y hy

/-- The sum of two sorted lists is sorted. -/
theorem sorted_safeAdd : ∀ (coins coinsB sum : Coins), Sorted coins → Sorted coinsB →
    safeAdd coins coinsB = .ok sum → Sorted sum
  | [], coinsB, sum, _, hB, h => by
    cases h
    exact hB.sublist (List.filter_sublist _)
  | coinA :: restA, coinsB, sum, hA, hB, h =>
    sorted_safeAddStep coinA restA _ (fun coinsB sum => sorted_safeAdd restA coinsB sum (sorted_cons.mp hA).2)
      (mem_safeAdd restA) hA coinsB sum hB h

/-! ### Differences

Once `SafeSub` of two valid sets finds no negative amount, the difference is valid,
and `IsEqual` neither panics nor disagrees with it: the sets are equal exactly when
the difference is empty (`isEqual_of_safeSub`). A valid set is determined by what it
holds of each denom (`eq_of_sumOf_eq`). -/

theorem Sorted.nodup {coins : Coins} (hs : Sorted coins) : coins.Nodup :=
  hs.imp fun h => ne_of_apply_ne Coin.denom (ne_of_lt h)

/-- Sorted lists with the same coins are equal. -/
theorem Sorted.eq_of_mem_iff {coins coinsB : Coins} (hs : Sorted coins) (hsB : Sorted coinsB)
    (h : ∀ c, c ∈ coins ↔ c ∈ coinsB) : coins = coinsB :=
  haveI : IsAntisymm Coin fun coin coinB => coin.denom < coinB.denom :=
    ⟨fun _ _ h h' => absurd (h.trans h') (lt_irrefl _)⟩
  List.eq_of_perm_of_sorted ((List.perm_ext_iff_of_nodup hs.nodup hsB.nodup).mpr h) hs hsB

theorem mem_of_sumOf_eq {coins coinsB : Coins} (hv : coins.isValid = true) (hvB : coinsB.isValid = true)
    (h : ∀ denom, sumOf coins denom = sumOf coinsB denom) {c : Coin} (hc : c ∈ coins) : c ∈ coinsB := by
  obtain ⟨hpos, hs⟩ := (isValid_iff _).mp hv
  obtain ⟨-, hsB⟩ := (isValid_iff _).mp hvB
  have hsum := (amount_eq_sumOf hs hc).trans (h c.denom)
  by_cases hy : ∃ y ∈ coinsB, y.denom = c.denom
  · obtain ⟨y, hy, hyc⟩ := hy
    have hamount : y.amount = c.amount := by rw [amount_eq_sumOf hsB hy, hyc, hsum]
    cases y; cases c
    simp only at hyc hamount
    rwa [hyc, hamount] at hy
  · rw [sumOf_eq_zero fun y hy' hyc => hy ⟨y, hy', hyc⟩] at hsum
    exact absurd hsum (hpos c hc).ne'

/-- A valid set is determined by what it holds of each denom. -/
theorem eq_of_sumOf_eq {coins coinsB : Coins} (hv : coins.isValid = true) (hvB : coinsB.isValid = true)
    (h : ∀ denom, sumOf coins denom = sumOf coinsB denom) : coins = coinsB :=
  Sorted.eq_of_mem_iff ((isValid_iff _).mp hv).2 ((isValid_iff _).mp hvB).2 fun _ =>
    ⟨mem_of_sumOf_eq hv hvB h, mem_of_sumOf_eq hvB hv fun d => (h d).symm⟩

theorem sorted_negative {coins : Coins} (hs : Sorted coins) : Sorted coins.negative :=
  List.pairwise_map.mpr hs

/-- A difference without negative amounts of two sorted lists is valid. -/
theorem safeSub_valid {coins coinsB diff : Coins} (hs : Sorted coins) (hsB : Sorted coinsB)
    (h : coins.safeSub coinsB = .ok (diff, false)) : diff.isValid = true := by
  obtain ⟨d, hd, h⟩ := bind_eq_ok.mp h
  obtain ⟨rfl, hneg⟩ := Prod.mk.inj (Except.ok.inj h)
  refine (isValid_iff _).mpr ⟨fun c hc => ?_, sorted_safeAdd _ _ _ hs (sorted_negative hsB) hd⟩
  have hz := (mem_safeAdd _ _ _ hd c hc).1
  have hn : ¬ c.amount < 0 := fun hlt => by
    have : d.isAnyNegative = true := List.any_eq_true.mpr ⟨c, hc, by simpa [Coin.isNegative] using hlt⟩
    rw [this] at hneg
    cases hneg
  omega

/-- On any lists, a coin of a difference without negative amounts, less positive coins,
is not zero and has a denom of the first list. -/
theorem mem_safeSub {coins coinsB diff : Coins} (hpos : ∀ y ∈ coinsB, 0 < y.amount)
    (h : coins.safeSub coinsB = .ok (diff, false)) :
    ∀ c ∈ diff, c.amount ≠ 0 ∧ ∃ x ∈ coins, x.denom = c.denom := by
  obtain ⟨d, hd, h⟩ := bind_eq_ok.mp h
  obtain ⟨rfl, hneg⟩ := Prod.mk.inj (Except.ok.inj h)
  intro c hc
  have hn : ¬ c.amount < 0 := by simpa [Coin.isNegative] using List.any_eq_false.mp hneg c hc
  obtain ⟨hz, hc' | hc' | ⟨x, hx, y, -, -, rfl⟩⟩ := mem_safeAdd _ _ _ hd c hc
  · exact ⟨hz, c, hc', rfl⟩
  · obtain ⟨y, hy, rfl⟩ := List.mem_map.mp hc'
    exact absurd (neg_neg_of_pos (hpos y hy)) hn
  · exact ⟨hz, x, hx, rfl⟩

theorem sort_eq_self {coins : Coins} (hs : Sorted coins) : coins.sort = coins :=
  List.Sorted.insertionSort_eq (hs.imp fun h => by simp [compare_lt_iff_lt.mpr h])

/-- `IsEqual`'s loop on lists with the same denoms in the same places compares them. -/
theorem isEqualSorted_of_denoms : ∀ {coins coinsB : Coins}, coins.map Coin.denom = coinsB.map Coin.denom →
    isEqualSorted coins coinsB = .ok (decide (coins = coinsB))
  | [], [], _ => rfl
  | coin :: rest, coinB :: restB, h => by
    obtain ⟨hd, hr⟩ := List.cons.inj h
    have ih := isEqualSorted_of_denoms hr
    by_cases ha : coin.amount = coinB.amount
    · have : coin = coinB := by cases coin; cases coinB; simp_all
      simp [isEqualSorted, hd, ha, ih, this]
    · have : coin ≠ coinB := fun h => ha (h ▸ rfl)
      simp [isEqualSorted, hd, ha, this]

/-- What a merge against negative amounts that leaves nothing negative says of its
inputs: each negative coin met a coin of its denom, in step, so the first list is at
least as long as the second, and no longer than the second and the result together. -/
def MergeShape (coins coinsB sum : Coins) : Prop :=
  coinsB.length ≤ coins.length ∧ coins.length ≤ coinsB.length + sum.length ∧
    (coins.length = coinsB.length → coins.map Coin.denom = coinsB.map Coin.denom)

theorem mergeShape_safeAddStep (coinA : Coin) (restA : Coins) (tail : Coins → Except String Coins)
    (htail : ∀ coinsB sum, (∀ y ∈ coinsB, y.amount < 0) → tail coinsB = .ok sum →
      (∀ r ∈ sum, 0 ≤ r.amount) → MergeShape restA coinsB sum)
    (hA : ∀ x ∈ coinA :: restA, x.amount ≠ 0) :
    ∀ coinsB sum, (∀ y ∈ coinsB, y.amount < 0) → safeAddStep coinA restA tail coinsB = .ok sum →
      (∀ r ∈ sum, 0 ≤ r.amount) → MergeShape (coinA :: restA) coinsB sum
  | [], sum, _, h, _ => by
    cases h
    have : removeZeroCoins (coinA :: restA) = coinA :: restA :=
      List.filter_eq_self.mpr fun x hx => by simp [Coin.isZero, hA x hx]
    exact ⟨Nat.zero_le _, by rw [this]; exact Nat.le_add_left _ _, fun h => absurd h (Nat.succ_ne_zero _)⟩
  | coinB :: restB, sum, hB, h, hR => by
    simp only [safeAddStep] at h
    split at h
    · obtain ⟨rest, hrest, rfl⟩ := map_eq_ok.mp h
      have hcons : consNonzero coinA rest = coinA :: rest := by
        simp [consNonzero, Coin.isZero, hA coinA (List.mem_cons_self _ _)]
      rw [hcons] at hR ⊢
      obtain ⟨h1, h2, -⟩ := htail _ _ hB hrest fun r hr => hR r (List.mem_cons_of_mem _ hr)
      unfold MergeShape
      simp only [List.length_cons] at h1 h2 ⊢
      exact ⟨by omega, by omega, fun h => by omega⟩
    · rename_i heq
      obtain ⟨res, -, h⟩ := bind_eq_ok.mp h
      obtain ⟨rest, hrest, rfl⟩ := map_eq_ok.mp h
      have hsub : rest.Sublist (consNonzero res rest) := by
        unfold consNonzero
        split
        · exact List.Sublist.refl _
        · exact List.sublist_cons_self _ _
      have hlen := hsub.length_le
      obtain ⟨h1, h2, h3⟩ := htail _ _ (fun y hy => hB y (List.mem_cons_of_mem _ hy)) hrest
        fun r hr => hR r (hsub.subset hr)
      unfold MergeShape
      simp only [List.length_cons, List.map_cons]
      exact ⟨by omega, by omega, fun h => by rw [compare_eq_iff_eq.mp heq, h3 (by omega)]⟩
    · obtain ⟨rest, -, rfl⟩ := map_eq_ok.mp h
      have hB0 := hB coinB (List.mem_cons_self _ _)
      have : coinB ∈ consNonzero coinB rest := by simp [consNonzero, Coin.isZero, hB0.ne]
      exact absurd (hR _ this) (not_le.mpr hB0)

theorem mergeShape_safeAdd : ∀ (coins coinsB sum : Coins), (∀ x ∈ coins, x.amount ≠ 0) →
    (∀ y ∈ coinsB, y.amount < 0) → safeAdd coins coinsB = .ok sum → (∀ r ∈ sum, 0 ≤ r.amount) →
    MergeShape coins coinsB sum
  | [], coinsB, sum, _, hB, h, hR => by
    cases h
    cases coinsB with
    | nil => exact ⟨le_rfl, by simp, fun _ => rfl⟩
    | cons y ys =>
      have hy := hB y (List.mem_cons_self _ _)
      have : y ∈ removeZeroCoins (y :: ys) := by simp [removeZeroCoins, Coin.isZero, hy.ne]
      exact absurd (hR y this) (not_le.mpr hy)
  | coinA :: restA, coinsB, sum, hA, hB, h, hR =>
    mergeShape_safeAddStep coinA restA _
      (fun coinsB sum => mergeShape_safeAdd restA coinsB sum fun x hx => hA x (List.mem_cons_of_mem _ hx))
      hA coinsB sum hB h hR

/-- After a `SafeSub` without negative amounts of a valid set from a list with no zero
amount, `IsEqual` does not panic, and finds the two equal exactly when the difference
is empty. -/
theorem isEqual_of_safeSub {coins coinsB diff : Coins} (hz : ∀ x ∈ coins, x.amount ≠ 0)
    (hvB : coinsB.isValid = true) (h : coins.safeSub coinsB = .ok (diff, false)) :
    coins.isEqual coinsB = .ok diff.isEmpty := by
  obtain ⟨d, hd, h'⟩ := bind_eq_ok.mp h
  obtain ⟨rfl, hneg⟩ := Prod.mk.inj (Except.ok.inj h')
  obtain ⟨hposB, hsB⟩ := (isValid_iff _).mp hvB
  have hnonneg : ∀ r ∈ d, 0 ≤ r.amount := fun r hr => not_lt.mp fun hlt => by
    have : d.isAnyNegative = true := List.any_eq_true.mpr ⟨r, hr, by simpa [Coin.isNegative] using hlt⟩
    rw [this] at hneg
    cases hneg
  obtain ⟨h1, h2, h3⟩ := mergeShape_safeAdd coins coinsB.negative d hz
    (fun y hy => by
      obtain ⟨c, hc, rfl⟩ := List.mem_map.mp hy
      exact neg_lt_zero.mpr (hposB c hc)) hd hnonneg
  have hlen : coinsB.negative.length = coinsB.length := List.length_map _ _
  unfold isEqual
  split_ifs with hl
  · have : d ≠ [] := fun he => hl (by subst he; simp only [List.length_nil] at h2; omega)
    simp [List.isEmpty_iff, this]
  · have hden : coins.map Coin.denom = coinsB.map Coin.denom := by
      rw [h3 (by omega)]
      simp [negative, List.map_map, Function.comp_def]
    have hs : Sorted coins := List.pairwise_map.mp (hden ▸ List.pairwise_map.mpr hsB)
    rw [sort_eq_self hs, sort_eq_self hsB, isEqualSorted_of_denoms hden]
    congr 1
    by_cases he : coins = coinsB
    · subst he
      have hsd := sorted_safeAdd _ _ _ hs (sorted_negative hs) hd
      have : d = [] := List.eq_nil_iff_forall_not_mem.mpr fun r hr => (mem_safeAdd _ _ _ hd r hr).1 <| by
        rw [amount_eq_sumOf hsd hr, sumOf_safeAdd _ _ _ _ hd, sumOf_negative]
        omega
      simp [this]
    · have : d ≠ [] := fun hd0 => he <| by
        have hsum : ∀ denom, sumOf coins denom = sumOf coinsB denom := fun denom => by
          have := sumOf_safeSub denom h
          rw [hd0] at this
          simp at this
          omega
        refine eq_of_sumOf_eq ((isValid_iff _).mpr ⟨fun x hx => ?_, hs⟩) hvB hsum
        obtain ⟨y, hy, hxy⟩ := List.mem_map.mp (hden ▸ List.mem_map_of_mem Coin.denom hx)
        rw [amount_eq_sumOf hs hx, hsum, ← hxy, ← amount_eq_sumOf hsB hy]
        exact hposB y hy
      simp [he, List.isEmpty_iff, this]

/-- The sum of valid sets is valid, and holds at least what the second holds. -/
theorem safeAdd_valid {coins coinsB sum : Coins} (hv : coins.isValid = true) (hvB : coinsB.isValid = true)
    (h : safeAdd coins coinsB = .ok sum) : sum.isValid = true ∧ ∀ denom, sumOf coinsB denom ≤ sumOf sum denom := by
  obtain ⟨hpos, hs⟩ := (isValid_iff _).mp hv
  obtain ⟨hposB, hsB⟩ := (isValid_iff _).mp hvB
  refine ⟨(isValid_iff _).mpr ⟨fun c hc => ?_, sorted_safeAdd _ _ _ hs hsB h⟩, fun denom => ?_⟩
  · obtain ⟨-, hc | hc | ⟨x, hx, y, hy, -, rfl⟩⟩ := mem_safeAdd _ _ _ h c hc
    · exact hpos c hc
    · exact hposB c hc
    · exact add_pos (hpos x hx) (hposB y hy)
  · have := sumOf_nonneg (fun c hc => (hpos c hc).le) denom
    rw [sumOf_safeAdd denom _ _ _ h]
    omega

/-- A set that holds at least what a non-empty valid set holds is not empty. -/
theorem ne_nil_of_sumOf_le {coins coinsB : Coins} (hv : coins.isValid = true) (hne : coins ≠ [])
    (h : ∀ denom, sumOf coins denom ≤ sumOf coinsB denom) : coinsB ≠ [] := by
  obtain ⟨hpos, hs⟩ := (isValid_iff _).mp hv
  obtain ⟨c, hc⟩ := List.exists_mem_of_ne_nil _ hne
  rintro rfl
  have := h c.denom
  rw [← amount_eq_sumOf hs hc] at this
  exact absurd (hpos c hc) (not_lt.mpr this)

/-! ### When `SafeSub` finds a negative amount -/

/-- On sorted lists, `SafeSub` reports a negative amount exactly when the second list holds
more of some denom than the first. -/
theorem safeSub_neg_iff {coins coinsB diff : Coins} {hasNeg : Bool} (hs : Sorted coins) (hsB : Sorted coinsB)
    (h : coins.safeSub coinsB = .ok (diff, hasNeg)) :
    hasNeg = true ↔ ∃ denom, sumOf coins denom < sumOf coinsB denom := by
  have hsum := fun denom => sumOf_safeSub denom h
  obtain ⟨d, hd, h⟩ := bind_eq_ok.mp h
  obtain ⟨rfl, rfl⟩ := Prod.mk.inj (Except.ok.inj h)
  have hsd : Sorted d := sorted_safeAdd _ _ _ hs (sorted_negative hsB) hd
  simp only [isAnyNegative, List.any_eq_true, Coin.isNegative, decide_eq_true_eq]
  constructor
  · rintro ⟨c, hc, hneg⟩
    refine ⟨c.denom, ?_⟩
    have := amount_eq_sumOf hsd hc
    rw [hsum] at this
    omega
  · rintro ⟨denom, hlt⟩
    obtain ⟨c, hc, rfl⟩ := exists_mem_of_sumOf_ne (show sumOf d denom ≠ 0 by rw [hsum]; omega)
    refine ⟨c, hc, ?_⟩
    have := amount_eq_sumOf hsd hc
    rw [hsum] at this
    omega

/-- `SafeSub` of positive `sdk.Int` amounts does not overflow. -/
theorem safeSub_ok_of_lt {coins coinsB : Coins}
    (h : ∀ c ∈ coins ++ coinsB, 0 < c.amount ∧ c.amount < 2 ^ maxBitLen) :
    ∃ diff hasNeg, coins.safeSub coinsB = .ok (diff, hasNeg) := by
  obtain ⟨d, hd⟩ := safeAdd_ok coins coinsB.negative fun x hx y hy _ => by
    obtain ⟨z, hz, rfl⟩ := List.mem_map.mp hy
    have hx' := h x (List.mem_append_left _ hx)
    have hz' := h z (List.mem_append_right _ hz)
    rw [Bool.eq_false_iff, ne_eq, bitLenExceeds_iff]
    simp only [maxBitLen] at hx' hz' ⊢
    omega
  exact ⟨d, d.isAnyNegative, by rw [safeSub, hd]; rfl⟩

/-- `SafeSub` of valid sets of `sdk.Int` amounts returns, and reports a negative amount
exactly when the second set holds more of some denom. -/
theorem safeSub_of_valid {coins coinsB : Coins} (hv : coins.isValid = true) (hvB : coinsB.isValid = true)
    (hbits : ∀ c ∈ coins ++ coinsB, c.amount < 2 ^ maxBitLen) :
    ∃ diff hasNeg, coins.safeSub coinsB = .ok (diff, hasNeg) ∧
      (hasNeg = true ↔ ∃ denom, sumOf coins denom < sumOf coinsB denom) := by
  obtain ⟨hpos, hs⟩ := (isValid_iff _).mp hv
  obtain ⟨hposB, hsB⟩ := (isValid_iff _).mp hvB
  obtain ⟨diff, hasNeg, h⟩ := safeSub_ok_of_lt fun c hc =>
    ⟨(List.mem_append.mp hc).elim (hpos c) (hposB c), hbits c hc⟩
  exact ⟨diff, hasNeg, h, safeSub_neg_iff hs hsB h⟩

/-! ### Round trips -/

/-- `SafeSub` then `Add` of one valid set gives the valid set back. -/
theorem safeSub_add_cancel {coins coinsB diff sum : Coins} (hv : coins.isValid = true)
    (hvB : coinsB.isValid = true) (h₁ : coins.safeSub coinsB = .ok (diff, false))
    (h₂ : safeAdd diff coinsB = .ok sum) : sum = coins :=
  eq_of_sumOf_eq (safeAdd_valid (safeSub_valid ((isValid_iff _).mp hv).2 ((isValid_iff _).mp hvB).2 h₁) hvB h₂).1
    hv fun denom => by rw [sumOf_safeAdd denom _ _ _ h₂, sumOf_safeSub denom h₁]; omega

/-- `Add` then `SafeSub` of one valid set gives the valid set back. -/
theorem add_safeSub_cancel {coins coinsB sum diff : Coins} (hv : coins.isValid = true)
    (hvB : coinsB.isValid = true) (h₁ : safeAdd coins coinsB = .ok sum)
    (h₂ : sum.safeSub coinsB = .ok (diff, false)) : diff = coins :=
  eq_of_sumOf_eq (safeSub_valid ((isValid_iff _).mp (safeAdd_valid hv hvB h₁).1).2 ((isValid_iff _).mp hvB).2 h₂)
    hv fun denom => by rw [sumOf_safeSub denom h₂, sumOf_safeAdd denom _ _ _ h₁]; omega

/-- `IsEqual` finds a sorted set equal to itself. -/
theorem isEqual_self {coins : Coins} (hs : Sorted coins) : coins.isEqual coins = .ok true := by
  unfold isEqual
  rw [if_neg (not_not.mpr rfl), sort_eq_self hs, isEqualSorted_of_denoms rfl, decide_eq_true rfl]

end Coins
end KavaHard.Sdk
