import OneChain.System.Conservation
import OneChain.System.RateHistory

/-!
# Solvency in pool tokens

Pool tokens are minted for a whole epoch with one rounded division and burned receipt by receipt
at the rate of the receipt's own epoch. The invariant counts the receipts of one epoch together,
which joins and splits do not change: the tokens of all epochs up to now, the supply held as
fungible receipts and the tokens booked for withdrawal fit into the pool's token balance.

* `Solvent` — the invariant between turns, with the history of rates that it rests on.
* `Turn.Regular` — the runs it is about: every epoch of an active pool ends with one processing
  of its pending stake, and rewards go to active validators.
-/

namespace OneChain.System

open Lib Move PoolTokenExchangeRate StakingPool List World

variable (pool : StakingPool)

/-- A preactive pool: one token for one OCT, and nothing but stake in it. -/
structure Even : Prop where
  tokens : pool.poolTokenBalance = pool.suiBalance
  noWithdraw : pool.pendingTotalOctWithdraw = 0
  noTokenWithdraw : pool.pendingPoolTokenWithdraw = 0
  noRewards : pool.rewardsPool = 0
  noFungible : pool.fungibleStakedOctData = none

/-- The receipts up to `epoch`, the fungible supply and the booked withdrawals are covered. -/
def Covers (epoch : ℕ) (staked : List StakedOct) : Prop :=
  claimed pool.exchangeRates (epoch + 1) staked + pool.totalSupply
    + pool.pendingPoolTokenWithdraw ≤ pool.poolTokenBalance

/-- Once the pool is inactive, no receipt becomes active any more. -/
def Frozen (epoch : ℕ) (staked : List StakedOct) : Prop :=
  ∀ d, pool.deactivationEpoch = some d → pool.isPreactive = false →
    d ≤ epoch ∧ ∀ s ∈ staked, s.stakeActivationEpoch ≤ d

/-- The tokens of a pool between two turns. -/
structure TokensSound (epoch : ℕ) (staked : List StakedOct) : Prop where
  history : RateHistory pool epoch
  bound : pool.poolTokenBalance < u64Bound
  backed : 0 < pool.totalSupply → 0 < pool.fungiblePrincipal
  frozen : Frozen pool epoch staked
  even : pool.isPreactive = true → Even pool
  covers : pool.isPreactive = false → Covers pool epoch staked

/-- **The invariant between two turns.** -/
structure Solvent (w : World) : Prop where
  placed : w.Placed
  tokens : TokensSound w.pool w.epoch w.staked

/-! ## Pools -/

section Pools

variable {pool : StakingPool} {epoch stake : ℕ} {staked : List StakedOct} {s : StakedOct}

theorem Even.new (id : ID) : Even (StakingPool.new id) := ⟨rfl, rfl, rfl, rfl, rfl⟩

theorem Even.minted (h : Even pool) : Even (pool.withPending stake).minted := by
  refine { h with tokens := ?_ }
  show PoolTokenExchangeRate.tokens ⟨pool.suiBalance, pool.poolTokenBalance⟩
    (pool.suiBalance + (pool.pendingStake + stake)) = _
  rw [h.tokens, tokens_even]
  rfl

theorem Even.settled (h : Even pool) {principal : ℕ} :
    Even ((pool.withoutRewards 0).booked (principal + 0) principal).settled := by
  refine ⟨?_, rfl, rfl, ?_, h.noFungible⟩
  · show pool.poolTokenBalance - (pool.pendingPoolTokenWithdraw + principal) =
      pool.suiBalance - (pool.pendingTotalOctWithdraw + (principal + 0))
    rw [h.tokens, h.noWithdraw, h.noTokenWithdraw]
    omega
  · show pool.rewardsPool - 0 = 0
    rw [h.noRewards]

variable {rates : Table ℕ PoolTokenExchangeRate} {n : ℕ}

theorem claimed_erase_of_le (h : s ∈ staked) (hn : n ≤ s.stakeActivationEpoch) :
    claimed rates n (staked.erase s) = claimed rates n staked := by
  refine claimed_congr fun a ha => ?_
  have he := principalAt_erase (a := a) h
  rw [if_neg (by omega)] at he
  exact he

theorem claimed_cons_of_le (hn : n ≤ s.stakeActivationEpoch) :
    claimed rates n (s :: staked) = claimed rates n staked := by
  refine claimed_congr fun a ha => ?_
  rw [principalAt_cons, if_neg (by omega), Nat.zero_add]

/-- Receipts of the epochs there were before. -/
theorem Frozen.of_epochs {staked' : List StakedOct} (h : Frozen pool epoch staked)
    (hold : ∀ t ∈ staked', ∃ s ∈ staked, t.stakeActivationEpoch = s.stakeActivationEpoch) :
    Frozen pool epoch staked' := by
  intro d hd hpre
  refine ⟨(h d hd hpre).1, fun t ht => ?_⟩
  obtain ⟨s, hs, heq⟩ := hold t ht
  exact heq.trans_le ((h d hd hpre).2 s hs)

theorem Frozen.erase (h : Frozen pool epoch staked) : Frozen pool epoch (staked.erase s) :=
  h.of_epochs fun t ht => ⟨t, mem_of_mem_erase ht, rfl⟩

theorem Frozen.of_isInactive (h : pool.isInactive = false) : Frozen pool epoch staked := by
  intro d hd
  rw [isInactive, hd] at h
  cases h

/-- The rate at which an active receipt is withdrawn is that of its own epoch. -/
theorem lookup_of_frozen (hh : RateHistory pool epoch) (hf : Frozen pool epoch staked)
    (hpre : pool.isPreactive = false) (hmem : s ∈ staked) :
    pool.poolTokenExchangeRateAtEpoch s.stakeActivationEpoch =
      .ok (latest pool.exchangeRates s.stakeActivationEpoch) := by
  rw [hh.lookup_eq]
  cases hd : pool.deactivationEpoch with
  | none => rw [Option.getD_none, Nat.min_self]
  | some d =>
    have hle := (hf d hd hpre).2 s hmem
    rw [Option.getD_some, Nat.min_eq_right hle]

theorem lookup_of_preactive (hh : RateHistory pool epoch) (hpre : pool.isPreactive = true)
    (e : ℕ) : pool.poolTokenExchangeRateAtEpoch e = .ok initialExchangeRate := by
  have hn : pool.activationEpoch = none := by simpa [isPreactive] using hpre
  rw [hh.lookup_eq, latest_of_none fun i _ => hh.empty hn i]

section

variable (h : Covers pool epoch staked)
include h

theorem Covers.booked (hmem : s ∈ staked)
    (hact : s.stakeActivationEpoch ≤ epoch) (amount rewards : ℕ) :
    Covers ((pool.withoutRewards rewards).booked amount
      ((latest pool.exchangeRates s.stakeActivationEpoch).tokens s.principal)) epoch
      (staked.erase s) := by
  have he := claimed_erase pool.exchangeRates (n := epoch + 1) hmem (by omega)
  unfold Covers at h ⊢
  show claimed pool.exchangeRates (epoch + 1) (staked.erase s) + pool.totalSupply
    + (pool.pendingPoolTokenWithdraw + _) ≤ pool.poolTokenBalance
  omega

theorem Covers.of_claimed_eq {staked' : List StakedOct}
    (hc : claimed pool.exchangeRates (epoch + 1) staked'
      = claimed pool.exchangeRates (epoch + 1) staked) : Covers pool epoch staked' := by
  rwa [Covers, hc]

theorem Covers.settled : Covers pool.settled epoch staked := by
  unfold Covers at h ⊢
  show claimed pool.exchangeRates (epoch + 1) staked + pool.totalSupply + 0 ≤
    pool.poolTokenBalance - pool.pendingPoolTokenWithdraw
  omega

end

end Pools

namespace TokensSound

variable {pool pool' : StakingPool} {epoch stake : ℕ} {staked staked' : List StakedOct}
  {s other : StakedOct}

theorem new (id : ID) (epoch : ℕ) : TokensSound (StakingPool.new id) epoch [] where
  history := .new id epoch
  bound := by
    show 0 < u64Bound
    decide
  backed h := absurd h (Nat.lt_irrefl 0)
  frozen _ hd := nomatch hd
  even _ := .new id
  covers hpre := nomatch hpre

theorem of_active (hpre : pool.isPreactive = false) (hh : RateHistory pool epoch)
    (hbo : pool.poolTokenBalance < u64Bound)
    (hb : 0 < pool.totalSupply → 0 < pool.fungiblePrincipal) (hf : Frozen pool epoch staked)
    (hcov : Covers pool epoch staked) : TokensSound pool epoch staked :=
  ⟨hh, hbo, hb, hf, fun ht => absurd (hpre.symm.trans ht) (by simp), fun _ => hcov⟩

variable (h : TokensSound pool epoch staked)

include h

/-- New stake is taken in one to one by a preactive pool; otherwise its receipt is not active
before the next epoch. -/
theorem addStake (hina : pool.isInactive = false) (hact : s.stakeActivationEpoch = epoch + 1)
    (hb : (Validator.poolWithStake pool stake).poolTokenBalance < u64Bound) :
    TokensSound (Validator.poolWithStake pool stake) epoch (s :: staked) := by
  unfold Validator.poolWithStake at hb ⊢
  cases hpre : pool.isPreactive with
  | true =>
    rw [hpre] at hb
    refine ⟨h.history.of_eq rfl rfl, hb, h.backed, .of_isInactive hina,
      fun _ => (h.even hpre).minted, fun hf => ?_⟩
    exact absurd (hpre.symm.trans hf) (by simp)
  | false =>
    refine .of_active hpre (h.history.of_eq rfl rfl) h.bound h.backed (.of_isInactive hina) ?_
    exact (h.covers hpre).of_claimed_eq (claimed_cons_of_le hact.ge)

theorem handBack (hmem : s ∈ staked)
    (hact : epoch < s.stakeActivationEpoch) (hpre : pool.isPreactive = false) (pending : ℕ) :
    TokensSound { pool with pendingStake := pending } epoch (staked.erase s) := by
  refine .of_active hpre (h.history.of_eq rfl rfl) h.bound h.backed h.frozen.erase ?_
  exact (h.covers hpre).of_claimed_eq (claimed_erase_of_le hmem hact)

variable {rate : PoolTokenExchangeRate} {rewards : ℕ}

theorem withdraw (hmem : s ∈ staked)
    (hact : s.stakeActivationEpoch ≤ epoch ∨ pool.isPreactive = true)
    (hr : pool.poolTokenExchangeRateAtEpoch s.stakeActivationEpoch = .ok rate)
    (hrew : rewards ≤ pool.rewardsPool)
    (hb : pool' = (pool.withoutRewards rewards).booked (s.principal + rewards)
      (rate.tokens s.principal)) :
    TokensSound pool'.afterWithdraw epoch (staked.erase s) := by
  subst hb
  have ha : pool.isPreactive = false → Covers ((pool.withoutRewards rewards).booked
      (s.principal + rewards) (rate.tokens s.principal)) epoch (staked.erase s) := by
    intro hpre
    have hep : s.stakeActivationEpoch ≤ epoch := hact.resolve_right (by simp [hpre])
    obtain rfl := Except.ok.inj (hr.symm.trans (lookup_of_frozen h.history h.frozen hpre hmem))
    exact (h.covers hpre).booked hmem hep _ _
  unfold afterWithdraw
  split
  · refine ⟨h.history.of_eq rfl rfl, (Nat.sub_le _ _).trans_lt h.bound, h.backed,
      h.frozen.erase, fun hpre => ?_, fun hpre => (ha hpre).settled⟩
    -- a preactive pool pays no rewards, and one token for one OCT
    have he := h.even hpre
    obtain rfl : rewards = 0 := by
      have := he.noRewards
      omega
    obtain rfl := Except.ok.inj (hr.symm.trans (lookup_of_preactive h.history hpre _))
    exact he.settled
  · rename_i hl
    refine ⟨h.history.of_eq rfl rfl, h.bound, h.backed, h.frozen.erase, fun hpre => ?_, ha⟩
    exact absurd (.inr hpre) hl

theorem convert (hmem : s ∈ staked)
    (hact : s.stakeActivationEpoch ≤ epoch) (hpre : pool.isPreactive = false)
    (hr : pool.poolTokenExchangeRateAtEpoch s.stakeActivationEpoch = .ok rate) :
    TokensSound { pool with
      fungibleStakedOctData := some ⟨pool.totalSupply + rate.tokens s.principal,
        pool.fungiblePrincipal + s.principal⟩ } epoch (staked.erase s) := by
  obtain rfl := Except.ok.inj (hr.symm.trans (lookup_of_frozen h.history h.frozen hpre hmem))
  refine .of_active hpre (h.history.of_eq rfl rfl) h.bound ?_ h.frozen.erase ?_
  · intro hs
    show 0 < pool.fungiblePrincipal + s.principal
    rcases Nat.eq_zero_or_pos s.principal with hz | hpos
    · rw [hz, tokens_zero] at hs
      have := h.backed hs
      omega
    · omega
  · have hcov := h.covers hpre
    have he := claimed_erase pool.exchangeRates (n := epoch + 1) hmem (by omega)
    unfold Covers at hcov ⊢
    show claimed pool.exchangeRates (epoch + 1) (staked.erase s)
      + (pool.totalSupply + _) + pool.pendingPoolTokenWithdraw ≤ pool.poolTokenBalance
    omega

/-- Redeeming part of the supply leaves principal behind the rest. -/
theorem redeem {data : FungibleStakedOctData} {value total out : ℕ}
    (hd : pool.fungibleStakedOctData = some data) (hv : value ≤ data.totalSupply) :
    TokensSound (({ pool.withoutRewards rewards with
      fungibleStakedOctData := some ⟨data.totalSupply - value,
        data.principal - share value (min data.principal total) data.totalSupply⟩ }
      : StakingPool).booked out value) epoch staked := by
  have hs : pool.totalSupply = data.totalSupply := by
    simp [totalSupply, hd]
  have hp : pool.fungiblePrincipal = data.principal := by
    simp [fungiblePrincipal, hd]
  have ha : pool.isPreactive = false := by
    cases hpre : pool.isPreactive with
    | false => rfl
    | true => exact absurd ((h.even hpre).noFungible.symm.trans hd) (by simp)
  refine .of_active ha (h.history.of_eq rfl rfl) h.bound ?_ h.frozen ?_
  · intro hl
    replace hl : 0 < data.totalSupply - value := hl
    show 0 < data.principal - share value (min data.principal total) data.totalSupply
    have hpos : 0 < data.principal := hp ▸ h.backed (by omega)
    have hlt : share value (min data.principal total) data.totalSupply < data.principal := by
      rcases Nat.eq_zero_or_pos (min data.principal total) with hz | hmin
      · rw [hz, share_zero]
        exact hpos
      · rw [share_comm]
        exact (share_lt hmin (by omega)).trans_le (Nat.min_le_left _ _)
    omega
  · have hcov := h.covers ha
    unfold Covers at hcov ⊢
    show claimed pool.exchangeRates (epoch + 1) staked + (data.totalSupply - value)
      + (pool.pendingPoolTokenWithdraw + value) ≤ pool.poolTokenBalance
    omega

theorem deposit (hpre : pool.isPreactive = false) (reward : ℕ) :
    TokensSound { pool with
      suiBalance := pool.suiBalance + reward
      rewardsPool := pool.rewardsPool + reward } epoch staked :=
  .of_active hpre (h.history.of_eq rfl rfl) h.bound h.backed h.frozen (h.covers hpre)

theorem of_claimed_eq
    (hold : ∀ t ∈ staked', ∃ s ∈ staked, t.stakeActivationEpoch = s.stakeActivationEpoch)
    (hc : claimed pool.exchangeRates (epoch + 1) staked'
      = claimed pool.exchangeRates (epoch + 1) staked) : TokensSound pool epoch staked' :=
  { h with
    frozen := h.frozen.of_epochs hold
    covers := fun hpre => (h.covers hpre).of_claimed_eq hc }

theorem split {amount : ℕ} (hmem : s ∈ staked) (hle : amount ≤ s.principal) :
    TokensSound pool epoch ({ s with principal := s.principal - amount } ::
      { s with principal := amount } :: staked.erase s) := by
  refine h.of_claimed_eq ?_ (claimed_split hmem hle)
  rw [forall_mem_cons, forall_mem_cons]
  exact ⟨⟨s, hmem, rfl⟩, ⟨s, hmem, rfl⟩, fun t ht => ⟨t, mem_of_mem_erase ht, rfl⟩⟩

theorem join (hs : s ∈ staked) (ho : other ∈ staked.erase s)
    (hact : s.stakeActivationEpoch = other.stakeActivationEpoch) :
    TokensSound pool epoch ({ s with principal := s.principal + other.principal } ::
      (staked.erase s).erase other) := by
  refine h.of_claimed_eq ?_ (claimed_join hs ho hact)
  rw [forall_mem_cons]
  exact ⟨⟨s, hs, rfl⟩, fun t ht => ⟨t, mem_of_mem_erase (mem_of_mem_erase ht), rfl⟩⟩

/-! ### Epoch boundaries -/

/-- The end of an epoch: the booked withdrawals go out, the pending stake comes in, and the new
rate is entered for the receipts that become active with it. -/
theorem process (hpre : pool.isPreactive = false) (hina : pool.isInactive = false)
    (hp : principalAt (epoch + 1) staked = pool.pendingStake)
    (hd : pool.suiBalance - pool.pendingTotalOctWithdraw = 0 →
      claimed pool.exchangeRates (epoch + 1) staked + pool.totalSupply = 0)
    (hb : pool.settled.minted.poolTokenBalance < u64Bound) :
    TokensSound (pool.settled.minted.withRate (epoch + 1)) (epoch + 1) staked := by
  have hh : RateHistory pool.settled.minted epoch := h.history.of_eq rfl rfl
  refine .of_active hpre (hh.withRate hpre) hb h.backed (.of_isInactive hina) ?_
  have hcov := h.covers hpre
  unfold Covers at hcov ⊢
  set rates := (pool.settled.minted.withRate (epoch + 1)).exchangeRates
  -- earlier epochs see the rates they saw before
  have hold : claimed rates (epoch + 1) staked = claimed pool.exchangeRates (epoch + 1) staked :=
    Finset.sum_congr rfl fun a ha => by
      have hlat : latest rates a = latest pool.exchangeRates a :=
        latest_set_of_lt (Finset.mem_range.1 ha)
      rw [hlat]
  have hnew : latest rates (epoch + 1) = pool.settled.minted.currentRate := latest_set_self
  have hs : claimed rates (epoch + 1 + 1) staked = claimed rates (epoch + 1) staked
        + (latest rates (epoch + 1)).tokens (principalAt (epoch + 1) staked) :=
    Finset.sum_range_succ _ _
  have hr := mint_room (d := pool.pendingStake)
    (t := pool.poolTokenBalance - pool.pendingPoolTokenWithdraw) (by omega) hd
  rw [hs, hold, hnew, hp]
  show _ + pool.totalSupply + 0 ≤ _
  rw [Nat.add_zero, Nat.add_right_comm]
  exact hr

/-- Deactivation, at an epoch after which no receipt becomes active. -/
theorem deactivate {d : ℕ} (hf : Frozen { pool with deactivationEpoch := some d } epoch staked) :
    TokensSound { pool with deactivationEpoch := some d } epoch staked := by
  exact { h with
    history := h.history.of_eq rfl rfl
    frozen := hf
    even := fun hpre => { h.even hpre with } }

/-- Activation: all receipts count at the initial rate. -/
theorem activate (hpre : pool.isPreactive = true) (hina : pool.isInactive = false)
    (hn : epoch ≤ n) (hsoon : ∀ s ∈ staked, s.stakeActivationEpoch ≤ n)
    (hprinc : tally (·.principal) staked = pool.suiBalance) :
    TokensSound (pool.activated epoch) n staked := by
  have heven := h.even hpre
  have hempty : ∀ e, pool.exchangeRates e = none :=
    h.history.empty (by simpa [isPreactive] using hpre)
  have hhist := h.history.activate hpre
  refine ⟨⟨hhist.empty, hhist.first, ?_, ?_⟩, h.bound, h.backed, .of_isInactive hina, ?_,
    fun _ => ?_⟩
  · exact fun a ha => (hhist.started a ha).trans hn
  · exact fun a e r ha he =>
      ⟨(hhist.within a e r ha he).1, (hhist.within a e r ha he).2.trans hn⟩
  · intro htrue
    cases htrue
  · have hclaimed : claimed (pool.exchangeRates.set epoch initialExchangeRate) (n + 1) staked
        = tally (·.principal) staked :=
      claimed_initial (fun a _ => latest_set_initial hempty) fun s hs =>
        Nat.lt_succ_of_le (hsoon s hs)
    have hsupply : pool.totalSupply = 0 := by
      simp [totalSupply, heven.noFungible]
    unfold Covers
    show claimed (pool.exchangeRates.set epoch initialExchangeRate) (n + 1) staked
      + pool.totalSupply + pool.pendingPoolTokenWithdraw ≤ pool.poolTokenBalance
    rw [heven.noTokenWithdraw, heven.tokens]
    omega

theorem skip (hi : pool.isPreactive = true ∨ pool.isInactive = true) :
    TokensSound pool (epoch + 1) staked := by
  refine ⟨h.history.nextEpoch, h.bound, h.backed, ?_, h.even, fun hpre => ?_⟩
  · intro d hd hpre
    have := h.frozen d hd hpre
    exact ⟨this.1.trans (Nat.le_succ _), this.2⟩
  · have hina : pool.isInactive = true := hi.resolve_left (by simp [hpre])
    obtain ⟨d, hd⟩ := Option.isSome_iff_exists.1 hina
    have ⟨hle, hf⟩ := h.frozen d hd hpre
    have hnob : principalAt (epoch + 1) staked = 0 := by
      refine tally_eq_zero fun s hs => ?_
      have := hf s hs
      rw [if_neg (by omega)]
    have hcov := h.covers hpre
    unfold Covers at hcov ⊢
    have hsp : claimed pool.exchangeRates (epoch + 1 + 1) staked
        = claimed pool.exchangeRates (epoch + 1) staked
          + (latest pool.exchangeRates (epoch + 1)).tokens (principalAt (epoch + 1) staked) :=
      Finset.sum_range_succ _ _
    rw [hsp, hnob, tokens_zero]
    exact hcov

end TokensSound

/-! ## Turns -/

/-- The turns the invariant is about: an active pool is processed at the end of every epoch, and
rewards go to active validators (`validator_set::distribute_reward`). -/
def Turn.Regular (w : World) (t : Turn) : Prop :=
  t.Legal w ∧
    match t with
    | .skipEpoch => w.pool.isPreactive = true ∨ w.pool.isInactive = true
    | .request (.depositRewards _) => w.pool.isPreactive = false ∧ w.pool.isInactive = false
    | _ => True

namespace Solvent

variable {w w' : World}

theorem of_fresh (h : w.Fresh) : Solvent w := by
  obtain ⟨poolId, hp⟩ := h.pool_eq
  refine ⟨h.placed, ?_⟩
  rw [hp, h.staked]
  exact .new poolId w.epoch

variable (hw : Solvent w)

include hw

theorem request {r : Request} (hr : (Turn.request r).Regular w) (h : w.request r = .ok w') :
    Solvent w' := by
  refine ⟨hw.placed.request h, ?_⟩
  cases effect_of_request h with
  | addStake hina hb => exact hw.tokens.addStake hina rfl (hb hw.tokens.bound)
  | handBack hmem hact hpre => exact hw.tokens.handBack hmem hact hpre _
  | withdraw hmem hact hrate hrew hpool => exact hw.tokens.withdraw hmem hact hrate hrew hpool
  | convert hmem _ hact hpre hrate => exact hw.tokens.convert hmem hact hpre hrate
  | redeem hdata hvalue hpr =>
    subst hpr
    exact hw.tokens.redeem hdata hvalue
  | split hmem hle => exact hw.tokens.split hmem hle
  | join hs ho hact => exact hw.tokens.join hs ho hact
  | splitFungible | joinFungible | setOnlyValidatorStaking => exact hw.tokens
  | depositRewards => exact hw.tokens.deposit hr.2.1 _

/-- A preactive pool holds exactly the principals of its receipts. -/
theorem principals_eq (hpre : w.pool.isPreactive = true) :
    tally (·.principal) w.staked = w.pool.suiBalance := by
  have he := hw.tokens.even hpre
  have hass := hw.placed.books.assets
  have hp := hw.placed.queued.preactive hpre
  have hf : w.pool.fungiblePrincipal = 0 := by
    simp [fungiblePrincipal, he.noFungible]
  rw [he.noWithdraw, he.noRewards] at hass
  show w.principals = _
  omega

/-- The stake that becomes active with the next epoch. -/
theorem principalAt_next (hpre : w.pool.isPreactive = false) :
    principalAt (w.epoch + 1) w.staked = w.pool.pendingStake := by
  rw [hw.placed.queued.pending hpre]
  refine tally_congr fun s hs => ?_
  have hso := hw.placed.queued.soon s hs
  unfold StakedOct.pendingAt
  by_cases hact : s.stakeActivationEpoch = w.epoch + 1
  · rw [if_pos hact, if_pos (by omega)]
  · rw [if_neg hact, if_neg (by omega)]

/-- Where the balance is used up, only dust is left in tokens: nobody claims any. -/
theorem claimed_of_empty (hpre : w.pool.isPreactive = false)
    (he : w.pool.suiBalance - w.pool.pendingTotalOctWithdraw = 0) :
    claimed w.pool.exchangeRates (w.epoch + 1) w.staked + w.pool.totalSupply = 0 := by
  have hass := hw.placed.books.assets
  have hp := hw.placed.queued.pending hpre
  have hac : ∀ a < w.epoch + 1, principalAt a w.staked = 0 := by
    intro a ha
    have hsum : principalAt a w.staked + tally (·.pendingAt w.epoch) w.staked ≤ w.principals := by
      unfold principalAt
      rw [← tally_add]
      refine tally_le_tally fun s _ => ?_
      unfold StakedOct.pendingAt
      split <;> split <;> omega
    omega
  have hc : claimed w.pool.exchangeRates (w.epoch + 1) w.staked = 0 :=
    Finset.sum_eq_zero fun a ha => by
      rw [hac a (Finset.mem_range.1 ha), tokens_zero]
  have hs : w.pool.totalSupply = 0 := by
    have hb : tally (·.pendingAt w.epoch) w.staked ≤ w.principals :=
      tally_le_tally fun s _ => s.pendingAt_le w.epoch
    rcases Nat.eq_zero_or_pos w.pool.totalSupply with hz | hpos
    · exact hz
    · have := hw.tokens.backed hpos
      omega
  rw [hc, hs]

theorem processPending (ha : Turn.endEpoch.Legal w) (h : w.exec .processPending = .ok w') :
    TokensSound w'.pool (w.epoch + 1) w'.staked ∧ w'.epoch = w.epoch ∧ w'.staked = w.staked := by
  obtain ⟨hpre, hina⟩ := ha
  obtain ⟨_, hb, rfl⟩ := processPending_ok h
  exact ⟨hw.tokens.process hpre hina (hw.principalAt_next hpre) (hw.claimed_of_empty hpre) hb,
    rfl, rfl⟩

theorem endEpoch (ha : Turn.endEpoch.Legal w) (h : schedule.step w .endEpoch = .ok w') :
    Solvent w' := by
  refine ⟨hw.placed.endEpoch h, ?_⟩
  rw [turn_endEpoch, bind_ok] at h
  obtain ⟨w₁, hp, hn⟩ := h
  obtain ⟨ht, he, _⟩ := hw.processPending ha hp
  cases hn
  rw [← he] at ht
  exact ht

theorem leave (ha : Turn.leave.Legal w) (h : schedule.step w .leave = .ok w') : Solvent w' := by
  refine ⟨hw.placed.leave h, ?_⟩
  simp only [turn_leave, bind_ok] at h
  obtain ⟨w₁, hp, w₂, hde, hn⟩ := h
  obtain ⟨ht, he, hst⟩ := hw.processPending ha hp
  obtain rfl := deactivate_ok hde
  cases hn
  have hf : Frozen { w₁.pool with deactivationEpoch := some (w.epoch + 1) } (w.epoch + 1)
      w₁.staked := by
    intro d hd _
    obtain rfl := Option.some.inj hd
    rw [hst]
    exact ⟨le_rfl, hw.placed.queued.soon⟩
  have hs := ht.deactivate hf
  rw [← he] at hs ⊢
  exact hs

theorem enter (h : schedule.step w .enter = .ok w') : Solvent w' := by
  refine ⟨hw.placed.enter h, ?_⟩
  rw [turn_enter, bind_ok] at h
  obtain ⟨w₁, ha, hn⟩ := h
  obtain ⟨hpre, hina, rfl⟩ := activate_ok ha
  cases hn
  exact hw.tokens.activate hpre hina (Nat.le_succ _) hw.placed.queued.soon (hw.principals_eq hpre)

theorem removeCandidate (hpre : w.pool.isPreactive = true)
    (h : schedule.step w .removeCandidate = .ok w') : Solvent w' := by
  refine ⟨hw.placed.removeCandidate h, ?_⟩
  rw [turn_removeCandidate] at h
  obtain rfl := deactivate_ok h
  refine hw.tokens.deactivate ?_
  intro _ _ hf
  exact absurd (hpre.symm.trans hf) (by simp)

theorem stakeAtGenesis {stake : ℕ} {lock : Bool} (hs : w.AtGenesis)
    (h : w.exec (.stakeAtGenesis stake lock) = .ok w') : Solvent w' := by
  refine ⟨(hs.stakeAtGenesis h).placed, ?_⟩
  obtain ⟨_, _, hina, rfl, hb⟩ := stakeAtGenesis_ok h
  have hpre := hs.preactive
  refine ⟨hw.tokens.history.of_eq rfl rfl, hb, hw.tokens.backed, .of_isInactive hina,
    fun _ => (hw.tokens.even hpre).minted, fun hf => ?_⟩
  exact absurd (hpre.symm.trans hf) (by simp)

theorem genesis {stakes : List ℕ} (hlegal : (Turn.genesis stakes).Legal w)
    (h : schedule.step w (.genesis stakes) = .ok w') : Solvent w' := by
  refine ⟨hw.placed.genesis hlegal h, ?_⟩
  obtain ⟨hepoch, hstaked, hpre⟩ := hlegal
  have hstart : w.AtGenesis ∧ Solvent w := ⟨⟨hw.placed, hepoch, hpre, by simp [hstaked]⟩, hw⟩
  rw [turn_genesis, bind_ok] at h
  obtain ⟨w₁, hstakes, hactivate⟩ := h
  have hw₁ : w₁.AtGenesis ∧ Solvent w₁ := by
    refine foldlM_induction (P := fun u => u.AtGenesis ∧ Solvent u) ?_ hstart hstakes
    rintro u u' op hop ⟨hu, hsolv⟩ hstep
    obtain ⟨stake, _, rfl⟩ := mem_map.1 hop
    exact ⟨hu.stakeAtGenesis hstep, hsolv.stakeAtGenesis hu hstep⟩
  obtain ⟨hpre₁, hina, rfl⟩ := activate_ok hactivate
  have hsoon : ∀ s ∈ w₁.staked, s.stakeActivationEpoch ≤ 0 := fun s hs =>
    (hw₁.1.active s hs).le
  have htokens := hw₁.2.tokens
  have hprinc := hw₁.2.principals_eq hpre₁
  rw [hw₁.1.epoch] at htokens
  have hsound := htokens.activate hpre₁ hina le_rfl hsoon hprinc
  show TokensSound _ w₁.epoch w₁.staked
  rw [hw₁.1.epoch]
  exact hsound

theorem turn {t : Turn} (ht : t.Regular w) (h : schedule.step w t = .ok w') : Solvent w' := by
  cases t with
  | request r =>
    rw [turn_request] at h
    exact hw.request ht h
  | genesis stakes => exact hw.genesis ht.1 h
  | removeCandidate => exact hw.removeCandidate ht.1 h
  | endEpoch => exact hw.endEpoch ht.1 h
  | leave => exact hw.leave ht.1 h
  | enter => exact hw.enter h
  | skipEpoch =>
    have hi := ht.2
    have hp : w.pool.isPreactive = true ∨ w.pool.pendingStake = 0 := by
      rcases hi with hpre | hina
      · exact .inl hpre
      · cases hpre : w.pool.isPreactive with
        | true => exact .inl rfl
        | false =>
          -- nothing is pending in an inactive pool: its receipts are all active
          right
          obtain ⟨d, hd⟩ := Option.isSome_iff_exists.1 hina
          have ⟨hle, hf⟩ := hw.tokens.frozen d hd hpre
          rw [hw.placed.queued.pending hpre]
          refine tally_eq_zero fun s hs => ?_
          have := hf s hs
          rw [StakedOct.pendingAt, if_neg (by omega)]
    refine ⟨hw.placed.turn (t := .skipEpoch) trivial hp h, ?_⟩
    cases h
    exact hw.tokens.skip hi

end Solvent

theorem solvent_of_reach {w : World} (h : schedule.Reach (fun w t => t.Regular w) w) : Solvent w :=
  h.invariant (fun _ hw => .of_fresh hw) fun _ _ _ hw ht hs => hw.turn ht hs

/-! ## What the invariant gives -/

/-- The pool tokens of a receipt: `get_token_amount` at the rate of its activation epoch. -/
def StakingPool.tokensOf (pool : StakingPool) (s : StakedOct) : Call ℕ := do
  let rate ← pool.poolTokenExchangeRateAtEpoch s.stakeActivationEpoch
  rate.getTokenAmount s.principal

namespace World

/-- The receipts that are active in the current epoch. -/
def activeStake (w : World) : List StakedOct :=
  w.staked.filter fun s => s.stakeActivationEpoch ≤ w.epoch

theorem claimed_activeStake (w : World) (rates : Table ℕ PoolTokenExchangeRate) :
    claimed rates (w.epoch + 1) w.activeStake = claimed rates (w.epoch + 1) w.staked := by
  refine claimed_congr fun a ha => ?_
  unfold principalAt activeStake
  rw [tally_filter]
  refine tally_congr fun s _ => ?_
  by_cases hact : s.stakeActivationEpoch = a
  · rw [if_pos (by simp only [decide_eq_true_eq]; omega)]
  · rw [if_neg hact, ite_self]

end World

namespace Solvent

variable {w : World}

variable (hw : Solvent w)

include hw

theorem pending_le : w.pool.pendingPoolTokenWithdraw ≤ w.pool.poolTokenBalance := by
  cases hpre : w.pool.isPreactive with
  | true =>
    rw [(hw.tokens.even hpre).noTokenWithdraw]
    exact Nat.zero_le _
  | false =>
    have hcov := hw.tokens.covers hpre
    unfold Covers at hcov
    omega

/-- Each active receipt has a rate, and together the receipts are covered. -/
theorem active_covered : ∃ rate : StakedOct → PoolTokenExchangeRate,
      (∀ s ∈ w.activeStake, w.pool.poolTokenExchangeRateAtEpoch s.stakeActivationEpoch
        = .ok (rate s)) ∧
      tally (fun s => (rate s).tokens s.principal) w.activeStake + w.pool.totalSupply
        + w.pool.pendingPoolTokenWithdraw ≤ w.pool.poolTokenBalance := by
  have hmem : ∀ s ∈ w.activeStake, s ∈ w.staked ∧ s.stakeActivationEpoch < w.epoch + 1 := by
    intro s hs
    have ⟨hs, hact⟩ := mem_filter.1 hs
    exact ⟨hs, by simpa [Nat.lt_succ_iff] using hact⟩
  cases hpre : w.pool.isPreactive with
  | true =>
    refine ⟨fun _ => initialExchangeRate,
      fun s _ => lookup_of_preactive hw.tokens.history hpre _, ?_⟩
    have he := hw.tokens.even hpre
    have hsu : w.pool.totalSupply = 0 := by simp [totalSupply, he.noFungible]
    have ha : tally (·.principal) w.activeStake ≤ tally (·.principal) w.staked := by
      unfold activeStake
      rw [tally_filter]
      refine tally_le_tally fun s _ => ?_
      split <;> omega
    have hp := hw.principals_eq hpre
    simp only [tokens_initial]
    rw [he.noTokenWithdraw, he.tokens]
    omega
  | false =>
    refine ⟨fun s => latest w.pool.exchangeRates s.stakeActivationEpoch,
      fun s hs => lookup_of_frozen hw.tokens.history hw.tokens.frozen hpre (hmem s hs).1, ?_⟩
    have hle := tally_tokens_le w.pool.exchangeRates fun s hs => (hmem s hs).2
    rw [w.claimed_activeStake] at hle
    have hcov := hw.tokens.covers hpre
    unfold Covers at hcov
    simp only
    omega

theorem poolWithdraw_ne_underflow {s : StakedOct} (hmem : s ∈ w.staked) :
    w.pool.requestWithdrawStake s w.epoch ≠ .error (.underflow .poolTokenBalance) := by
  intro h
  rcases requestWithdrawStake_underflow (by decide) h with
    ⟨_, _, _, hcode⟩ | ⟨hact, rate, rewards, hrate, hrew, h⟩
  · cases hcode
  rcases processIfNotActive_error h with ⟨_, hcode⟩ | ⟨hlt, _⟩
  · cases hcode
  replace hlt : w.pool.poolTokenBalance
    < w.pool.pendingPoolTokenWithdraw + rate.tokens s.principal := hlt
  cases hpre : w.pool.isPreactive with
  | true =>
    obtain rfl := Except.ok.inj (hrate.symm.trans (lookup_of_preactive hw.tokens.history hpre _))
    have heven := hw.tokens.even hpre
    have hle := le_tally (f := (·.principal)) hmem
    rw [hw.principals_eq hpre] at hle
    rw [tokens_initial, heven.noTokenWithdraw, heven.tokens] at hlt
    omega
  | false =>
    have hepoch : s.stakeActivationEpoch ≤ w.epoch := hact.resolve_right (by simp [hpre])
    obtain rfl := Except.ok.inj
      (hrate.symm.trans (lookup_of_frozen hw.tokens.history hw.tokens.frozen hpre hmem))
    have hcov := hw.tokens.covers hpre
    have herase := claimed_erase w.pool.exchangeRates (n := w.epoch + 1) hmem
    unfold Covers at hcov
    omega

/-- No turn takes the token balance below zero. -/
theorem turn_ne_underflow {t : Turn} :
    schedule.step w t ≠ .error (.underflow .poolTokenBalance) := by
  intro h
  rcases hw.placed.books.turn_underflow (by decide) h with ⟨s, hmem, h⟩ | h
  · exact hw.poolWithdraw_ne_underflow hmem h
  · have hle := hw.pending_le
    rcases exec_processPending_underflow (by decide) h with ⟨_, hc⟩ | ⟨hlt, _⟩
    · cases hc
    · omega

/-- **The rate entered at an epoch boundary matches the balances.** -/
theorem checkBalanceInvariants_ok {pool₁ pool₂ : StakingPool} (ha : Turn.endEpoch.Legal w)
    (h₁ : w.pool.processPendingStakeWithdraw = .ok pool₁)
    (h₂ : pool₁.processPendingStake = .ok pool₂) :
    (pool₂.withRate (w.epoch + 1)).checkBalanceInvariants (w.epoch + 1) = .ok () := by
  obtain ⟨hpre, hina⟩ := ha
  obtain ⟨_, _, rfl⟩ := processPendingStakeWithdraw_ok.1 h₁
  obtain ⟨rfl, _, hb⟩ := processPendingStake_ok h₂
  have hn : w.pool.deactivationEpoch = none := by simpa [isInactive] using hina
  set pool := w.pool.settled.minted.withRate (w.epoch + 1) with hp
  have hh : RateHistory pool (w.epoch + 1) :=
    RateHistory.withRate (hw.tokens.history.of_eq rfl rfl) hpre
  have hr : pool.poolTokenExchangeRateAtEpoch (w.epoch + 1)
      = .ok w.pool.settled.minted.currentRate := by
    rw [hh.lookup_eq, show pool.deactivationEpoch = none from hn, Option.getD_none, Nat.min_self]
    exact congrArg _ latest_set_self
  have ht : w.pool.settled.minted.currentRate.tokens pool.suiBalance
      = pool.poolTokenBalance := tokens_mint
  have ham : w.pool.settled.minted.currentRate.getTokenAmount pool.suiBalance
      = .ok pool.poolTokenBalance := by
    rw [← ht]
    exact getTokenAmount_of_lt (ht.symm ▸ hb)
  unfold checkBalanceInvariants
  rw [hr, ok_bind, ham]
  exact check_of rfl

/-- The processing at the end of an epoch fails only if a sum leaves the range of `u64`. -/
theorem processPending_error {e : Abort} (ha : Turn.endEpoch.Legal w)
    (h : w.exec .processPending = .error e) : e = .overflow := by
  simp only [exec, Validator.processPendingStakesAndWithdraws, bind_error, pure_ok,
    reduceCtorEq, and_false, exists_false, or_false] at h
  unfold processPendingStakesAndWithdraws at h
  rcases bind_error.1 h with h | ⟨_, hnew, h⟩
  · exact addU64_error h
  obtain ⟨_, rfl⟩ := addU64_ok.1 hnew
  rcases bind_error.1 h with h | ⟨pool₁, h₁, h⟩
  · have hsui := hw.placed.withdraw_le
    have htok := hw.pending_le
    rcases processPendingStakeWithdraw_error h with ⟨hlt, _⟩ | ⟨hlt, _⟩
    · exact absurd hsui (by simpa [pool] using hlt)
    · exact absurd htok (by simpa [pool] using hlt)
  rcases bind_error.1 h with h | ⟨pool₂, h₂, h⟩
  · exact processPendingStake_error h
  have hc := hw.checkBalanceInvariants_ok ha h₁ h₂
  have he : pool₂.exchangeRates (w.epoch + 1) = none := by
    obtain ⟨_, _, rfl⟩ := processPendingStakeWithdraw_ok.1 h₁
    obtain ⟨rfl, _, _⟩ := processPendingStake_ok h₂
    exact hw.tokens.history.next_none
  rw [Table.add, check_of he] at h
  simp only [ok_bind, pure_ok] at h
  rcases bind_error.1 h with h | ⟨_, _, h⟩
  · exact absurd (hc.symm.trans h) (by simp)
  · cases h

end Solvent

/-- **Pool-token solvency.** The tokens of the active receipts and the fungible supply fit into
the balance less what is booked, so no turn underflows the token balance, and the end of an epoch
finds the balances at the rate it enters. -/
theorem pool_tokens_solvent {w : World} (h : schedule.Reach (fun w t => t.Regular w) w) :
    (∃ ts, w.activeStake.mapM w.pool.tokensOf = .ok ts ∧
      w.pool.pendingPoolTokenWithdraw ≤ w.pool.poolTokenBalance ∧
      ts.sum + w.pool.totalSupply ≤ w.pool.poolTokenBalance - w.pool.pendingPoolTokenWithdraw) ∧
    (∀ t, schedule.step w t ≠ .error (.underflow .poolTokenBalance)) ∧
    (Turn.endEpoch.Legal w → (∀ pool₁ pool₂, w.pool.processPendingStakeWithdraw = .ok pool₁ →
        pool₁.processPendingStake = .ok pool₂ →
        (pool₂.withRate (w.epoch + 1)).checkBalanceInvariants (w.epoch + 1) = .ok ()) ∧
      ∀ e, w.exec .processPending = .error e → e = .overflow) := by
  have hw := solvent_of_reach h
  refine ⟨?_, fun t => hw.turn_ne_underflow, fun ha => ⟨fun _ _ h₁ h₂ =>
    hw.checkBalanceInvariants_ok ha h₁ h₂, fun e he => hw.processPending_error ha he⟩⟩
  obtain ⟨rate, hr, hc⟩ := hw.active_covered
  refine ⟨w.activeStake.map fun s => (rate s).tokens s.principal, ?_, hw.pending_le, ?_⟩
  · rw [mapM_eq_ok, forall₂_map_right_iff, forall₂_same]
    intro s hs
    have hlt : (rate s).tokens s.principal < u64Bound := by
      have hle := le_tally (f := fun s => (rate s).tokens s.principal) hs
      have hb := hw.tokens.bound
      omega
    unfold tokensOf
    rw [hr s hs]
    exact getTokenAmount_of_lt hlt
  · have hsum : (w.activeStake.map fun s => (rate s).tokens s.principal).sum
        = tally (fun s => (rate s).tokens s.principal) w.activeStake := rfl
    omega

/-- A pool after one epoch with rewards: two receipts at different rates, both covered. -/
theorem pool_tokens_solvent_blank :
    ∃ w : World, w.activeStake.length = 2 ∧ w.pool.suiBalance = 3500000001 ∧
      ∃ ts, w.activeStake.mapM w.pool.tokensOf = .ok ts ∧ ts.sum + w.pool.totalSupply ≤
          w.pool.poolTokenBalance - w.pool.pendingPoolTokenWithdraw := by
  have hr : schedule.Reach (fun w t => t.Regular w) _ :=
    .step .endEpoch
      (.step (.request (.depositRewards 500000001)) (.step (.request (.addStake 2000000000 true))
          (.step (.genesis [1000000000]) (.init blank_fresh) ⟨⟨rfl, rfl, rfl⟩, trivial⟩ rfl)
          ⟨trivial, trivial⟩ rfl)
        ⟨trivial, rfl, rfl⟩ rfl)
      ⟨⟨rfl, rfl⟩, trivial⟩ rfl
  obtain ⟨⟨ts, hts, _, hle⟩, _⟩ := pool_tokens_solvent hr
  exact ⟨_, rfl, rfl, ts, hts, hle⟩

end OneChain.System
