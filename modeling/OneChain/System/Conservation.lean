import OneChain.System.Ledger

/-!
# Conservation of stake

The pool keeps no list of its receipts. Its books balance all the same: what it accounts for
(`suiBalance` and `pendingStake`) is what it owes, namely the withdrawals booked for the end of
the epoch, the principals held by stakers, the rewards and the principal behind the fungible
receipts. The validator's `nextEpochStake` is that sum less the booked withdrawals.

* `books_of_reach` — both equations, in every order of the calls.
* `Placed` — where the pending stake is: in the receipts that are not active yet. This is what
  keeps the subtractions above zero, and it survives every turn except an epoch change that
  leaves pending stake behind.
-/

namespace OneChain.System

open Lib Move List StakingPool StakedOct World

/-! ## The two equations -/

/-- The pool's books, against principals `held` outside and the validator's `nextStake`. -/
structure Balanced (pool : StakingPool) (held nextStake : ℕ) : Prop where
  assets : pool.suiBalance + pool.pendingStake =
    pool.pendingTotalOctWithdraw + held + pool.rewardsPool + pool.fungiblePrincipal
  nextStake : nextStake + pool.pendingTotalOctWithdraw = pool.suiBalance + pool.pendingStake

namespace Balanced

variable {pool : StakingPool} {held next : ℕ}

theorem new (id : ID) : Balanced (StakingPool.new id) 0 0 := ⟨rfl, rfl⟩

section

variable (h : Balanced pool held next)
include h

theorem withPending (stake : ℕ) :
    Balanced (pool.withPending stake) (stake + held) (next + stake) := by
  have ⟨ha, hn⟩ := h
  constructor
  · show pool.suiBalance + (pool.pendingStake + stake) =
      pool.pendingTotalOctWithdraw + (stake + held) + pool.rewardsPool + pool.fungiblePrincipal
    omega
  · show next + stake + pool.pendingTotalOctWithdraw = pool.suiBalance + (pool.pendingStake + stake)
    omega

theorem minted : Balanced pool.minted held next := by
  have ⟨ha, hn⟩ := h
  constructor
  · show pool.suiBalance + pool.pendingStake + 0 =
      pool.pendingTotalOctWithdraw + held + pool.rewardsPool + pool.fungiblePrincipal
    omega
  · show next + pool.pendingTotalOctWithdraw = pool.suiBalance + pool.pendingStake + 0
    omega

theorem settled
    (hle : pool.pendingTotalOctWithdraw ≤ pool.suiBalance) : Balanced pool.settled held next := by
  have ⟨ha, hn⟩ := h
  constructor
  · show pool.suiBalance - pool.pendingTotalOctWithdraw + pool.pendingStake =
      0 + held + pool.rewardsPool + pool.fungiblePrincipal
    omega
  · show next + 0 = pool.suiBalance - pool.pendingTotalOctWithdraw + pool.pendingStake
    omega

end

/-- Booking the withdrawal of a principal and some rewards. -/
theorem booked {principal rewards : ℕ} (tokens : ℕ) (h : Balanced pool (held + principal) next)
    (hle : rewards ≤ pool.rewardsPool) :
    Balanced ((pool.withoutRewards rewards).booked (principal + rewards) tokens) held
      (next - (principal + rewards)) := by
  have ⟨ha, hn⟩ := h
  constructor
  · show pool.suiBalance + pool.pendingStake =
      pool.pendingTotalOctWithdraw + (principal + rewards) + held + (pool.rewardsPool - rewards)
        + pool.fungiblePrincipal
    omega
  · show next - (principal + rewards) + (pool.pendingTotalOctWithdraw + (principal + rewards)) =
      pool.suiBalance + pool.pendingStake
    omega

/-- What can be withdrawn counts in the next epoch's stake. -/
theorem le_nextStake {principal rewards : ℕ} (h : Balanced pool (held + principal) next)
    (hle : rewards ≤ pool.rewardsPool) : principal + rewards ≤ next := by
  have ⟨ha, hn⟩ := h
  omega

end Balanced

namespace World

/-- The principals of all receipts. -/
def principals (w : World) : ℕ := tally (·.principal) w.staked

def Books (w : World) : Prop := Balanced w.pool w.principals w.validator.nextEpochStake

variable {w w' : World}

theorem Fresh.books (h : w.Fresh) : w.Books := by
  obtain ⟨poolId, hp⟩ := h.pool_eq
  unfold Books principals
  rw [hp, h.staked, h.nextEpochStake]
  exact .new poolId

variable {s : StakedOct}

theorem principals_erase (h : s ∈ w.staked) :
    tally (·.principal) (w.staked.erase s) + s.principal = w.principals :=
  tally_erase_add h

variable (hb : w.Books)

include hb

theorem Books.handBack (hmem : s ∈ w.staked) (hle : s.principal ≤ w.pool.pendingStake) :
    (w.withdrawn s { w.pool with pendingStake := w.pool.pendingStake - s.principal }
      s.principal).Books := by
  have hh := principals_erase hmem
  have ⟨ha, hn⟩ := hb
  constructor
  · show w.pool.suiBalance + (w.pool.pendingStake - s.principal) =
      w.pool.pendingTotalOctWithdraw + tally (·.principal) (w.staked.erase s)
        + w.pool.rewardsPool + w.pool.fungiblePrincipal
    omega
  · show w.validator.nextEpochStake - s.principal + w.pool.pendingTotalOctWithdraw =
      w.pool.suiBalance + (w.pool.pendingStake - s.principal)
    omega

variable {r : Request}

theorem Books.request (h : w.request r = .ok w') : w'.Books := by
  cases effect_of_request h with
  | @addStake stake =>
    have hs := Balanced.withPending hb stake
    have hp : Balanced (Validator.poolWithStake w.pool stake) (stake + w.principals)
        (w.validator.nextEpochStake + stake) := by
      unfold Validator.poolWithStake
      cases w.pool.isPreactive
      · exact hs
      · exact hs.minted
    simpa [Books, principals, receive, pool] using hp
  | handBack hmem _ _ hle => exact hb.handBack hmem hle
  | @withdraw s rate rewards _ hmem _ _ hrew hpool hs =>
    unfold Books at hb
    rw [← principals_erase hmem] at hb
    have hbo := hb.booked (rate.tokens s.principal) hrew
    rw [← hpool] at hbo
    unfold Books withdrawn
    simp only [afterWithdraw]
    split
    · rename_i hnow
      exact hbo.settled (hs hnow)
    · exact hbo
  | @convert s _ _ hmem =>
    have hh := principals_erase hmem
    have ⟨ha, hn⟩ := hb
    refine ⟨?_, hn⟩
    show w.pool.suiBalance + w.pool.pendingStake =
      w.pool.pendingTotalOctWithdraw + tally (·.principal) (w.staked.erase s)
        + w.pool.rewardsPool + (w.pool.fungiblePrincipal + s.principal)
    omega
  | @redeem f data principal rewards _ hdata _ _ hle hrew =>
    have hf : w.pool.fungiblePrincipal = data.principal := by
      simp [fungiblePrincipal, hdata]
    obtain ⟨ha, hn⟩ := hb
    constructor
    · show w.pool.suiBalance + w.pool.pendingStake =
        w.pool.pendingTotalOctWithdraw + (principal + rewards) + w.principals
          + (w.pool.rewardsPool - rewards) + (data.principal - principal)
      omega
    · show w.validator.nextEpochStake - (principal + rewards)
          + (w.pool.pendingTotalOctWithdraw + (principal + rewards)) =
        w.pool.suiBalance + w.pool.pendingStake
      omega
  | @split s amount hmem hle =>
    have hh : w.principals = (s.principal - amount) + (amount +
        tally (·.principal) (w.staked.erase s)) := by
      have := principals_erase hmem
      omega
    unfold Books at hb
    rw [hh] at hb
    simpa [Books, principals, pool] using hb
  | @join s other hs ho =>
    have hh : w.principals = (s.principal + other.principal) +
        tally (·.principal) ((w.staked.erase s).erase other) := by
      have h₁ := principals_erase hs
      have h₂ := tally_erase_add (f := (·.principal)) ho
      omega
    unfold Books at hb
    rw [hh] at hb
    simpa [Books, principals, pool] using hb
  | splitFungible | joinFungible | setOnlyValidatorStaking => exact hb
  | @depositRewards reward =>
    have ⟨ha, hn⟩ := hb
    constructor
    · show w.pool.suiBalance + reward + w.pool.pendingStake =
        w.pool.pendingTotalOctWithdraw + w.principals + (w.pool.rewardsPool + reward)
          + w.pool.fungiblePrincipal
      omega
    · show w.validator.nextEpochStake + reward + w.pool.pendingTotalOctWithdraw =
        w.pool.suiBalance + reward + w.pool.pendingStake
      omega

theorem Books.exec {op : Op} (h : w.exec op = .ok w') : w'.Books := by
  cases op with
  | request r => exact hb.request h
  | stakeAtGenesis stake lock =>
    obtain ⟨_, _, _, rfl, _⟩ := stakeAtGenesis_ok h
    have hs := Balanced.withPending hb stake
    simpa [Books, principals, receive, pool] using hs.minted
  | processPending =>
    obtain ⟨hle, _, rfl⟩ := processPending_ok h
    have hp := (Balanced.settled hb hle).minted
    exact ⟨hp.assets, hp.nextStake⟩
  | activate epoch =>
    obtain ⟨_, _, rfl⟩ := activate_ok h
    exact ⟨hb.assets, hb.nextStake⟩
  | deactivate epoch =>
    obtain rfl := deactivate_ok h
    exact ⟨hb.assets, hb.nextStake⟩
  | nextEpoch =>
    cases h
    exact hb

end World

/-- **Conservation.** In every state that calls can reach, in whatever order, the books balance. -/
theorem books_of_reach {w : World} (h : ledger.Reach Machine.free w) : w.Books :=
  h.invariant (fun _ hw => hw.books) fun _ _ _ hb _ hs => hb.exec hs

/-! ## Where the pending stake is -/

/-- The principal of a receipt that is not active in `epoch`. -/
def StakedOct.pendingAt (epoch : ℕ) (s : StakedOct) : ℕ :=
  if epoch < s.stakeActivationEpoch then s.principal else 0

theorem StakedOct.pendingAt_le (epoch : ℕ) (s : StakedOct) : s.pendingAt epoch ≤ s.principal := by
  unfold pendingAt
  split <;> omega

/-- A preactive pool has taken all stake in; otherwise the pending stake is that of the receipts
that become active with the next epoch. -/
structure Queued (pool : StakingPool) (epoch : ℕ) (staked : List StakedOct) : Prop where
  soon : ∀ s ∈ staked, s.stakeActivationEpoch ≤ epoch + 1
  preactive : pool.isPreactive = true → pool.pendingStake = 0
  pending : pool.isPreactive = false → pool.pendingStake = tally (·.pendingAt epoch) staked

namespace Queued

variable {pool pool' : StakingPool} {epoch : ℕ} {staked : List StakedOct} {s other : StakedOct}

section Receipts

variable (h : Queued pool epoch staked)

include h

/-- Operations that leave the pending stake alone. -/
theorem of_eq (hpre : pool'.isPreactive = pool.isPreactive)
    (hp : pool'.pendingStake = pool.pendingStake) : Queued pool' epoch staked :=
  ⟨h.soon, by rw [hpre, hp]; exact h.preactive, by rw [hpre, hp]; exact h.pending⟩

theorem pending_le : pool.pendingStake ≤ tally (·.principal) staked := by
  cases hpre : pool.isPreactive with
  | true =>
    rw [h.preactive hpre]
    exact Nat.zero_le _
  | false =>
    rw [h.pending hpre]
    exact tally_le_tally fun s _ => s.pendingAt_le epoch

theorem addStake (stake : ℕ) (hs : s.principal = stake)
    (hact : s.stakeActivationEpoch = epoch + 1) :
    Queued (Validator.poolWithStake pool stake) epoch (s :: staked) := by
  have hso : ∀ t ∈ s :: staked, t.stakeActivationEpoch ≤ epoch + 1 := by
    rw [forall_mem_cons]
    exact ⟨hact.le, h.soon⟩
  unfold Validator.poolWithStake
  cases hpre : pool.isPreactive with
  | true =>
    refine ⟨hso, fun _ => rfl, fun hf => ?_⟩
    exact absurd (hpre.symm.trans hf) (by simp)
  | false =>
    refine ⟨hso, fun htr => absurd (htr.symm.trans hpre) (by simp), fun _ => ?_⟩
    have hp := h.pending hpre
    show pool.pendingStake + stake = tally (·.pendingAt epoch) (s :: staked)
    rw [tally_cons, pendingAt, if_pos (by omega)]
    omega

/-- Taking out a receipt that is active, or any receipt of a preactive pool. -/
theorem erase (hmem : s ∈ staked)
    (hact : s.stakeActivationEpoch ≤ epoch ∨ pool.isPreactive = true) :
    Queued pool epoch (staked.erase s) := by
  refine ⟨fun t ht => h.soon t (mem_of_mem_erase ht), h.preactive, fun hpre => ?_⟩
  have hep : s.stakeActivationEpoch ≤ epoch := hact.resolve_right (by simp [hpre])
  have he := tally_erase_add (f := (·.pendingAt epoch)) hmem
  rw [pendingAt, if_neg (by omega)] at he
  rw [h.pending hpre, ← he, Nat.add_zero]

theorem handBack (hmem : s ∈ staked) (hact : epoch < s.stakeActivationEpoch)
    (hpre : pool.isPreactive = false) :
    Queued { pool with pendingStake := pool.pendingStake - s.principal } epoch
      (staked.erase s) := by
  refine ⟨fun t ht => h.soon t (mem_of_mem_erase ht), ?_, fun _ => ?_⟩
  · intro htr
    exact absurd (htr.symm.trans hpre) (by simp)
  · have he := tally_erase_add (f := (·.pendingAt epoch)) hmem
    rw [pendingAt, if_pos hact, ← h.pending hpre] at he
    show pool.pendingStake - s.principal = _
    omega

theorem split {amount : ℕ} (hmem : s ∈ staked) (hle : amount ≤ s.principal) :
    Queued pool epoch ({ s with principal := s.principal - amount } ::
      { s with principal := amount } :: staked.erase s) := by
  refine ⟨?_, h.preactive, fun hpre => ?_⟩
  · rw [forall_mem_cons, forall_mem_cons]
    exact ⟨h.soon s hmem, h.soon s hmem, fun t ht => h.soon t (mem_of_mem_erase ht)⟩
  · have he := tally_erase_add (f := (·.pendingAt epoch)) hmem
    rw [h.pending hpre, ← he, tally_cons, tally_cons]
    by_cases hact : epoch < s.stakeActivationEpoch
    · simp only [pendingAt, if_pos hact]
      omega
    · simp only [pendingAt, if_neg hact, Nat.add_zero, Nat.zero_add]

theorem join (hs : s ∈ staked) (ho : other ∈ staked.erase s)
    (hact : s.stakeActivationEpoch = other.stakeActivationEpoch) :
    Queued pool epoch ({ s with principal := s.principal + other.principal } ::
      (staked.erase s).erase other) := by
  refine ⟨?_, h.preactive, fun hpre => ?_⟩
  · rw [forall_mem_cons]
    exact ⟨h.soon s hs, fun t ht => h.soon t (mem_of_mem_erase (mem_of_mem_erase ht))⟩
  · have h₁ := tally_erase_add (f := (·.pendingAt epoch)) hs
    have h₂ := tally_erase_add (f := (·.pendingAt epoch)) ho
    rw [h.pending hpre, ← h₁, ← h₂, tally_cons]
    by_cases he : epoch < other.stakeActivationEpoch
    · simp only [pendingAt, hact, if_pos he]
      omega
    · simp only [pendingAt, hact, if_neg he, Nat.add_zero, Nat.zero_add]

end Receipts

/-- The next epoch starts, and no stake is pending: every receipt is active in it. -/
theorem of_nextEpoch (hso : ∀ s ∈ staked, s.stakeActivationEpoch ≤ epoch + 1)
    (hp : pool.pendingStake = 0) : Queued pool (epoch + 1) staked := by
  refine ⟨fun s hs => (hso s hs).trans (Nat.le_succ _), fun _ => hp, fun _ => ?_⟩
  rw [hp]
  refine (tally_eq_zero fun s hs => ?_).symm
  have := hso s hs
  rw [pendingAt, if_neg (by omega)]

end Queued

namespace World

variable {w w' : World}

/-- The state between two turns. -/
structure Placed (w : World) : Prop where
  books : w.Books
  queued : Queued w.pool w.epoch w.staked

/-- Booked withdrawals never exceed the balance they will be taken from. -/
theorem Placed.withdraw_le (h : w.Placed) : w.pool.pendingTotalOctWithdraw ≤ w.pool.suiBalance := by
  have hass := h.books.assets
  have hle : w.pool.pendingStake ≤ w.principals := h.queued.pending_le
  omega

theorem Fresh.placed (h : w.Fresh) : w.Placed := by
  obtain ⟨poolId, hp⟩ := h.pool_eq
  refine ⟨h.books, ?_, ?_, ?_⟩
  · simp [h.staked]
  · simp [hp, new]
  · simp [hp, new, isPreactive]

/-- Every request keeps the pending stake where it is. -/
theorem Placed.request (hw : w.Placed) (h : w.request r = .ok w') : w'.Placed := by
  refine ⟨hw.books.request h, ?_⟩
  cases effect_of_request h with
  | @addStake stake => exact hw.queued.addStake stake rfl rfl
  | handBack hmem hact hpre => exact hw.queued.handBack hmem hact hpre
  | withdraw hmem hact _ _ hpool =>
    have hq := hw.queued.erase hmem hact
    subst hpool
    simp only [withdrawn, afterWithdraw]
    split
    · exact hq.of_eq rfl rfl
    · exact hq.of_eq rfl rfl
  | convert hmem _ hact => exact (hw.queued.erase hmem (.inl hact)).of_eq rfl rfl
  | split hmem hle => exact hw.queued.split hmem hle
  | join hs ho hact => exact hw.queued.join hs ho hact
  | splitFungible | joinFungible | setOnlyValidatorStaking => exact hw.queued
  | redeem | depositRewards => exact hw.queued.of_eq rfl rfl

/-! ### Turns -/

/-- Genesis stakes into a preactive pool of epoch 0. -/
structure AtGenesis (w : World) : Prop where
  placed : w.Placed
  epoch : w.epoch = 0
  preactive : w.pool.isPreactive = true
  active : ∀ s ∈ w.staked, s.stakeActivationEpoch = 0

theorem AtGenesis.stakeAtGenesis {stake : ℕ} {lock : Bool} (hw : w.AtGenesis)
    (h : w.exec (.stakeAtGenesis stake lock) = .ok w') : w'.AtGenesis := by
  have hb := hw.placed.books.exec h
  obtain ⟨_, _, _, rfl, _⟩ := stakeAtGenesis_ok h
  have ha : ∀ s ∈ (⟨w.pool.id, 0, stake, lock⟩ : StakedOct) :: w.staked,
      s.stakeActivationEpoch = 0 := by
    rw [forall_mem_cons]
    exact ⟨rfl, hw.active⟩
  refine ⟨⟨hb, ?_, fun _ => rfl, fun hpre => ?_⟩, hw.epoch, hw.preactive, ha⟩
  · intro s hs
    rw [ha s hs]
    exact Nat.zero_le _
  · exact absurd (hw.preactive.symm.trans hpre) (by simp)

theorem AtGenesis.activate (hw : w.AtGenesis) (h : w.exec (.activate 0) = .ok w') : w'.Placed := by
  have hb := hw.placed.books.exec h
  obtain ⟨_, _, rfl⟩ := activate_ok h
  refine ⟨hb, hw.placed.queued.soon, fun _ => hw.placed.queued.preactive hw.preactive, ?_⟩
  intro _
  have hz : tally (·.pendingAt w.epoch) w.staked = 0 :=
    tally_eq_zero fun s hs => by simp [pendingAt, hw.active s hs]
  exact (hw.placed.queued.preactive hw.preactive).trans hz.symm

theorem Placed.genesis {stakes : List ℕ} (hw : w.Placed) (hl : (Turn.genesis stakes).Legal w)
    (h : schedule.step w (.genesis stakes) = .ok w') : w'.Placed := by
  obtain ⟨he, hs, hpre⟩ := hl
  have hsr : w.AtGenesis := ⟨hw, he, hpre, by simp [hs]⟩
  rw [turn_genesis, bind_ok] at h
  obtain ⟨w₁, hst, ha⟩ := h
  have hw₁ : w₁.AtGenesis := by
    refine foldlM_induction ?_ hsr hst
    intro u u' op hop hu hsp
    obtain ⟨stake, _, rfl⟩ := mem_map.1 hop
    exact hu.stakeAtGenesis hsp
  exact hw₁.activate ha

theorem Placed.nextEpoch (hb : w.Books) (hs : ∀ s ∈ w.staked, s.stakeActivationEpoch ≤ w.epoch + 1)
    (hp : w.pool.pendingStake = 0) (h : w.exec .nextEpoch = .ok w') : w'.Placed := by
  cases h
  exact ⟨hb, .of_nextEpoch hs hp⟩

theorem Placed.endEpoch (hw : w.Placed) (h : schedule.step w .endEpoch = .ok w') : w'.Placed := by
  rw [turn_endEpoch, bind_ok] at h
  obtain ⟨w₁, hp, hn⟩ := h
  have hb := hw.books.exec hp
  obtain ⟨_, _, rfl⟩ := processPending_ok hp
  exact .nextEpoch hb hw.queued.soon rfl hn

theorem Placed.leave (hw : w.Placed) (h : schedule.step w .leave = .ok w') : w'.Placed := by
  simp only [turn_leave, bind_ok] at h
  obtain ⟨w₁, hp, w₂, hd, hn⟩ := h
  have hb := (hw.books.exec hp).exec hd
  obtain ⟨_, _, rfl⟩ := processPending_ok hp
  obtain rfl := deactivate_ok hd
  exact .nextEpoch hb hw.queued.soon rfl hn

theorem Placed.enter (hw : w.Placed) (h : schedule.step w .enter = .ok w') : w'.Placed := by
  rw [turn_enter, bind_ok] at h
  obtain ⟨w₁, ha, hn⟩ := h
  have hb := hw.books.exec ha
  obtain ⟨hpre, _, rfl⟩ := activate_ok ha
  exact .nextEpoch hb hw.queued.soon (hw.queued.preactive hpre) hn

theorem Placed.removeCandidate (hw : w.Placed)
    (h : schedule.step w .removeCandidate = .ok w') : w'.Placed := by
  rw [turn_removeCandidate] at h
  have hb := hw.books.exec h
  obtain rfl := deactivate_ok h
  exact ⟨hb, hw.queued.of_eq rfl rfl⟩

end World

/-- The epoch does not change under pending stake: an epoch change that leaves the pool alone
finds it preactive or with nothing pending. -/
def Turn.LeavesNoPending (w : World) : Turn → Prop
  | .skipEpoch => w.pool.isPreactive = true ∨ w.pool.pendingStake = 0
  | _ => True

namespace World

variable {w w' : World} {t : Turn}

theorem Placed.turn (hw : w.Placed) (hl : t.Legal w)
    (hn : t.LeavesNoPending w) (h : schedule.step w t = .ok w') : w'.Placed := by
  cases t with
  | request r =>
    rw [turn_request] at h
    exact hw.request h
  | genesis stakes => exact hw.genesis hl h
  | removeCandidate => exact hw.removeCandidate h
  | endEpoch => exact hw.endEpoch h
  | leave => exact hw.leave h
  | enter => exact hw.enter h
  | skipEpoch =>
    refine .nextEpoch hw.books hw.queued.soon ?_ h
    rcases hn with hpre | hp
    · exact hw.queued.preactive hpre
    · exact hp

end World

/-! ## Where a turn can underflow -/

namespace World

variable {w : World} {q : Quantity}

/-- A withdrawal can underflow inside the pool only: what it pays out counts in
`nextEpochStake`. -/
theorem Books.withdrawStake_underflow (hw : w.Books) (hq : q ≠ .other)
    (h : w.request (.withdrawStake s) = .error (.underflow q)) :
    s ∈ w.staked ∧ w.pool.requestWithdrawStake s w.epoch = .error (.underflow q) := by
  simp only [World.request, bind_error, check_error, reduceCtorEq, and_false, false_or,
    pure_ok, exists_false, or_false] at h
  obtain ⟨_, hc, h⟩ := h
  have hmem : s ∈ w.staked := check_ok.1 hc
  refine ⟨hmem, ?_⟩
  rcases Validator.requestWithdrawStake_underflow hq h with h | ⟨pool', withdrawn, hp, hlt⟩
  · exact h
  · have hb : Balanced w.pool (tally (·.principal) (w.staked.erase s) + s.principal)
        w.validator.nextEpochStake := by
      rw [principals_erase hmem]
      exact hw
    rcases requestWithdrawStake_cases hp with
      ⟨_, _, _, rfl, _⟩ | ⟨_, _, rate, rewards, _, hrew, rfl, _⟩
    · have := hb.le_nextStake (Nat.zero_le _)
      omega
    · have := hb.le_nextStake hrew
      omega

theorem Books.redeem_ne_underflow {f : FungibleStakedOct} (hw : w.Books) (hq : q ≠ .other) :
    w.request (.redeem f) ≠ .error (.underflow q) := by
  intro h
  simp only [World.request, bind_error, check_error, reduceCtorEq, and_false, false_or,
    pure_ok, exists_false, or_false] at h
  obtain ⟨_, _, h⟩ := h
  obtain ⟨pool', out, hp, hlt⟩ := Validator.redeemFungibleStakedOct_underflow hq h
  obtain ⟨data, principal, rewards, _, hd, _, _, _, hpr, hrew, rfl, _⟩ :=
    redeemFungibleStakedOct_ok hp
  have hf : w.validator.stakingPool.fungiblePrincipal = data.principal := by
    simp [fungiblePrincipal, hd]
  obtain ⟨hass, hn⟩ := hw
  simp only [pool] at hass hn
  omega

/-- Of the requests only a withdrawal can underflow. -/
theorem Books.request_underflow (hw : w.Books) (hq : q ≠ .other)
    (h : w.request r = .error (.underflow q)) :
    ∃ s ∈ w.staked, w.pool.requestWithdrawStake s w.epoch = .error (.underflow q) := by
  cases r with
  | addStake stake isValidator =>
    simp [World.request, bind_error, Validator.requestAddStake_ne_underflow] at h
  | withdrawStake s =>
    obtain ⟨hmem, hp⟩ := hw.withdrawStake_underflow hq h
    exact ⟨s, hmem, hp⟩
  | convert s =>
    simp [World.request, bind_error, Validator.convertToFungibleStakedOct_ne_underflow hq] at h
  | redeem f => exact absurd h (hw.redeem_ne_underflow hq)
  | split s amount =>
    simp [World.request, StakedOct.split, bind_error, hq,
      StakingPool.EInsufficientSuiTokenBalance, StakingPool.EStakedOctBelowThreshold] at h
  | join s other =>
    simp [World.request, StakedOct.joinStakedOct, bind_error,
      StakingPool.EIncompatibleStakedOct] at h
  | splitFungible f amount =>
    simp [World.request, FungibleStakedOct.split, bind_error, hq,
      StakingPool.EInsufficientPoolTokenBalance] at h
  | joinFungible f other =>
    simp [World.request, FungibleStakedOct.join, bind_error, StakingPool.EWrongPool] at h
  | setOnlyValidatorStaking b => simp [World.request] at h
  | depositRewards reward =>
    simp [World.request, bind_error, Validator.depositStakeRewards_ne_underflow] at h

theorem exec_processPending_underflow (hq : q ≠ .other)
    (h : w.exec .processPending = .error (.underflow q)) : w.pool.Overdrawn (.underflow q) := by
  simp only [exec, Validator.processPendingStakesAndWithdraws, bind_error, pure_ok,
    reduceCtorEq, and_false, exists_false, or_false] at h
  exact processPendingStakesAndWithdraws_underflow hq h

theorem exec_activate_ne_underflow {epoch : ℕ} :
    w.exec (.activate epoch) ≠ .error (.underflow q) := by
  simp [exec, bind_error, Validator.activate_ne_underflow]

theorem exec_deactivate_ne_underflow {epoch : ℕ} :
    w.exec (.deactivate epoch) ≠ .error (.underflow q) := by
  simp [exec, bind_error, Validator.deactivate_ne_underflow]

theorem exec_stakeAtGenesis_ne_underflow {stake : ℕ} {lock : Bool} :
    w.exec (.stakeAtGenesis stake lock) ≠ .error (.underflow q) := by
  simp [exec, bind_error, Validator.requestAddStakeAtGenesis_ne_underflow]

theorem exec_nextEpoch_ne_error {e : Abort} : w.exec .nextEpoch ≠ .error e := by
  simp [exec]

/-- **Where a turn can underflow**: in the pool's part of a withdrawal, or in the processing at
the end of an epoch. -/
theorem Books.turn_underflow (hw : w.Books) (hq : q ≠ .other)
    (h : schedule.step w t = .error (.underflow q)) :
    (∃ s ∈ w.staked, w.pool.requestWithdrawStake s w.epoch = .error (.underflow q)) ∨
      w.exec .processPending = .error (.underflow q) := by
  cases t with
  | request r =>
    rw [turn_request] at h
    exact .inl (hw.request_underflow hq h)
  | genesis stakes =>
    rw [turn_genesis, bind_error] at h
    rcases h with h | ⟨w₁, _, h⟩
    · refine absurd h (Machine.run_ne_error fun u op hop => ?_)
      obtain ⟨stake, _, rfl⟩ := mem_map.1 hop
      exact exec_stakeAtGenesis_ne_underflow
    · exact absurd h exec_activate_ne_underflow
  | removeCandidate =>
    rw [turn_removeCandidate] at h
    exact absurd h exec_deactivate_ne_underflow
  | endEpoch =>
    rw [turn_endEpoch, bind_error] at h
    rcases h with h | ⟨w₁, _, h⟩
    · exact .inr h
    · exact absurd h exec_nextEpoch_ne_error
  | leave =>
    rw [turn_leave, bind_error] at h
    rcases h with h | ⟨w₁, _, h⟩
    · exact .inr h
    rcases bind_error.1 h with h | ⟨w₂, _, h⟩
    · exact absurd h exec_deactivate_ne_underflow
    · exact absurd h exec_nextEpoch_ne_error
  | enter =>
    rw [turn_enter, bind_error] at h
    rcases h with h | ⟨w₁, _, h⟩
    · exact absurd h exec_activate_ne_underflow
    · exact absurd h exec_nextEpoch_ne_error
  | skipEpoch =>
    exact absurd h exec_nextEpoch_ne_error

end World

/-! ## No subtraction goes below zero -/

/-- The balances whose subtractions are at stake. -/
def Guarded (q : Quantity) : Prop := q = .suiBalance ∨ q = .pendingStake ∨ q = .nextEpochStake

theorem Guarded.ne_other {q : Quantity} (h : Guarded q) : q ≠ .other := by
  rcases h with rfl | rfl | rfl <;> decide

theorem Guarded.ne_poolTokenBalance {q : Quantity} (h : Guarded q) : q ≠ .poolTokenBalance := by
  rcases h with rfl | rfl | rfl <;> decide

namespace World

variable {w : World} {q : Quantity}

theorem Placed.poolWithdraw_ne_underflow (hw : w.Placed) (hq : Guarded q)
    (hmem : s ∈ w.staked) : w.pool.requestWithdrawStake s w.epoch ≠ .error (.underflow q) := by
  intro h
  rcases requestWithdrawStake_underflow hq.ne_other h with
    ⟨hact, hpre, hlt, _⟩ | ⟨hact, rate, rewards, _, hrew, h⟩
  · -- a receipt that is handed back is part of the pending stake
    have hle := le_tally (f := (·.pendingAt w.epoch)) hmem
    rw [← hw.queued.pending hpre, pendingAt, if_pos hact] at hle
    omega
  · -- one that is not is no part of it, so its principal is still in the balance
    have hle : w.pool.pendingStake ≤ tally (·.principal) (w.staked.erase s) :=
      (hw.queued.erase hmem hact).pending_le
    have hass := hw.books.assets
    have hh := principals_erase hmem
    rcases processIfNotActive_error h with ⟨hlt, _⟩ | ⟨_, hc⟩
    · have hlt' : w.pool.suiBalance
          < w.pool.pendingTotalOctWithdraw + (s.principal + rewards) := hlt
      omega
    · exact hq.ne_poolTokenBalance (Abort.underflow.inj hc)

theorem Placed.turn_ne_underflow (hw : w.Placed) (hq : Guarded q) :
    schedule.step w t ≠ .error (.underflow q) := by
  intro h
  rcases hw.books.turn_underflow hq.ne_other h with ⟨s, hmem, h⟩ | h
  · exact hw.poolWithdraw_ne_underflow hq hmem h
  · rcases exec_processPending_underflow hq.ne_other h with ⟨hlt, _⟩ | ⟨_, htok⟩
    · have := hw.withdraw_le
      omega
    · exact hq.ne_poolTokenBalance (Abort.underflow.inj htok)

end World

/-- Runs in which no epoch changes under pending stake. -/
def Turn.Orderly (w : World) (t : Turn) : Prop := t.Legal w ∧ t.LeavesNoPending w

theorem placed_of_reach {w : World} (h : schedule.Reach (fun w t => t.Orderly w) w) : w.Placed :=
  h.invariant (fun _ hw => hw.placed) fun _ _ _ hw ht hs => hw.turn ht.1 ht.2 hs

/-- **Stake is conserved.** Both equations hold in every state that calls reach in any order.
Where no epoch changes under pending stake, no call takes `suiBalance`, `pendingStake` or
`nextEpochStake` below zero. -/
theorem stake_conserved (w : World) :
    (ledger.Reach Machine.free w → w.pool.suiBalance + w.pool.pendingStake =
          w.pool.pendingTotalOctWithdraw + w.principals + w.pool.rewardsPool
            + w.pool.fungiblePrincipal ∧
        w.pool.pendingTotalOctWithdraw ≤ w.pool.suiBalance + w.pool.pendingStake ∧
        w.validator.nextEpochStake =
          w.pool.suiBalance + w.pool.pendingStake - w.pool.pendingTotalOctWithdraw) ∧
    (schedule.Reach (fun w t => t.Orderly w) w → ∀ t q, Guarded q →
      schedule.step w t ≠ .error (.underflow q)) := by
  refine ⟨fun h => ?_, fun h t q hq => (placed_of_reach h).turn_ne_underflow hq⟩
  have ⟨hass, hn⟩ := books_of_reach h
  exact ⟨hass, by omega, by omega⟩

/-- The two parts at a staked pool: its books, and the end of its first epoch. -/
theorem stake_conserved_blank :
    ∃ w, w.pool.suiBalance = 1000000000 ∧ w.pool.pendingStake = 5000000000 ∧
      w.validator.nextEpochStake =
        w.pool.suiBalance + w.pool.pendingStake - w.pool.pendingTotalOctWithdraw ∧
      schedule.step w .endEpoch ≠ .error (.underflow .suiBalance) := by
  have hr : schedule.Reach (fun w t => t.Orderly w) _ :=
    .step (.request (.addStake 5000000000 true))
      (.step (.genesis [1000000000]) (.init blank_fresh) ⟨⟨rfl, rfl, rfl⟩, trivial⟩ rfl)
      ⟨trivial, trivial⟩ rfl
  exact ⟨_, rfl, rfl, ((stake_conserved _).1 (ledger_reach_of_schedule hr)).2.2,
    (stake_conserved _).2 hr _ _ (.inl rfl)⟩

/-- **A skipped epoch breaks the subtraction.** Stake that is pending when the epoch changes in
safe mode counts as active afterwards; withdrawing it books more than the balance holds, and the
end of the next epoch underflows. -/
theorem endEpoch_underflows_after_skipped_epoch :
    ∃ w, schedule.Reach (fun w t => t.Legal w) w ∧ Turn.endEpoch.Legal w ∧
      schedule.step w .endEpoch = .error (.underflow .suiBalance) :=
  ⟨_, .step (.request (.withdrawStake ⟨7, 1, 5000000000, true⟩)) (.step .skipEpoch
      (.step (.request (.addStake 5000000000 true))
        (.step (.genesis [1000000000]) (.init blank_fresh) ⟨rfl, rfl, rfl⟩ rfl)
        trivial rfl)
      trivial rfl)
    trivial rfl, ⟨rfl, rfl⟩, rfl⟩

end OneChain.System
